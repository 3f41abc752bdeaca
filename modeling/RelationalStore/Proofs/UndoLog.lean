import RelationalStore.Proofs.OperationTriple
import RelationalStore.Proofs.TableCalls
import RelationalStore.Proofs.TableRestore
import RelationalStore.Transaction

/- The undo log of a transaction. Each of the three writes puts a row, or none, in place of what is
   under its key and notes what that was (`Transaction.Wrote`). A rollback acts on every table by
   itself and replays what the log has about it, backwards. So what a rollback leads to is the same
   after a write as before it, and the same after any number of writes (`Transaction.Leads`), which
   is all that is needed of an operation. `D` gives each table its discipline; that of numbers,
   which requests keep, gives each column of each table its class. -/
namespace RelationalStore
open SortedMap

/-- Every table is stored under its own name and is proper. -/
structure Tables.Proper (κ : String → String → NumberClass) (tables : Tables) : Prop where
  name : ∀ {n t}, tables.get? n = some t → t.name = n
  proper : ∀ {n t}, tables.get? n = some t → t.Proper (κ n)

/-- Every table is stored under its own name and is good. -/
structure Tables.Under (D : String → Table.Discipline) (tables : Tables) : Prop where
  name : ∀ {n t}, tables.get? n = some t → t.name = n
  good : ∀ {n t}, tables.get? n = some t → (D n).Good t

theorem Tables.proper_iff {κ : String → String → NumberClass} {tables : Tables} :
    Tables.Proper κ tables ↔ Tables.Under (.within ∘ κ) tables :=
  ⟨fun h => ⟨h.name, h.proper⟩, fun h => ⟨h.name, h.good⟩⟩

/-- Takes one write to a table back. -/
def Undo.takeBack (t : Table) (u : Undo) : Table := t.restore u.key u.previous

@[simp] theorem Undo.definition_takeBack (t : Table) (u : Undo) :
    (Undo.takeBack t u).definition = t.definition :=
  Table.definition_restore

namespace Transaction
variable {D : String → Table.Discipline} {tx tx' tx'' : Transaction}
  {tables tables' tables'' : Tables} {name n : String} {t : Table} {key : Key} {row : Row}
  {new : Option Row}

/-! ### What a write does -/

/-- The transaction may change the table of that name. -/
def MayWrite (tx : Transaction) (name : String) : Prop :=
  tx.active = true ∧ tx.mode = .readWrite ∧ name ∈ tx.scope

theorem mayWrite_congr (hactive : tx'.active = tx.active) (hmode : tx'.mode = tx.mode)
    (hscope : tx'.scope = tx.scope) (name : String) : tx'.MayWrite name ↔ tx.MayWrite name := by
  rw [MayWrite, MayWrite, hactive, hmode, hscope]

/-- The transaction has made `new` what is under the key in a table, and noted what was there. -/
structure Wrote (tx : Transaction) (tables : Tables) (name : String) (t : Table) (key : Key)
    (new : Option Row) (tx' : Transaction) (tables' : Tables) : Prop where
  mayWrite : tx.MayWrite name
  found : tables.get? name = some t
  log : tx' = tx.note ⟨t.name, key, t.get? key⟩
  tables : tables' = tables.insert name (t.restore key new)

theorem table_ok (h : tx.table tables name = .ok t) :
    tx.active = true ∧ name ∈ tx.scope ∧ tables.get? name = some t := by
  unfold table at h
  split at h
  · cases h
  · next hactive =>
    split at h
    · next hscope =>
      exact ⟨by simpa using hactive, by simpa using hscope, Option.elim_ok_eq_ok.1 h⟩
    · cases h

theorem tableToWrite_ok (h : tx.tableToWrite tables name = .ok t) :
    tx.MayWrite name ∧ tables.get? name = some t := by
  obtain ⟨u, hu, h⟩ := Except.bind_eq_ok.1 h
  obtain ⟨hactive, hscope, hfound⟩ := table_ok hu
  split at h
  · next hmode =>
    cases h
    exact ⟨⟨hactive, hmode, hscope⟩, hfound⟩
  · cases h

theorem add_ok (h : tx.add tables name row = .ok (key, tx', tables')) :
    ∃ t, tx.Wrote tables name t key (some row) tx' tables' ∧ key = t.keyOf row ∧
      key.hasNull = false := by
  obtain ⟨t, ht, h⟩ := Except.bind_eq_ok.1 h
  obtain ⟨⟨k, next⟩, hadd, h⟩ := Except.bind_eq_ok.1 h
  cases h
  obtain ⟨hmay, hfound⟩ := tableToWrite_ok ht
  obtain ⟨hkey, hnull, hfree, -, rfl⟩ := Table.add_ok hadd
  refine ⟨t, ⟨hmay, hfound, ?_, ?_⟩, hkey, hnull⟩
  · rw [hfree]
  · rw [Table.restore, Table.remove_of_absent hfree]

/-- Only a row under a new key is added. -/
theorem get?_of_add (h : tx.add tables name row = .ok (key, tx', tables'))
    (hfound : tables.get? name = some t) : t.get? key = none := by
  obtain ⟨u, hu, h⟩ := Except.bind_eq_ok.1 h
  obtain ⟨⟨k, next⟩, hadd, h⟩ := Except.bind_eq_ok.1 h
  cases h
  cases hfound.symm.trans (tableToWrite_ok hu).2
  exact (Table.add_ok hadd).2.2.1

theorem put_ok (h : tx.put tables name row = .ok (key, tx', tables')) :
    ∃ t, tx.Wrote tables name t key (some row) tx' tables' ∧ key = t.keyOf row ∧
      key.hasNull = false := by
  obtain ⟨t, ht, h⟩ := Except.bind_eq_ok.1 h
  obtain ⟨⟨k, next⟩, hput, h⟩ := Except.bind_eq_ok.1 h
  cases h
  obtain ⟨hmay, hfound⟩ := tableToWrite_ok ht
  obtain ⟨hkey, hnull, -, rfl⟩ := Table.put_ok hput
  exact ⟨t, ⟨hmay, hfound, by rw [hkey], rfl⟩, hkey, hnull⟩

theorem delete_ok {old : Option Row} (h : tx.delete tables name key = .ok (old, tx', tables')) :
    ∃ t, tables.get? name = some t ∧ old = t.get? key ∧
      (old = none ∧ tx' = tx ∧ tables' = tables ∨
        old ≠ none ∧ tx.Wrote tables name t key none tx' tables') := by
  obtain ⟨t, ht, h⟩ := Except.bind_eq_ok.1 h
  obtain ⟨hmay, hfound⟩ := tableToWrite_ok ht
  refine ⟨t, hfound, ?_⟩
  simp only [Table.delete] at h
  cases hg : t.get? key with
  | none =>
    rw [hg] at h
    cases h
    exact ⟨rfl, .inl ⟨rfl, rfl, rfl⟩⟩
  | some row =>
    rw [hg] at h
    cases h
    exact ⟨rfl, .inr ⟨Option.some_ne_none row, hmay, hfound, by rw [hg], rfl⟩⟩

/-! ### What a rollback does -/

theorem get?_undoOne (u : Undo) : (undoOne tables u).get? n =
    if u.table = n then (tables.get? n).map (Undo.takeBack · u) else tables.get? n := by
  unfold undoOne
  by_cases hn : u.table = n
  · subst hn
    cases hg : tables.get? u.table <;> simp [hg, Undo.takeBack]
  · cases hg : tables.get? u.table with
    | none => simp [hn]
    | some t => simp [hn, get?_insert_of_ne hn]

/-- Every table by itself. -/
theorem get?_rollback : (tx.rollback tables).get? n =
    (tables.get? n).map fun t => (tx.undo.filter (·.table = n)).foldl Undo.takeBack t := by
  unfold rollback
  induction tx.undo generalizing tables with
  | nil => simp
  | cons u rest ih =>
    rw [List.foldl_cons, ih, get?_undoOne]
    by_cases hn : u.table = n <;> simp [hn, Function.comp_def]

theorem foldl_takeBack {D : Table.Discipline} {a b : Table} {us : List Undo}
    (h : a.Agrees D b) (hs : ∀ u ∈ us, D.Suits a.definition u.key u.previous) :
    (us.foldl Undo.takeBack a).Agrees D (us.foldl Undo.takeBack b) := by
  induction us generalizing a b with
  | nil => exact h
  | cons u rest ih =>
    -- Taking one write back keeps the definition, so the rest of the log still suits it.
    refine ih (h.restore (hs u List.mem_cons_self)) fun v hv => ?_
    rw [Undo.definition_takeBack]
    exact hs v (List.mem_cons_of_mem u hv)

/-- What is noted can be put back, and only a transaction that writes has notes. -/
structure Logged (D : String → Table.Discipline) (tables : Tables) (tx : Transaction) :
    Prop where
  mode : tx.undo ≠ [] → tx.mode = .readWrite
  noted : ∀ u ∈ tx.undo, u.table ∈ tx.scope ∧
    ∃ t, tables.get? u.table = some t ∧ (D u.table).Suits t.definition u.key u.previous

theorem Logged.suits (h : tx.Logged D tables) (ht : tables.get? n = some t) :
    ∀ u ∈ tx.undo.filter (·.table = n), (D n).Suits t.definition u.key u.previous := by
  intro u hu
  obtain ⟨hmem, hn⟩ := List.mem_filter.1 hu
  have hn : u.table = n := by simpa using hn
  subst hn
  obtain ⟨-, t', ht', hs⟩ := h.noted u hmem
  rw [ht] at ht'
  cases ht'
  exact hs

/-- The log speaks of tables by their definitions only. -/
theorem Logged.of_definitions (h : tx.Logged D tables)
    (hd : ∀ n, (tables'.get? n).map (·.definition) = (tables.get? n).map (·.definition)) :
    tx.Logged D tables' := by
  refine ⟨h.mode, fun u hu => ?_⟩
  obtain ⟨hscope, t, ht, hs⟩ := h.noted u hu
  have hd := hd u.table
  rw [ht, Option.map_some, Option.map_eq_some_iff] at hd
  obtain ⟨t', ht', heq⟩ := hd
  exact ⟨hscope, t', ht', by rwa [heq]⟩

theorem definition_foldl_takeBack (us : List Undo) (t : Table) :
    (us.foldl Undo.takeBack t).definition = t.definition := by
  induction us generalizing t with
  | nil => rfl
  | cons u rest ih => rw [List.foldl_cons, ih, Undo.definition_takeBack]

theorem definition_rollback (n : String) :
    ((tx.rollback tables).get? n).map (·.definition) = (tables.get? n).map (·.definition) := by
  rw [get?_rollback, Option.map_map]
  congr 1
  funext t
  exact definition_foldl_takeBack _ t

theorem under_rollback (hp : Tables.Under D tables) (hl : tx.Logged D tables) :
    Tables.Under D (tx.rollback tables) where
  name h := by
    rw [get?_rollback, Option.map_eq_some_iff] at h
    obtain ⟨t, ht, rfl⟩ := h
    rw [Table.name, definition_foldl_takeBack]
    exact hp.name ht
  good h := by
    rw [get?_rollback, Option.map_eq_some_iff] at h
    obtain ⟨t, ht, rfl⟩ := h
    exact (foldl_takeBack (.refl (hp.good ht)) (hl.suits ht)).left

/-- A rollback does not touch tables that nothing is noted about. -/
theorem rollback_of_not_noted (h : ∀ u ∈ tx.undo, u.table ≠ n) :
    (tx.rollback tables).get? n = tables.get? n := by
  rw [get?_rollback, List.filter_eq_nil_iff.2 (by simpa using h)]
  simp

/-- All that is noted is of tables that the transaction writes to. -/
def Noted (tx : Transaction) : Prop := ∀ u ∈ tx.undo, tx.mode = .readWrite ∧ u.table ∈ tx.scope

theorem Logged.isNoted (h : tx.Logged D tables) : tx.Noted :=
  fun u hu => ⟨h.mode (List.ne_nil_of_mem hu), (h.noted u hu).1⟩

/-- A rollback does not touch what the transaction may not write to. -/
theorem Noted.rollback_of_free (h : tx.Noted) (hactive : tx.active = true) (hn : ¬ tx.MayWrite n)
    (tables : Tables) : (tx.rollback tables).get? n = tables.get? n := by
  refine rollback_of_not_noted fun u hu heq => hn ?_
  rw [← heq]
  exact ⟨hactive, h u hu⟩

/-! ### What writes lead to -/

section Agreement
variable {D : Table.Discipline} {x y z : Option Table}

theorem agrees_trans (h : Option.Rel (Table.Agrees D) x y) (h' : Option.Rel (Table.Agrees D) y z) :
    Option.Rel (Table.Agrees D) x z := by
  cases h with
  | some h =>
    cases h' with
    | some h' => exact .some (h.trans h')
  | none =>
    cases h' with
    | none => exact .none

end Agreement

/-- What may become of a transaction and its tables: the tables that it may not write to stay as they
are, all stay proper, and the log can still be replayed. -/
structure Turns (D : String → Table.Discipline) (tx : Transaction) (tables : Tables)
    (tx' : Transaction) (tables' : Tables) : Prop where
  id : tx'.id = tx.id
  mode : tx'.mode = tx.mode
  scope : tx'.scope = tx.scope
  active : tx'.active = true → tx.active = true
  outside : ∀ n, ¬ tx.MayWrite n → tables'.get? n = tables.get? n
  definition : ∀ n, (tables'.get? n).map (·.definition) = (tables.get? n).map (·.definition)
  under : Tables.Under D tables'
  logged : tx'.Logged D tables'

/-- What becomes of them by writing: the same rollback as before leads back from there. -/
structure Leads (D : String → Table.Discipline) (tx : Transaction) (tables : Tables)
    (tx' : Transaction) (tables' : Tables) : Prop extends Turns D tx tables tx' tables' where
  live : tx'.active = tx.active
  back : ∀ n, Option.Rel (Table.Agrees (D n)) ((tx'.rollback tables').get? n)
    ((tx.rollback tables).get? n)

theorem agrees_rollback (hp : Tables.Under D tables) (hl : tx.Logged D tables) (n : String) :
    Option.Rel (Table.Agrees (D n)) ((tx.rollback tables).get? n) ((tx.rollback tables).get? n) := by
  cases h : (tx.rollback tables).get? n with
  | none => exact .none
  | some t => exact .some (.refl ((under_rollback hp hl).good h))

theorem Turns.refl (hp : Tables.Under D tables) (hl : tx.Logged D tables) :
    tx.Turns D tables tx tables :=
  ⟨rfl, rfl, rfl, fun h => h, fun _ _ => rfl, fun _ => rfl, hp, hl⟩

theorem Leads.refl (hp : Tables.Under D tables) (hl : tx.Logged D tables) :
    tx.Leads D tables tx tables :=
  ⟨.refl hp hl, rfl, agrees_rollback hp hl⟩

theorem Leads.mayWrite_iff (h : tx.Leads D tables tx' tables') (n : String) :
    tx'.MayWrite n ↔ tx.MayWrite n :=
  mayWrite_congr h.live h.mode h.scope n

theorem Leads.trans (h : tx.Leads D tables tx' tables') (h' : tx'.Leads D tables' tx'' tables'') :
    tx.Leads D tables tx'' tables'' where
  id := h'.id.trans h.id
  mode := h'.mode.trans h.mode
  scope := h'.scope.trans h.scope
  active := fun h'' => h.active (h'.active h'')
  outside n hn := (h'.outside n (by rwa [h.mayWrite_iff])).trans (h.outside n hn)
  definition n := (h'.definition n).trans (h.definition n)
  under := h'.under
  logged := h'.logged
  live := h'.live.trans h.live
  back n := agrees_trans (h'.back n) (h.back n)

/-! ### One write -/

theorem Wrote.definition (hw : tx.Wrote tables name t key new tx' tables') (n : String) :
    (tables'.get? n).map (·.definition) = (tables.get? n).map (·.definition) := by
  rw [hw.tables]
  by_cases hn : name = n
  · subst hn
    simp [hw.found]
  · rw [get?_insert_of_ne hn]

theorem Wrote.under (hp : Tables.Under D tables)
    (hw : tx.Wrote tables name t key new tx' tables') (hs : (D name).Suits t.definition key new) :
    Tables.Under D tables' := by
  rw [hw.tables]
  refine ⟨fun {n u} hu => ?_, fun {n u} hu => ?_⟩
  · rw [get?_insert_eq] at hu
    split at hu
    · next hn =>
      cases hu
      rw [Table.name, Table.definition_restore, ← hn]
      exact hp.name hw.found
    · exact hp.name hu
  · rw [get?_insert_eq] at hu
    split at hu
    · next hn =>
      cases hu
      subst hn
      exact (D name).restore (hp.good hw.found) hs
    · exact hp.good hu

theorem Leads.write (hp : Tables.Under D tables) (hl : tx.Logged D tables)
    (hw : tx.Wrote tables name t key new tx' tables') (hs : (D name).Suits t.definition key new) :
    tx.Leads D tables tx' tables' := by
  have hdefinition := hw.definition
  have hunder := hw.under hp hs
  obtain ⟨hmay, hfound, rfl, rfl⟩ := hw
  have hname : t.name = name := hp.name hfound
  have ht := hp.good hfound
  refine ⟨⟨rfl, rfl, rfl, fun h => h, ?_, hdefinition, hunder, ⟨fun _ => hmay.2.1, ?_⟩⟩, rfl, ?_⟩
  · intro n hn
    refine get?_insert_of_ne fun heq => hn ?_
    rwa [← heq]
  · have hnoted : (tx.note ⟨t.name, key, t.get? key⟩).undo = ⟨t.name, key, t.get? key⟩ :: tx.undo :=
      rfl
    rw [hnoted]
    intro u hu
    rcases List.mem_cons.1 hu with rfl | hu
    · refine ⟨?_, t.restore key new, ?_, ?_⟩
      · rw [hname]
        exact hmay.2.2
      · rw [hname]
        simp
      · rw [hname, Table.definition_restore]
        exact (D name).suits_get? ht hs
    · exact (hl.of_definitions hdefinition).noted u hu
  · intro n
    rw [get?_rollback, get?_rollback]
    show Option.Rel _ (Option.map (fun t => (List.filter _ (_ :: tx.undo)).foldl Undo.takeBack t) _) _
    by_cases hn : name = n
    · -- The new note is the first to be replayed, and gives the rows from before.
      subst hn
      simp only [hname, decide_true, List.filter_cons_of_pos, List.foldl_cons, get?_insert_self,
        hfound, Option.map_some]
      refine .some (foldl_takeBack (.restore_restore ht hs) fun u hu => ?_)
      rw [Undo.takeBack, Table.definition_restore, Table.definition_restore]
      exact hl.suits hfound u hu
    · rw [get?_insert_of_ne hn, List.filter_cons_of_neg (by simpa [hname] using hn)]
      have hsame := agrees_rollback hp hl n
      rwa [get?_rollback] at hsame

theorem leads_add (hp : Tables.Under D tables) (hl : tx.Logged D tables)
    (hs : ∀ t, tables.get? name = some t → (t.keyOf row).hasNull = false →
      (D name).Suits t.definition (t.keyOf row) (some row))
    (h : tx.add tables name row = .ok (key, tx', tables')) : tx.Leads D tables tx' tables' := by
  obtain ⟨t, hw, rfl, hnull⟩ := add_ok h
  exact .write hp hl hw (hs t hw.found hnull)

theorem leads_put (hp : Tables.Under D tables) (hl : tx.Logged D tables)
    (hs : ∀ t, tables.get? name = some t → (t.keyOf row).hasNull = false →
      (D name).Suits t.definition (t.keyOf row) (some row))
    (h : tx.put tables name row = .ok (key, tx', tables')) : tx.Leads D tables tx' tables' := by
  obtain ⟨t, hw, rfl, hnull⟩ := put_ok h
  exact .write hp hl hw (hs t hw.found hnull)

theorem leads_delete (hp : Tables.Under D tables) (hl : tx.Logged D tables) {old : Option Row}
    (hs : ∀ t, tables.get? name = some t → key.parts.length = t.definition.keyPath.length →
      (D name).Suits t.definition key none)
    (h : tx.delete tables name key = .ok (old, tx', tables')) : tx.Leads D tables tx' tables' := by
  obtain ⟨t, ht, rfl, ⟨-, rfl, rfl⟩ | ⟨hthere, hw⟩⟩ := delete_ok h
  · exact .refl hp hl
  · -- A key of another length has no row, so there would have been nothing to delete.
    have hlen : key.parts.length = t.definition.keyPath.length := by
      by_contra hne
      exact hthere (((D name).sound (hp.good ht)).get?_of_length_ne hne)
    exact .write hp hl hw (hs t ht hlen)

/-- Of an aborted transaction no more is left than its name. -/
theorem abort_frame (tx : Transaction) (tables : Tables) :
    (tx.abort tables).1.id = tx.id ∧ (tx.abort tables).1.mode = tx.mode ∧
      (tx.abort tables).1.scope = tx.scope ∧ (tx.abort tables).1.active = false := by
  unfold Transaction.abort
  by_cases hactive : tx.active = true <;> simp [hactive]

/-- Taking everything back. -/
theorem Turns.abort (hp : Tables.Under D tables) (hl : tx.Logged D tables) :
    tx.Turns D tables (tx.abort tables).1 (tx.abort tables).2 := by
  unfold Transaction.abort
  by_cases hactive : tx.active = true
  · rw [if_pos hactive]
    refine ⟨rfl, rfl, rfl, nofun, fun n hn => hl.isNoted.rollback_of_free hactive hn tables,
      definition_rollback, under_rollback hp hl, ?_⟩
    exact ⟨fun h => absurd rfl h, fun u hu => absurd hu List.not_mem_nil⟩
  · rw [if_neg hactive]
    exact .refl hp hl

end Transaction

end RelationalStore

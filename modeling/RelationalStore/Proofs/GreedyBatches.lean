import RelationalStore.Proofs.GainedRows
import RelationalStore.Proofs.KindedTables
import RelationalStore.Proofs.ScopedRequests

/- What a batch of creations leaves. An entry is drafted over the tables that the entries before it
   left, and its row is stored if it collides with no row that is there by then. One that collides
   is passed over if the batch says so, with nothing but the supply changed, and ends the batch
   otherwise. So the batch is inserted greedily, from left to right (`Entity.Inserts`). In tables
   whose columns hold numbers of one class the unique indexes and the primary key tell a collision
   by the rows alone. -/
namespace RelationalStore
open SortedMap Read Operation

/-! ### Collisions -/

namespace Table
variable {κ : String → NumberClass} {t : Table} {row : Row}

/-- A row of the table has the primary key of the row, or its values in a unique index, all of them
present. -/
def Collides (t : Table) (row : Row) : Prop :=
  ∃ old ∈ t.toList, compare (t.keyOf row) (t.keyOf old) = .eq ∨
    ∃ i ∈ t.definition.indexes, i.unique = true ∧ (Key.ofRow i.fields row).hasNull = false ∧
      compare (Key.ofRow i.fields row) (Key.ofRow i.fields old) = .eq

/-- A row that is added collides with none, and one that a unique constraint keeps out does. -/
theorem Proper.yields_add (h : t.Proper κ) (hrow : row.Within κ) :
    Yields (t.add row) (fun _ => ¬ t.Collides row) fun err => err.Other ∨ t.Collides row := by
  have hfits : row.Fits κ t.definition.columns := hrow.fits
  have hkey := keyOf_fits hfits
  have hrequire : Yields (t.requireKey row) (· = t.keyOf row) fun err => err.Other ∨ t.Collides row :=
    .ite (fun _ => .error (.inl nofun)) fun _ => .ok rfl
  refine .bind hrequire fun key hown => ?_
  subst hown
  refine .ite (fun htaken => .throw (.inr ?_)) fun hfree => ?_
  · have hsome : (t.get? (t.keyOf row)).isSome := by
      rwa [get?, SortedMap.get?, Option.isSome_map]
    obtain ⟨old, hold⟩ := Option.isSome_iff_exists.1 hsome
    obtain ⟨hmem, hsame⟩ := (h.sorted.get?_eq_some hkey).1 hold
    exact ⟨old, hmem, .inl hsame⟩
  have hfree : t.get? (t.keyOf row) = none := by
    simpa [get?, SortedMap.get?, SortedMap.contains] using hfree
  refine .bind (R := fun _ => ¬ t.Collides row) (.of_ok (fun _ hq => ?_) fun err herr => ?_)
    fun _ hspared => .pure hspared
  · rintro ⟨old, hold, hsame | ⟨i, hi, hu, hnull, hshare⟩⟩
    · cases hfree.symm.trans ((h.sorted.get?_eq_some hkey).2 ⟨hold, hsame⟩)
    · obtain ⟨k, hk⟩ := mem_toList_iff.1 hold
      refine h.toSound.spares_of_free hkey hfits hfree hq i hi hu (k, old) hk hnull ⟨?_, hshare⟩
      rwa [← Key.hasNull_eq_of_compare hshare]
  · unfold checkUnique at herr
    split at herr
    · next i hfound =>
      have hi := List.mem_of_find?_eq_some hfound
      have htaken : i.isTaken (t.keyOf row) row = true := by simpa using List.find?_some hfound
      obtain ⟨hu, hnull, entry, hentry, hshare, -⟩ := (h.toSound.isTaken_iff hfits hi).1 htaken
      exact .inr ⟨entry.2, mem_toList_iff.2 ⟨entry.1, hentry⟩,
        .inr ⟨_, h.toSound.index_definition hi, hu, hnull, hshare.2⟩⟩
    · cases herr

end Table

/-- A stored row has the primary key of the row, or its values in a unique group, all of them
present. -/
def Tables.Collides (T : Tables) (e : Entity) (row : Row) : Prop :=
  ∃ old, T.Has e.name old ∧ (compare (e.keyOf row) (e.keyOf old) = .eq ∨
    ∃ group ∈ e.uniqueGroups, (Key.ofRow group row).hasNull = false ∧
      compare (Key.ofRow group row) (Key.ofRow group old) = .eq)

section
variable {s : Schema} {κ : String → String → NumberClass} {T : Tables} {e : Entity} {row : Row}

/-- The unique groups are what the unique indexes are over. -/
theorem Schema.Holds.collides_iff (h : s.Holds κ T) (he : s.entity? e.name = some e) {t : Table}
    (ht : T.get? e.name = some t) : T.Collides e row ↔ t.Collides row := by
  have hdefinition := h.definition e t he ht
  constructor
  · rintro ⟨old, ⟨t', ht', hold⟩, hsame⟩
    cases ht.symm.trans ht'
    refine ⟨old, hold, hsame.imp (fun hkey => ?_) fun hshared => ?_⟩
    · rwa [h.tableDef he ht, h.tableDef he ht]
    · obtain ⟨group, hgroup, hnull, hshare⟩ := hshared
      rw [hdefinition]
      exact ⟨_, Entity.mem_indexes_of_group hgroup, rfl, hnull, hshare⟩
  · rintro ⟨old, hold, hsame⟩
    refine ⟨old, ⟨t, ht, hold⟩, hsame.imp (fun hkey => ?_) fun hshared => ?_⟩
    · rwa [h.tableDef he ht, h.tableDef he ht] at hkey
    · obtain ⟨i, hi, hu, hnull, hshare⟩ := hshared
      rw [hdefinition] at hi
      exact ⟨i.fields, Entity.group_of_unique hi hu, hnull, hshare⟩

/-- A row that is added collides with none and is one more, and one that a unique constraint keeps out
collides with one. -/
theorem Schema.Holds.yields_add (h : s.Holds κ T) (he : s.entity? e.name = some e)
    (hrow : row.Within (κ e.name)) (tx : Transaction) :
    Yields (tx.add T e.name row)
      (fun added => added.1 = e.keyOf row ∧ ¬ T.Collides e row ∧ T.Gains e.name row added.2.2 ∧
        s.Holds κ added.2.2)
      fun err => err.Other ∨ T.Collides e row := by
  have hwritten : Yields (tx.tableToWrite T e.name) (fun t => T.get? e.name = some t) Error.Other := by
    refine .bind ?_ fun t ht => .ite (fun _ => .pure ht) fun _ => .throw nofun
    exact View.table_other ⟨s, T, tx⟩ e
  have hadded : Yields (tx.add T e.name row) (fun _ => ¬ T.Collides e row)
      fun err => err.Other ∨ T.Collides e row := by
    refine .bind (hwritten.mono (fun _ h => h) fun _ => .inl) fun t ht => ?_
    rw [h.collides_iff he ht]
    exact .bind ((h.proper.proper ht).yields_add hrow) fun _ hfree => .pure hfree
  refine .of_ok (fun added hadd => ?_) fun err herr => by rwa [herr] at hadded
  rw [hadd] at hadded
  obtain ⟨hholds, -, hkey, -⟩ := h.add he hrow hadd
  exact ⟨hkey, hadded, Transaction.gains_of_add hadd, hholds⟩

end

/-! ### Batches -/

/-- A batch is inserted from left to right. Each entry gives a row, over the tables that the entries
before it left; it is stored if it collides with no row there, and may be skipped if it does. -/
inductive Entity.Inserts (e : Entity) (skip : Bool) :
    Tables → Supply → List WriteData → List Row → Tables → Supply → Prop
  | done {T : Tables} {supply : Supply} : Inserts e skip T supply [] [] T supply
  | stored {T T₁ T' : Tables} {supply next supply' : Supply} {data : WriteData}
      {rest : List WriteData} {row : Row} {rows : List Row} (hrow : e.Drafts T supply data row)
      (hnext : supply.Draws next) (hfree : ¬ T.Collides e row) (hgains : T.Gains e.name row T₁)
      (hrest : Inserts e skip T₁ next rest rows T' supply') :
      Inserts e skip T supply (data :: rest) (row :: rows) T' supply'
  | skipped {T T' : Tables} {supply next supply' : Supply} {data : WriteData}
      {rest : List WriteData} {row : Row} {rows : List Row} (hskip : skip = true)
      (hrow : e.Drafts T supply data row) (hnext : supply.Draws next) (htaken : T.Collides e row)
      (hrest : Inserts e skip T next rest rows T' supply') :
      Inserts e skip T supply (data :: rest) rows T' supply'

/-- The rows of the table of that name. -/
def Tables.rowsOf (T : Tables) (n : String) : List Row := (T.get? n).elim [] Table.toList

theorem Tables.Gains.rowsOf {T T' : Tables} {n : String} {row : Row} (h : T.Gains n row T') :
    (T'.rowsOf n).Perm (row :: T.rowsOf n) := by
  obtain ⟨t, t', before, after, ht, ht', hold, hnew, -⟩ := h
  rw [Tables.rowsOf, Tables.rowsOf, ht, ht', Option.elim_some, Option.elim_some, Table.toList,
    Table.toList, SortedMap.values, SortedMap.values, hold, hnew]
  simp

namespace Entity.Inserts
variable {e : Entity} {skip : Bool} {T T₁ T' : Tables} {supply next supply' : Supply}
  {batch rest : List WriteData} {rows more : List Row}

theorem append (h : e.Inserts skip T supply batch rows T₁ next)
    (hrest : e.Inserts skip T₁ next rest more T' supply') :
    e.Inserts skip T supply (batch ++ rest) (rows ++ more) T' supply' := by
  induction h with
  | done => exact hrest
  | stored hrow hnext hfree hgains _ ih => exact .stored hrow hnext hfree hgains (ih hrest)
  | skipped hskip hrow hnext htaken _ ih => exact .skipped hskip hrow hnext htaken (ih hrest)

/-- The table has the new rows and those that it had. -/
theorem perm (h : e.Inserts skip T supply batch rows T' supply') :
    (T'.rowsOf e.name).Perm (rows ++ T.rowsOf e.name) := by
  induction h with
  | done => exact .refl _
  | stored _ _ _ hgains _ ih =>
    exact ih.trans ((hgains.rowsOf.append_left _).trans List.perm_middle)
  | skipped _ _ _ _ _ ih => exact ih

/-- No other table is touched. -/
theorem get?_of_ne (h : e.Inserts skip T supply batch rows T' supply') {n : String}
    (hn : n ≠ e.name) : T'.get? n = T.get? n := by
  induction h with
  | done => rfl
  | stored _ _ _ hgains _ ih =>
    obtain ⟨-, -, -, -, -, -, -, -, -, -, hother⟩ := hgains
    exact ih.trans (hother n hn)
  | skipped _ _ _ _ _ ih => exact ih

/-- Where nothing may be skipped, every entry has its row. -/
theorem length_eq (h : e.Inserts skip T supply batch rows T' supply') (hskip : skip = false) :
    rows.length = batch.length := by
  induction h with
  | done => rfl
  | stored _ _ _ _ _ ih => rw [List.length_cons, List.length_cons, ih]
  | skipped htrue => cases htrue.symm.trans hskip

end Entity.Inserts

/-- The rows are those of the batch of a query, which was inserted since. -/
def Work.Filled (w₀ : Work) (e : Entity) (q : Query) (rows : List Row) (w : Work) : Prop :=
  e.Inserts q.skipDuplicates w₀.tables w₀.supply (q.data.elim [] Data.rows) rows w.tables w.supply

namespace Operation
variable {s : Schema} {κ : String → String → NumberClass} {e : Entity} {data : WriteData} {row : Row}

/-- The row that is there under the key is what is read. -/
theorem keeps_reread_found {I : Work → Prop} {key : Key} (hfound : ∀ w, I w → ∀ t,
    w.tables.get? e.name = some t → t.get? key = some row) :
    Keeps I (reread s e key) (· = row) Error.Other := by
  refine Keeps.bind (R := (· = some row)) (Keeps.look fun w hw => ?_) fun found hrow => ?_
  · exact .bind (View.table_other _ e) fun t ht => .pure (hfound w hw t ht)
  · subst hrow
    exact Keeps.pure rfl

/-- That another operation than a colliding creation is at fault, where such creations are skipped. -/
theorem other_skipDuplicate (creation : Operation Row) :
    Triple (fun _ => True) (skipDuplicate true creation) (fun _ _ => True) fun err _ => err.Other := by
  intro w _
  rw [run_skipDuplicate]
  cases creation.run w with
  | ok row w' => trivial
  | error err w' =>
    cases err with
    | uniqueViolation n fields => trivial
    | _ => exact nofun

section
variable (he : s.entity? e.name = some e)
include he

theorem addRow_greedy (w₀ : Work) (hholds : s.Holds κ w₀.tables) (hrow : row.Within (κ e.name)) :
    Triple (· = w₀) (addRow e row)
      (fun key w => key = e.keyOf row ∧ ¬ w₀.tables.Collides e row ∧
        w₀.tables.Gains e.name row w.tables ∧ s.Holds κ w.tables ∧ w.supply = w₀.supply)
      fun err w => err.Other ∨ w = w₀ ∧ w₀.tables.Collides e row := by
  refine Triple.get fun w hw => ?_
  subst hw
  have hadd := hholds.yields_add he hrow w.transaction
  refine Triple.bind (Triple.settle (Q := fun key w' => key = e.keyOf row ∧
      ¬ w.tables.Collides e row ∧ w.tables.Gains e.name row w'.tables ∧ s.Holds κ w'.tables ∧
        w'.supply = w.supply)
    (hadd.mono (fun _ h => ⟨h.1, h.2.1, h.2.2.1, h.2.2.2, rfl⟩) fun _ h => h.imp_right fun h => ⟨rfl, h⟩))
    fun key => ?_
  exact Triple.bind (R := fun _ w' => key = e.keyOf row ∧ ¬ w.tables.Collides e row ∧
    w.tables.Gains e.name row w'.tables ∧ s.Holds κ w'.tables ∧ w'.supply = w.supply)
    (Triple.modify fun _ h => h) fun _ => Triple.pure fun _ h => h

variable (hs : s.Resolved) (hkinds : s.KeysOfKinds)
include hs hkinds

/-- The numbers of a draft keep to the classes of their columns. -/
theorem keeps_draft {T : Tables} (hholds : s.Holds κ T) (data : WriteData) :
    Keeps (fun w => s.Holds κ w.tables) (draft s e data) (fun row => row.Within (κ e.name))
      fun _ => True := by
  have hV := s.admits_within hs hkinds hholds.classes
  have hI := sustains_upholds hs hV (s.upholds_holds κ)
  refine Keeps.bind (carries_createFields hs hV hI he (.empty hV.null) data.fields) fun row hrow => ?_
  refine Keeps.andThen (carries_checkForeignKeys hs hI.toSees e _ _) fun _ => ?_
  exact carries_fillDefaults hV.toSupplies hI.supplied he hrow

/-- One creation of a batch. -/
theorem create_inserts (hplain : data.writesRelations = false) {w₀ : Work}
    (hholds : s.Holds κ w₀.tables) (skip : Bool) :
    Triple (· = w₀) (create s e ∅ data)
      (fun row w => s.Holds κ w.tables ∧
        e.Inserts skip w₀.tables w₀.supply [data] [row] w.tables w.supply)
      fun err w => err.Other ∨ s.Holds κ w.tables ∧
        (skip = true → e.Inserts skip w₀.tables w₀.supply [data] [] w.tables w.supply) := by
  rw [create_of_plain hplain]
  have hdraft := (draft_drafts hs he hplain w₀).and (keeps_draft he hs hkinds hholds data)
  refine Triple.bind (Triple.mono hdraft (fun w hw => ⟨hw, by rwa [hw]⟩) (fun _ _ h => h)
    fun _ _ h => .inl h.1.2) fun row => Triple.of_eq fun w hw => ?_
  obtain ⟨⟨⟨next, hnext, rfl⟩, hdrafts⟩, -, hrow⟩ := hw
  refine Triple.bind (Triple.mono (addRow_greedy he { w₀ with supply := next } hholds hrow)
    (fun _ h => h) (fun _ _ h => h) fun err w herr => ?_) fun key => Triple.of_eq fun w hw => ?_
  · refine herr.imp_right fun htaken => ?_
    obtain ⟨rfl, htaken⟩ := htaken
    exact ⟨hholds, fun hskip => .skipped hskip hdrafts hnext htaken .done⟩
  · obtain ⟨rfl, hfree, hgains, hholds', hsupply⟩ := hw
    have hsame : Keeps (· = w) (reread s e (e.keyOf row)) (· = row) Error.Other := by
      refine keeps_reread_found fun w' hw' t ht => ?_
      subst hw'
      obtain ⟨-, t', -, -, -, ht', -, -, -, hfound, -⟩ := hgains
      cases ht.symm.trans ht'
      rwa [hholds'.tableDef he ht] at hfound
    refine Triple.mono hsame (fun _ h => h) (fun found w' h => ?_) fun _ _ h => .inl h.2
    obtain ⟨rfl, rfl⟩ := h
    exact ⟨hholds', .stored hdrafts hnext hfree hgains (by rw [hsupply]; exact .done)⟩

/-- One entry of a batch. -/
theorem skipDuplicate_inserts (hplain : data.writesRelations = false) {w₀ : Work}
    (hholds : s.Holds κ w₀.tables) (skip : Bool) :
    Triple (· = w₀) (skipDuplicate skip (create s e ∅ data))
      (fun made w => s.Holds κ w.tables ∧
        e.Inserts skip w₀.tables w₀.supply [data] made.toList w.tables w.supply)
      fun err _ => skip = true → err.Other := by
  have hinserts : Triple (· = w₀) (skipDuplicate skip (create s e ∅ data))
      (fun made w => s.Holds κ w.tables ∧
        e.Inserts skip w₀.tables w₀.supply [data] made.toList w.tables w.supply) _ :=
    Triple.skipDuplicate skip (create_inserts he hs hkinds hplain hholds skip) (fun _ _ h => h)
      fun hskip n fields w herr => ?_
  · cases skip with
    | false => exact Triple.mono hinserts (fun _ h => h) (fun _ _ h => h) fun _ _ _ => nofun
    | true =>
      exact (hinserts.and (other_skipDuplicate _)).mono (fun _ h => ⟨h, trivial⟩) (fun _ _ h => h.1)
        fun _ _ h _ => h.2
  · rcases herr with hother | ⟨hholds', hskipped⟩
    · exact absurd rfl (hother n fields)
    · exact ⟨hholds', hskipped hskip⟩

/-- The entries of a batch one after the other. -/
theorem insertBatch_inserts {q : Query} {w₀ : Work} (hholds : s.Holds κ w₀.tables) :
    Triple (· = w₀) (insertBatch s e q) (w₀.Filled e q)
      fun err _ => q.skipDuplicates = true → err.Other := by
  have hentry (data : WriteData) {w : Work} (hw : s.Holds κ w.tables) :
      Triple (· = w) (if data.writesRelations then throw (.invalidQuery .batchWithRelations)
        else skipDuplicate q.skipDuplicates (create s e ∅ data))
      (fun made w' => s.Holds κ w'.tables ∧
        e.Inserts q.skipDuplicates w.tables w.supply [data] made.toList w'.tables w'.supply)
      fun err _ => q.skipDuplicates = true → err.Other :=
    .ite (fun _ => .throw fun _ _ _ => nofun) fun hplain =>
      skipDuplicate_inserts he hs hkinds (by simpa using hplain) hw _
  have hbatch (batch : List WriteData) {w : Work} (hw : s.Holds κ w.tables) :
      Triple (· = w) (batch.mapM fun data =>
        if data.writesRelations then throw (.invalidQuery .batchWithRelations)
        else skipDuplicate q.skipDuplicates (create s e ∅ data))
      (fun made w' => e.Inserts q.skipDuplicates w.tables w.supply batch (made.filterMap id) w'.tables
        w'.supply)
      fun err _ => q.skipDuplicates = true → err.Other := by
    induction batch generalizing w with
    | nil =>
      refine Triple.pure fun w' hw' => ?_
      subst hw'
      exact .done
    | cons data rest ih =>
      rw [List.mapM_cons]
      refine Triple.bind (hentry data hw) fun made => Triple.of_eq fun w₁ hmade => ?_
      obtain ⟨hholds₁, hfirst⟩ := hmade
      refine Triple.bind (ih hholds₁) fun more => Triple.pure fun w' hmore => ?_
      have hall := hfirst.append hmore
      cases made <;> exact hall
  unfold insertBatch Work.Filled
  cases q.data with
  | none => exact Triple.throw fun _ _ _ => nofun
  | some data =>
    simp only [pure_bind]
    exact Triple.bind (hbatch data.rows hholds) fun made => Triple.pure fun _ h => h

/-- The answer is how many rows there are. -/
theorem createMany_fills {q : Query} {w₀ : Work} (hholds : s.Holds κ w₀.tables) :
    Triple (· = w₀) ((Request.createMany q).operation s e)
      (fun n w => ∃ rows, rows.length = n ∧ w₀.Filled e q rows w)
      fun err _ => q.skipDuplicates = true → err.Other :=
  Triple.bind (insertBatch_inserts he hs hkinds hholds) fun rows =>
    Triple.pure fun _ h => ⟨rows, rfl, h⟩

/-- The answer are the rows, as they are read afterwards. -/
theorem createManyAndReturn_fills {q : Query} {w₀ : Work} (hholds : s.Holds κ w₀.tables) :
    Triple (· = w₀) ((Request.createManyAndReturn q).operation s e)
      (fun records w => ∃ rows, w₀.Filled e q rows w ∧
        View.attach ⟨s, w.tables, w.transaction⟩ e rows q = .ok records)
      fun _ _ => True :=
  Triple.bind (Triple.mono (insertBatch_inserts he hs hkinds hholds) (fun _ h => h) (fun _ _ h => h)
    fun _ _ _ => trivial) fun rows => Triple.look fun _ hw => .of_ok (fun _ h => ⟨rows, hw, h⟩)
      fun _ _ => trivial

end

end Operation

/-! ### The requests -/

namespace Client
variable {c : Client} {α : Type}

theorem run_error {tx : Transaction} {op : Operation α} {err : Error} {c' : Client}
    (h : c.run tx op = (.error err, c')) :
    ∃ w, op.run ⟨c.store.tables, tx, c.supply, [], []⟩ = .error err w := by
  unfold run at h
  simp only at h
  split at h
  · cases h
  · next w hrun =>
    cases h
    exact ⟨w, hrun⟩

/-- A request to an entity ends as its operation does, or its transaction cannot be begun or
committed. -/
theorem yields_ask_entity {Q : α → Prop} {E : Error → Prop} (hstore : ∀ err, err.OfStore → E err)
    {entity : String} {e : Entity} (he : c.schema.entity? entity = some e) {r : Request α}
    (hop : ∀ t, Triple (· = ⟨c.store.tables, t, c.supply, [], []⟩) (r.operation c.schema e)
      (fun a _ => Q a) fun err _ => E err) (tx : Option Nat) :
    Yields (c.ask entity r tx).result Q E := by
  have hdone {d : Client} (htables : d.store.tables = c.store.tables) (hsupply : d.supply = c.supply)
      {t : Transaction} {a : α} {changes : List Change} {d' : Client}
      (h : d.run t (r.operation c.schema e) = (.ok (a, changes), d')) : Q a := by
    obtain ⟨w, hran, -⟩ := run_ok h
    have hoperation := hop t _ rfl
    rwa [← htables, ← hsupply, hran] at hoperation
  have hrun {d : Client} (htables : d.store.tables = c.store.tables) (hsupply : d.supply = c.supply)
      {t : Transaction} {err : Error} {d' : Client}
      (h : d.run t (r.operation c.schema e) = (.error err, d')) : E err := by
    obtain ⟨w, hfailed⟩ := run_error h
    have hoperation := hop t _ rfl
    rwa [← htables, ← hsupply, hfailed] at hoperation
  have hrequire : c.schema.require entity = .ok e := Option.elim_ok_eq_ok.2 he
  simp only [ask, hrequire]
  cases tx with
  | some id =>
    have hruns := c.runsIn id (r.operation c.schema e)
    simp only
    generalize c.runIn id (r.operation c.schema e) = o at hruns ⊢
    cases hruns with
    | missing => exact .error (hstore _ .inactive)
    | failed _ h => exact .error (hrun rfl rfl h)
    | done _ h => exact .ok (hdone rfl rfl h)
  | none =>
    simp only
    generalize c.schema.neededTables e r.query r.access = names
    generalize (if r.access.writes then TransactionMode.readWrite else .readOnly) = mode
    have hruns := c.runsAlone names mode (r.operation c.schema e)
    generalize c.runAlone names mode (r.operation c.schema e) = o at hruns ⊢
    cases hruns with
    | @refused err hb =>
      refine .error (hstore err ?_)
      have hlocks := Store.acquire_fails (s := c.store) mode (SortedSet.ofList names).keys
      cases ha : c.store.acquire mode (SortedSet.ofList names).keys with
      | ok u => simp [Store.beginTransaction, ha, bind, Except.bind, pure, Except.pure] at hb
      | error err' =>
        rw [ha] at hlocks
        simp only [Store.beginTransaction, ha] at hb
        cases hb
        exact hlocks
    | missing => exact .error (hstore _ .inactive)
    | @failed _ store _ _ _ hb _ h =>
      have hbegun : store.tables = c.store.tables := by rw [(Store.beginTransaction_ok hb).2.2]
      exact .error (hrun (d := c.withStore store) hbegun rfl h)
    | @uncommitted id _ _ _ _ c' _ _ _ _ hcommit =>
      have hfails := Store.commit_fails (s := c'.store) id
      rw [hcommit] at hfails
      exact .error (hstore _ hfails)
    | @done _ store _ _ _ _ hb _ h =>
      have hbegun : store.tables = c.store.tables := by rw [(Store.beginTransaction_ok hb).2.2]
      exact .ok (hdone (d := c.withStore store) hbegun rfl h)

/-- A request fails as its operation does, or as its transaction cannot be begun or committed. -/
theorem yields_ask {E : Error → Prop} (hstore : ∀ err, err.OfStore → E err) {entity : String}
    (hunknown : E (.unknownEntity entity)) {r : Request α}
    (hop : ∀ e t, c.schema.entity? entity = some e →
      Triple (· = ⟨c.store.tables, t, c.supply, [], []⟩) (r.operation c.schema e) (fun _ _ => True)
        fun err _ => E err) (tx : Option Nat) :
    Yields (c.ask entity r tx).result (fun _ => True) E := by
  cases he : c.schema.entity? entity with
  | some e => exact yields_ask_entity hstore he (fun t => hop e t he) tx
  | none =>
    have hrequire : c.schema.require entity = .error (.unknownEntity entity) := by
      rw [Schema.require, he]
      rfl
    rw [ask, hrequire]
    exact .error hunknown

end Client

/-- What a batch does to a client: its rows are those of the greedy insertion, they are what the table
has more than before, and nothing else is changed. Where nothing may be skipped, each entry has its
row. -/
structure Client.Fills (c : Client) (e : Entity) (q : Query) (rows : List Row) (c' : Client) :
    Prop where
  inserts : e.Inserts q.skipDuplicates c.store.tables c.supply (q.data.elim [] Data.rows) rows
    c'.store.tables c'.supply
  grown : (c'.store.tables.rowsOf e.name).Perm (rows ++ c.store.tables.rowsOf e.name)
  others : ∀ n, n ≠ e.name → c'.store.tables.get? n = c.store.tables.get? n
  all : q.skipDuplicates = false → rows.length = (q.data.elim [] Data.rows).length

theorem Client.Left.fills {c c' : Client} {e : Entity} {q : Query} {rows : List Row} {w : Work}
    {t : Transaction} (h : c.Left w c')
    (hinserts : Work.Filled ⟨c.store.tables, t, c.supply, [], []⟩ e q rows w) :
    c.Fills e q rows c' := by
  unfold Work.Filled at hinserts
  rw [← h.tables, ← h.supply] at hinserts
  exact ⟨hinserts, hinserts.perm, fun n hn => hinserts.get?_of_ne hn, hinserts.length_eq⟩

/-- Whatever was done before with a client of such a schema, in whose columns there are numbers of one
class each: a batch that is answered was inserted greedily, from left to right. The answer is how many
rows were stored, or these rows in the order of their entries. Where colliding entries are skipped, no
unique constraint is ever violated. -/
theorem Client.ask_createMany_inserts {defs : List EntityDef} {s : Schema}
    (hs : Schema.ofDefs defs = .ok s) (hkinds : s.KeysOfKinds) {c₀ : Client} (hc₀ : c₀.Opened s)
    {κ : String → String → NumberClass} (hholds : s.Holds κ c₀.store.tables) {before : List Action}
    (hbefore : ∀ a ∈ before, a.Regular κ c₀.store.tables) {entity : String} {e : Entity}
    (he : s.entity? entity = some e) (q : Query) (tx : Option Nat) :
    let c := before.foldl after c₀
    let counted := c.ask entity (.createMany q) tx
    let returned := c.ask entity (.createManyAndReturn q) tx
    (∀ n, counted.result = .ok n → ∃ rows, rows.length = n ∧ c.Fills e q rows counted.client) ∧
    (∀ records, returned.result = .ok records → ∃ rows v, c.Fills e q rows returned.client ∧
      v.schema = s ∧ v.tables = returned.client.store.tables ∧
      List.Forall₂ (fun row record => View.record v e q row = .ok record) rows records) ∧
    (q.skipDuplicates = true → ∀ err, counted.result = .error err → err.Other) := by
  have hresolved := Schema.Resolved.ofDefs hs
  obtain rfl := hresolved.name he
  intro c counted returned
  obtain ⟨hschema, hnow⟩ := holds_foldl hresolved hkinds hc₀ hholds hbefore
  change c.schema = s at hschema
  refine ⟨fun n hn => ?_, fun records hrecords => ?_, fun hskip err herr => ?_⟩
  · obtain ⟨e', t, w, he', hrun, -, hleft⟩ := ask_answered hn
    rw [hschema] at he' hrun
    cases he.symm.trans he'
    obtain ⟨rows, hlength, hrows⟩ :=
      Triple.of_run hrun (createMany_fills he hresolved hkinds hnow)
    exact ⟨rows, hlength, hleft.fills hrows⟩
  · obtain ⟨e', t, w, he', hrun, -, hleft⟩ := ask_answered hrecords
    rw [hschema] at he' hrun
    cases he.symm.trans he'
    obtain ⟨rows, hrows, hattached⟩ :=
      Triple.of_run hrun (createManyAndReturn_fills he hresolved hkinds hnow)
    exact ⟨rows, _, hleft.fills hrows, rfl, hleft.tables.symm, (View.attach_eq_ok.1 hattached).2⟩
  · have hunknown : (Error.unknownEntity e.name).Other := nofun
    have hother := yields_ask (c := c) (r := .createMany q)
      (fun err herr => by cases herr <;> exact nofun) hunknown (fun e' t he' => ?_) tx
    · rw [herr] at hother
      exact hother
    · rw [hschema] at he' ⊢
      cases he.symm.trans he'
      refine Triple.of_eq fun w hw => ?_
      subst hw
      exact Triple.mono (createMany_fills he hresolved hkinds hnow) (fun _ h => h)
        (fun _ _ _ => trivial) fun _ _ h => h hskip

/-! ### A party -/

/-- Guests with an address of their own and, if they have one, a seat of their own. -/
def EntityDef.party : List EntityDef :=
  [{ name := "guest",
     fields := [{ name := "id", kind := .int, id := true, default := some .autoIncrement },
       { name := "email", kind := .string, unique := true }, { name := "side", kind := .string },
       { name := "seat", kind := .int }],
     uniqueGroups := [["side", "seat"]] }]

/-- A batch of which colliding entries are skipped. -/
def Query.skipping (batch : List (List (String × Json))) : Query where
  data := some (.many (batch.map fun fields => ⟨fields.map fun p => (p.1, .literal p.2)⟩))
  skipDuplicates := true

namespace Client

/-- A guest who sits at the left. -/
def invite : List Action :=
  [.ask "guest" (.create (.ofFields [("email", .string "ada"), ("side", .string "left"),
     ("seat", .int 1)])) none]

/-- A guest with another seat, that guest again, two without an address or a seat, and one for a seat
that is taken. -/
def inviteMore : Query :=
  .skipping [[("email", .string "bob"), ("side", .string "left"), ("seat", .int 2)],
    [("email", .string "bob")], [("side", .string "left")], [("side", .string "left")],
    [("email", .string "cyd"), ("side", .string "left"), ("seat", .int 1)]]

theorem ask_createMany_inserts_party : ∃ (c₀ : Client) (e : Entity) (rows : List Row),
    Schema.ofDefs EntityDef.party = .ok c₀.schema ∧ c₀.schema.KeysOfKinds ∧ c₀.Opened c₀.schema ∧
      c₀.schema.Holds c₀.schema.classes c₀.store.tables ∧
      (∀ a ∈ invite, a.Regular c₀.schema.classes c₀.store.tables) ∧
      c₀.schema.entity? "guest" = some e ∧
      let c := invite.foldl after c₀
      let left := c.ask "guest" (.createMany inviteMore) none
      left.result = .ok 3 ∧ rows.length = 3 ∧ c.Fills e inviteMore rows left.client ∧
        c.keyTexts "guest" = ["1"] ∧ left.client.keyTexts "guest" = ["1", "2", "3", "4"] := by
  have hruns : (openMemory EntityDef.party).toOption.any fun c₀ =>
      let c := invite.foldl after c₀
      let left := c.ask "guest" (.createMany inviteMore) none
      c₀.schema.KeysOfKinds ∧ (c₀.schema.entity? "guest").isSome ∧
        left.result.toOption = some 3 ∧ c.keyTexts "guest" = ["1"] ∧
          left.client.keyTexts "guest" = ["1", "2", "3", "4"] := by
    decide +kernel
  obtain ⟨c₀, hs, hc₀, hholds, hkinds, he, hthree, hfirst, hafter⟩ := exists_openMemory hruns
  obtain ⟨e, he⟩ := Option.isSome_iff_exists.1 he
  have hregular : ∀ a ∈ invite, a.Regular c₀.schema.classes c₀.store.tables := by
    intro a ha
    simp only [invite, List.mem_singleton] at ha
    subst ha
    exact ⟨_, .inl .create⟩
  have hthree := Except.toOption_eq_some.1 hthree
  obtain ⟨rows, hlength, hfills⟩ :=
    (ask_createMany_inserts hs hkinds hc₀ hholds hregular he inviteMore none).1 3 hthree
  exact ⟨c₀, e, rows, hs, hkinds, hc₀, hholds, hregular, he, hthree, hlength, hfills, hfirst, hafter⟩

end Client

/-- Totals by number. -/
def EntityDef.totals : List EntityDef :=
  [{ name := "total", fields := [{ name := "id", kind := .bigint, id := true }] }]

/-- Wholes and shares by numbers of other kinds, and items that have the size of one of each. -/
def EntityDef.sizes : List EntityDef :=
  [{ name := "whole", fields := [{ name := "id", kind := .int, id := true }] },
   { name := "share", fields := [{ name := "id", kind := .decimal, id := true }] },
   { name := "item",
     fields := [{ name := "id", kind := .int, id := true },
       { name := "size", kind := .bigint, unique := true }],
     relations := [.owning "whole" "whole" ["size"] ["id"],
       .owning "share" "share" ["size"] ["id"]] }]

namespace Client

/-- Two totals that are put past the engine, under numbers of other kinds. -/
def total : List Action :=
  [.begin ["total"] .readWrite, .add 1 "total" (SortedMap.ofList [("id", .int (crowded + 1))]),
   .add 1 "total" (SortedMap.ofList [("id", .decimal (.ofInt (crowded + 2)))]), .commit 1]

/-- Creates an item that is connected to something. -/
def sizeItem (id : Int) (relation : String) (other : Json) : Action :=
  .ask "item" (.create { data := some (.one ⟨[("id", .literal (.int id)), (relation, .relation
    { connect := [Filter.whereEquals {} "id" other] })]⟩) }) none

/-- Two items with sizes of other kinds, which come from what they are connected to. -/
def measureItems : List Action :=
  [.ask "whole" (.create (.ofFields [("id", .int crowded)])) none,
   .ask "whole" (.create (.ofFields [("id", .int (crowded + 1))])) none,
   .ask "share" (.create (.ofFields [("id", .string (toString (crowded + 2)))])) none,
   sizeItem 1 "whole" (.int (crowded + 1)), sizeItem 2 "share" (.string (toString (crowded + 2)))]

/-- A row has the big integer in the field, and still the one entry of the batch is stored. -/
def Overlooks (c : Client) (entity field : String) (n : Int) (batch : Query) : Prop :=
  (∃ old ∈ c.store.tables.rowsOf entity,
    compare (⟨[.bigint n]⟩ : Key) (Key.ofRow [field] old) = .eq) ∧
  (c.ask entity (.createMany batch) none).result.toOption = some 1

instance (c : Client) (entity field : String) (n : Int) (batch : Query) :
    Decidable (c.Overlooks entity field n batch) := by
  unfold Overlooks
  infer_instance

/-- Where numbers of several kinds are in one column, put past the engine or taken over from what a row
is connected to, a row that has the key or the unique value of an entry can be overlooked. -/
theorem ask_createMany_overlooks :
    (∃ c₀ : Client, Schema.ofDefs EntityDef.totals = .ok c₀.schema ∧ c₀.Opened c₀.schema ∧
      c₀.schema.Holds c₀.schema.classes c₀.store.tables ∧ c₀.schema.KeysOfKinds ∧
      (total.foldl after c₀).Overlooks "total" "id" crowded
        (.skipping [[("id", .int crowded)]])) ∧
    ∃ c₀ : Client, Schema.ofDefs EntityDef.sizes = .ok c₀.schema ∧ c₀.Opened c₀.schema ∧
      c₀.schema.Holds c₀.schema.classes c₀.store.tables ∧
      (measureItems.foldl after c₀).Overlooks "item" "size" crowded
        (.skipping [[("id", .int 3), ("size", .int crowded)]]) :=
  ⟨exists_openMemory (by decide +kernel), exists_openMemory (by decide +kernel)⟩

end Client

end RelationalStore

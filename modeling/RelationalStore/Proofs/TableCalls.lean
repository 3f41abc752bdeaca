import RelationalStore.Proofs.TableIndexes
import RelationalStore.Proofs.OperationTriple

/- Tables that are written by calls of `add`, `put` and `delete` alone. From the table without rows
   on, every call keeps rows and indexes in step and unique indexes unique, whether it succeeds or
   fails. A call is run part by part on a table that its parts change in place, so what it had
   changed when it failed would stay; that there is no such change is `Table.Action.run_add` and
   `run_put`. Keys are stored exactly as the row has them: `put` takes the row that is there out
   before it stores the new one, so a key that is written in another way replaces the old form. -/
namespace RelationalStore
open SortedMap

variable {κ : String → NumberClass}

/-! ### What holds at all times -/

/-- An index has one entry for each value of a row, and in it exactly the keys of the rows with
that value. -/
structure Index.Exact (rows : List (Key × Row)) (i : Index) : Prop where
  values : i.entries.keys.Pairwise fun a b => compare a b = .lt
  keys : ∀ e ∈ i.entries.entries, e.2.keys.Pairwise fun a b => compare a b = .lt
  nonempty : ∀ e ∈ i.entries.entries, e.2.keys ≠ []
  owners : ∀ e ∈ i.entries.entries, ∀ k : Key,
    k ∈ e.2.keys ↔ ∃ row, (k, row) ∈ rows ∧ i.definition.Holds row e.1
  entered : ∀ k row, (k, row) ∈ rows → (Key.ofRow i.definition.fields row).hasNull = false →
    ∃ e ∈ i.entries.entries, i.definition.Holds row e.1

namespace Table

/-- Two rows that share a value of a unique index are one row. -/
def Unique (t : Table) : Prop :=
  ∀ i ∈ t.definition.indexes, i.unique = true → ∀ a ∈ t.rows.entries, ∀ b ∈ t.rows.entries,
    (Key.ofRow i.fields a.2).hasNull = false → i.Holds b.2 (Key.ofRow i.fields a.2) → a = b

/-- What a table of the definition is like between two calls. -/
structure Consistent (d : TableDef) (t : Table) : Prop where
  definition : t.definition = d
  definitions : t.indexes.map (·.definition) = d.indexes
  rows : t.rows.keys.Pairwise fun a b => compare a b = .lt
  stored : ∀ e ∈ t.rows.entries, e.1 = t.keyOf e.2 ∧ e.1.hasNull = false
  indexes : ∀ i ∈ t.indexes, i.Exact t.rows.entries
  unique : t.Unique

end Table

theorem SortedMap.InOrder.keys_sorted {α β : Type} [Ord α] {P : α → Prop} {m : SortedMap α β}
    (h : InOrder P m.entries) : m.keys.Pairwise fun a b => compare a b = .lt :=
  List.pairwise_map.2 h.sorted

theorem Index.Sound.exact {path : List String} {rows : List (Key × Row)} {i : Index}
    (h : i.Sound κ path rows) (hrows : ∀ e ∈ rows, e.2.Fits κ i.definition.fields) :
    i.Exact rows where
  values := h.values.keys_sorted
  keys e he := (h.keys e he).keys_sorted
  nonempty := by
    intro e he hk
    exact h.nonempty e he (List.map_eq_nil_iff.1 hk)
  owners := by
    intro e he k
    rw [← h.owners e.1 (h.values.keys e he) k, h.keysAt_of_mem he]
  entered := by
    intro k row hm hn
    have hfits : (Key.ofRow i.definition.fields row).Fits κ i.definition.fields := (hrows _ hm).key
    have hk := (h.owners _ hfits k).2 ⟨row, hm, hn, Std.ReflOrd.compare_self⟩
    simp only [Index.keysAt] at hk
    cases hg : i.entries.get? (Key.ofRow i.definition.fields row) with
    | none => simp [hg] at hk
    | some keys =>
      obtain ⟨e, he, -, hc⟩ := h.toTidy.mem_of_get? hg
      exact ⟨e, he, hn, Std.OrientedCmp.eq_symm hc⟩

/-! ### Calls, part by part -/

theorem SortedMap.erase_of_get?_none {α β : Type} [Ord α] {m : SortedMap α β} {k : α}
    (h : m.get? k = none) : m.erase k = m := by
  obtain ⟨entries⟩ := m
  rw [get?, Option.map_eq_none_iff] at h
  refine congrArg SortedMap.mk ?_
  induction entries with
  | nil => rfl
  | cons e rest ih =>
    simp only [entryAt?] at h
    simp only [eraseEntry]
    split at h
    · rfl
    · cases h
    · rw [ih h]

/-- A part of a call. It changes the table in place, and one that fails keeps what it changed
before. -/
abbrev Table.Action (α : Type) := EStateM Error Table α

namespace Table.Action
variable {α β : Type} {t : Table} {test : Table → Except Error α}

/-- A check of the table as it is now. -/
def check (test : Table → Except Error α) : Table.Action α := do
  MonadExcept.ofExcept (test (← get))

/-- Takes the row under a key from the rows, if there is one. -/
def take (key : Key) : Table.Action (Option Row) :=
  modifyGet fun t => (t.get? key, { t with rows := t.rows.erase key })

/-- Takes the entries of a row out of the indexes. -/
def unindex (key : Key) (row : Row) : Table.Action Unit :=
  modify fun t => { t with indexes := t.indexes.map (·.withdraw key row) }

/-- Enters a row in the indexes. -/
def index (key : Key) (row : Row) : Table.Action Unit :=
  modify fun t => { t with indexes := t.indexes.map (·.enter key row) }

/-- Puts a row among the rows. -/
def place (key : Key) (row : Row) : Table.Action Unit :=
  modify fun t => { t with rows := t.rows.insert key row }

/-- Stores a new row. -/
def add (row : Row) : Table.Action Key := do
  let key ← check (·.requireKey row)
  let t ← get
  if t.rows.contains key then
    throw (.uniqueViolation t.name t.definition.keyPath)
  check (·.checkUnique key row)
  index key row
  place key row
  return key

/-- Removes the row under a key and gives it back. -/
def delete (key : Key) : Table.Action (Option Row) := do
  match ← take key with
  | some old =>
    unindex key old
    return some old
  | none => return none

/-- Stores a row, in place of the one with its key if there is one. -/
def put (row : Row) : Table.Action Key := do
  let key ← check (·.requireKey row)
  check (·.checkUnique key row)
  let _ ← delete key
  index key row
  place key row
  return key

/-- The outcome of a call that leaves the table as it is where it fails. -/
def settled (t : Table) : Except Error (α × Table) → EStateM.Result Error Table α
  | .ok (a, next) => .ok a next
  | .error e => .error e t

/-- A check that fails ends the call before it changes anything. -/
theorem run_check_bind {f : α → Table.Action β} {g : α → Except Error (β × Table)}
    (h : ∀ a, (f a).run t = settled t (g a)) :
    (check test >>= f).run t = settled t (test t >>= g) := by
  have hcheck : (check test).run t = (MonadExcept.ofExcept (test t) : Table.Action α).run t := by
    rw [check, EStateM.run_bind, EStateM.run_get]
  rw [EStateM.run_bind, hcheck]
  cases test t with
  | ok a => exact h a
  | error e => rfl

/-- To delete a row is to take it from the rows and from the indexes. -/
theorem run_delete (t : Table) (key : Key) :
    (delete key).run t = .ok (t.get? key) (t.remove key) := by
  rw [delete, EStateM.run_bind, take, EStateM.run_modifyGet, Table.remove]
  cases hg : t.get? key with
  | some old => rfl
  | none =>
    show EStateM.Result.ok none { t with rows := t.rows.erase key } = .ok none t
    rw [SortedMap.erase_of_get?_none hg]

/-- A row is stored only when every check is passed. -/
theorem run_add (t : Table) (row : Row) : (add row).run t = settled t (t.add row) := by
  refine run_check_bind fun key => ?_
  rw [EStateM.run_bind, EStateM.run_get]
  by_cases hc : t.rows.contains key
  · simp only [hc, if_true]
    rfl
  · simp only [hc]
    exact run_check_bind fun _ => rfl

theorem run_put (t : Table) (row : Row) : (put row).run t = settled t (t.put row) := by
  refine run_check_bind fun key => run_check_bind fun _ => ?_
  rw [EStateM.run_bind, run_delete]
  rfl

end Table.Action

/-! ### Calls -/

/-- A call that writes to a table. -/
inductive Table.Call where
  | add (row : Row)
  | put (row : Row)
  | delete (key : Key)

namespace Table.Call

/-- The table that a call makes of another, or the error it fails with. -/
def perform (t : Table) : Call → Except Error Table
  | .add row => (t.add row).map (·.2)
  | .put row => (t.put row).map (·.2)
  | .delete key => .ok (t.delete key).2

/-- The same call, part by part. -/
def action : Call → Table.Action Unit
  | .add row => do let _ ← Action.add row
  | .put row => do let _ ← Action.put row
  | .delete key => do let _ ← Action.delete key

/-- The table after a call, with what the call changed before it failed if it did. -/
def after (t : Table) (c : Call) : Table :=
  match c.action.run t with
  | .ok _ next => next
  | .error _ next => next

/-- What the call writes or looks for keeps to the classes of the columns. -/
def Fits (κ : String → NumberClass) (d : TableDef) : Call → Prop
  | .add row => row.Fits κ d.columns
  | .put row => row.Fits κ d.columns
  | .delete key => ∀ p ∈ d.keyPath.zip key.parts, p.2.within (κ p.1)

/-- The values in the columns of keys are null or of the kind of their column. -/
def OfKinds (kinds : String → ScalarKind) (d : TableDef) : Call → Prop
  | .add row => ∀ c ∈ d.columns, (row.value c).isOf (kinds c)
  | .put row => ∀ c ∈ d.columns, (row.value c).isOf (kinds c)
  | .delete key => ∀ p ∈ d.keyPath.zip key.parts, p.2.isOf (kinds p.1)

theorem OfKinds.fits {kinds : String → ScalarKind} {d : TableDef} {c : Call}
    (h : c.OfKinds kinds d) : c.Fits (fun column => (kinds column).numbers) d := by
  cases c with
  | add row => exact fun c hc => Value.within_of_isOf (h c hc)
  | put row => exact fun c hc => Value.within_of_isOf (h c hc)
  | delete key => exact fun p hp => Value.within_of_isOf (h p hp)

end Table.Call

namespace Table
variable {t : Table} {key : Key} {row : Row}

/-- The invariant that the calls keep. -/
structure Kept (κ : String → NumberClass) (t : Table) : Prop extends Sound κ t where
  own : ∀ e ∈ t.rows.entries, e.1 = t.keyOf e.2
  unique : t.Unique

theorem requireKey_ok (h : t.requireKey row = .ok key) :
    key = t.keyOf row ∧ key.hasNull = false := by
  simp only [requireKey] at h
  split at h
  · cases h
  · next hn =>
    cases h
    exact ⟨rfl, by simpa using hn⟩

/-- A unique index has a value of the row under the row's own key only. -/
theorem checkUnique_ok (h : t.checkUnique key row = .ok ()) {i : Index} (hi : i ∈ t.indexes)
    (hu : i.definition.unique = true) {v : Key} (hv : i.valueOf? row = some v) :
    ∀ owner ∈ i.keysAt v, compare owner key = .eq := by
  simp only [checkUnique] at h
  split at h
  · cases h
  · next hnone =>
    have hfree := List.find?_eq_none.1 hnone i hi
    intro owner howner
    simp only [Index.isTaken, hu, hv, Option.any_some, Bool.true_and, Bool.not_eq_true,
      List.any_eq_false] at hfree
    simpa [Key.equiv_iff] using hfree owner howner

theorem add_ok {next : Table} (h : t.add row = .ok (key, next)) :
    key = t.keyOf row ∧ key.hasNull = false ∧ t.get? key = none ∧
      t.checkUnique key row = .ok () ∧ next = t.store key row := by
  obtain ⟨k, hk, h⟩ := Except.bind_eq_ok.1 h
  by_cases hc : t.rows.contains k
  · simp only [hc, if_true] at h
    cases h
  · simp only [hc] at h
    obtain ⟨⟨⟩, hq, h⟩ := Except.bind_eq_ok.1 h
    obtain ⟨rfl, rfl⟩ := Prod.mk.inj (Except.ok.inj h)
    obtain ⟨hown, hnull⟩ := requireKey_ok hk
    refine ⟨hown, hnull, ?_, hq, rfl⟩
    simpa [SortedMap.contains, get?, SortedMap.get?] using hc

theorem put_ok {next : Table} (h : t.put row = .ok (key, next)) :
    key = t.keyOf row ∧ key.hasNull = false ∧ t.checkUnique key row = .ok () ∧
      next = (t.remove key).store key row := by
  obtain ⟨k, hk, h⟩ := Except.bind_eq_ok.1 h
  obtain ⟨⟨⟩, hq, h⟩ := Except.bind_eq_ok.1 h
  obtain ⟨rfl, rfl⟩ := Prod.mk.inj (Except.ok.inj h)
  obtain ⟨hown, hnull⟩ := requireKey_ok hk
  exact ⟨hown, hnull, hq, rfl⟩

theorem keyOf_fits (hrow : row.Fits κ t.definition.columns) :
    (t.keyOf row).Fits κ t.definition.keyPath :=
  (hrow.mono TableDef.mem_columns_of_keyPath).key

/-- No stored row shares a value of a unique index with a row that passes the check and whose key
is free. -/
theorem Sound.alone_of_checkUnique (h : t.Sound κ) (hrow : row.Fits κ t.definition.columns)
    (hq : t.checkUnique key row = .ok ()) {i : IndexDef} (hi : i ∈ t.definition.indexes)
    (hu : i.unique = true) {e : Key × Row} (he : e ∈ t.rows.entries)
    (hn : (Key.ofRow i.fields row).hasNull = false)
    (hshare : i.Holds e.2 (Key.ofRow i.fields row)) : compare e.1 key = .eq := by
  rw [← h.definitions, List.mem_map] at hi
  obtain ⟨j, hj, rfl⟩ := hi
  have hv : j.valueOf? row = some (Key.ofRow j.definition.fields row) := by
    simp [Index.valueOf?, hn]
  apply checkUnique_ok hq hj hu hv e.1
  exact ((h.indexes j hj).owners _ (h.index_fits hj hrow).key e.1).2 ⟨e.2, he, hshare⟩

/-- No row of the table shares a value of a unique index with the row. -/
def Spares (t : Table) (row : Row) : Prop :=
  ∀ i ∈ t.definition.indexes, i.unique = true → ∀ e ∈ t.rows.entries,
    (Key.ofRow i.fields row).hasNull = false → ¬ i.Holds e.2 (Key.ofRow i.fields row)

theorem Sound.spares_of_free (h : t.Sound κ) (hkey : key.Fits κ t.definition.keyPath)
    (hrow : row.Fits κ t.definition.columns) (hfree : t.get? key = none)
    (hq : t.checkUnique key row = .ok ()) : t.Spares row := by
  intro i hi hu e he hn hshare
  have hsame := h.alone_of_checkUnique hrow hq hi hu he hn hshare
  exact (get?_none_iff h.rows hkey).1 hfree e he (Std.OrientedCmp.eq_symm hsame)

/-- The check lets a row share a value with the one that it replaces, and that one is taken out. -/
theorem Sound.spares_remove (h : t.Sound κ) (hkey : key.Fits κ t.definition.keyPath)
    (hrow : row.Fits κ t.definition.columns) (hq : t.checkUnique key row = .ok ()) :
    (t.remove key).Spares row := by
  intro i hi hu e he hn hshare
  rw [definition_remove] at hi
  obtain ⟨he, hne⟩ := (mem_remove h.rows hkey).1 he
  have hsame := h.alone_of_checkUnique hrow hq hi hu he hn hshare
  exact hne (Std.OrientedCmp.eq_symm hsame)

theorem Unique.remove (h : t.Unique) (key : Key) : (t.remove key).Unique := by
  have hmem : ∀ e ∈ (t.remove key).rows.entries, e ∈ t.rows.entries := by
    unfold Table.remove
    split
    · exact fun e he => (eraseEntry_sublist key t.rows.entries).subset he
    · exact fun e he => he
  intro i hi hu a ha b hb
  rw [definition_remove] at hi
  exact h i hi hu a (hmem a ha) b (hmem b hb)

theorem Sound.unique_store (h : t.Sound κ) (hunique : t.Unique)
    (hkey : key.Fits κ t.definition.keyPath) (hfree : t.get? key = none) (hspares : t.Spares row) :
    (t.store key row).Unique := by
  intro i hi hu a ha b hb hn hshare
  -- Of two rows that share a value, each is the new one or was there before.
  rw [mem_store h.rows hkey hfree] at ha hb
  rcases ha with rfl | ha <;> rcases hb with rfl | hb
  · rfl
  · exact absurd hshare (hspares i hi hu b hb hn)
  · exact absurd ⟨hn, Std.OrientedCmp.eq_symm hshare.2⟩ (hspares i hi hu a ha hshare.1)
  · exact hunique i hi hu a ha b hb hn hshare

theorem Sound.unique_add (h : t.Sound κ) (hunique : t.Unique)
    (hrow : row.Fits κ t.definition.columns) {next : Table} (ha : t.add row = .ok (key, next)) :
    next.Unique := by
  obtain ⟨rfl, -, hfree, hq, rfl⟩ := add_ok ha
  have hkey := keyOf_fits hrow
  exact h.unique_store hunique hkey hfree (h.spares_of_free hkey hrow hfree hq)

theorem Sound.unique_put (h : t.Sound κ) (hunique : t.Unique)
    (hrow : row.Fits κ t.definition.columns) {next : Table} (hp : t.put row = .ok (key, next)) :
    next.Unique := by
  obtain ⟨rfl, -, hq, rfl⟩ := put_ok hp
  have hkey := keyOf_fits hrow
  refine (h.remove hkey).unique_store (hunique.remove _) ?_ (h.rows.get?_remove hkey)
    (h.spares_remove hkey hrow hq)
  rw [definition_remove]
  exact hkey

/-- Storing a row under its own key, which is free, where the row shares no unique value. -/
theorem Kept.store (h : t.Kept κ) (hrow : row.Fits κ t.definition.columns)
    (hnull : (t.keyOf row).hasNull = false) (hfree : t.get? (t.keyOf row) = none)
    (hspares : t.Spares row) : (t.store (t.keyOf row) row).Kept κ where
  toSound := h.toSound.store (keyOf_fits hrow) hfree Std.ReflOrd.compare_self hnull hrow
  own := by
    intro e he
    rcases (mem_store h.rows (keyOf_fits hrow) hfree).1 he with rfl | he
    · rfl
    · exact h.own e he
  unique := h.toSound.unique_store h.unique (keyOf_fits hrow) hfree hspares

theorem Kept.remove (h : t.Kept κ) (hkey : key.Fits κ t.definition.keyPath) :
    (t.remove key).Kept κ where
  toSound := h.toSound.remove hkey
  own := by
    intro e he
    rw [keyOf, definition_remove]
    exact h.own e ((mem_remove h.rows hkey).1 he).1
  unique := h.unique.remove key

theorem Kept.add (h : t.Kept κ) (hrow : row.Fits κ t.definition.columns) {next : Table}
    (ha : t.add row = .ok (key, next)) : next.Kept κ := by
  obtain ⟨rfl, hnull, hfree, hq, rfl⟩ := add_ok ha
  exact h.store hrow hnull hfree (h.toSound.spares_of_free (keyOf_fits hrow) hrow hfree hq)

theorem Kept.put (h : t.Kept κ) (hrow : row.Fits κ t.definition.columns) {next : Table}
    (hp : t.put row = .ok (key, next)) : next.Kept κ := by
  obtain ⟨rfl, hnull, hq, rfl⟩ := put_ok hp
  -- To replace a row is to store one under a key that was made free.
  have hkey := keyOf_fits hrow
  have hr := h.remove hkey
  have hown : (t.remove (t.keyOf row)).keyOf row = t.keyOf row := by
    rw [keyOf, definition_remove, keyOf]
  have hrow' : row.Fits κ (t.remove (t.keyOf row)).definition.columns := by
    rw [definition_remove]
    exact hrow
  have hfree : (t.remove (t.keyOf row)).get? (t.keyOf row) = none := h.rows.get?_remove hkey
  have hstore := hr.store hrow' (by rwa [hown]) (by rwa [hown])
    (h.toSound.spares_remove hkey hrow hq)
  rwa [hown] at hstore

theorem Kept.delete (h : t.Kept κ)
    (hkey : ∀ p ∈ t.definition.keyPath.zip key.parts, p.2.within (κ p.1)) :
    (t.delete key).2.Kept κ := by
  by_cases hlen : key.parts.length = t.definition.keyPath.length
  · exact h.remove (Key.fits_of_zip hlen hkey)
  · rw [Table.delete, remove_of_absent (h.toSound.get?_of_length_ne hlen)]
    exact h

theorem Kept.consistent {d : TableDef} (h : t.Kept κ) (hd : t.definition = d) :
    Consistent d t where
  definition := hd
  definitions := by rw [h.definitions, hd]
  rows := h.rows.keys_sorted
  stored e he := ⟨h.own e he, h.nonnull e he⟩
  indexes i hi := (h.indexes i hi).exact fun e he => h.index_fits hi (h.fits e he)
  unique := h.unique

end Table

/-! ### Runs -/

namespace Table.Call
variable {d : TableDef} {t : Table}

/-- Part by part, a call comes to the same table or fails with the same error, and then it has changed
nothing. -/
theorem run_action (c : Call) (t : Table) :
    c.action.run t = Action.settled t ((c.perform t).map ((), ·)) := by
  cases c with
  | add row =>
    rw [action, EStateM.run_bind, Action.run_add, perform]
    cases t.add row <;> rfl
  | put row =>
    rw [action, EStateM.run_bind, Action.run_put, perform]
    cases t.put row <;> rfl
  | delete key =>
    rw [action, EStateM.run_bind, Action.run_delete]
    rfl

theorem after_eq (c : Call) (t : Table) : c.after t = (c.perform t).toOption.getD t := by
  rw [after, run_action]
  cases c.perform t <;> rfl

/-- One call. -/
theorem kept_after {c : Call} (h : t.Kept κ) (hd : t.definition = d) (hc : c.Fits κ d) :
    (c.after t).Kept κ ∧ (c.after t).definition = d := by
  subst hd
  rw [after_eq]
  cases c with
  | add row =>
    simp only [perform]
    cases ha : t.add row with
    | error e => exact ⟨h, rfl⟩
    | ok p =>
      obtain ⟨-, -, -, -, hp⟩ := add_ok ha
      exact ⟨h.add hc ha, by simp [Except.map, Except.toOption, hp]⟩
  | put row =>
    simp only [perform]
    cases hp : t.put row with
    | error e => exact ⟨h, rfl⟩
    | ok p =>
      obtain ⟨-, -, -, hnext⟩ := put_ok hp
      exact ⟨h.put hc hp, by simp [Except.map, Except.toOption, hnext]⟩
  | delete key => exact ⟨h.delete hc, definition_remove⟩

/-- A run of calls. -/
theorem kept_foldl {calls : List Call} (h : t.Kept κ) (hd : t.definition = d)
    (hcalls : ∀ c ∈ calls, c.Fits κ d) :
    (calls.foldl after t).Kept κ ∧ (calls.foldl after t).definition = d := by
  induction calls generalizing t with
  | nil => exact ⟨h, hd⟩
  | cons c rest ih =>
    simp only [List.mem_cons, forall_eq_or_imp] at hcalls
    obtain ⟨h', hd'⟩ := kept_after h hd hcalls.1
    exact ih h' hd' hcalls.2

theorem kept_ofDef (d : TableDef) : (Table.ofDef d).Kept κ where
  toSound := .ofDef d
  own := by simp [Table.ofDef]
  unique := by simp [Table.Unique, Table.ofDef]

/-- However a table came about by calls whose values are null or of one kind for each column, rows
and indexes are in step, unique values are unique, and a call that fails on its way leaves it as it
is. -/
theorem consistent_foldl (d : TableDef) (kinds : String → ScalarKind) (calls : List Call)
    (h : ∀ c ∈ calls, c.OfKinds kinds d) :
    Consistent d (calls.foldl after (Table.ofDef d)) ∧
      ∀ (c : Call) (e : Error), c.perform (calls.foldl after (Table.ofDef d)) = .error e →
        c.action.run (calls.foldl after (Table.ofDef d)) =
            .error e (calls.foldl after (Table.ofDef d)) ∧
          c.after (calls.foldl after (Table.ofDef d)) = calls.foldl after (Table.ofDef d) := by
  refine ⟨?_, ?_⟩
  · obtain ⟨hkept, hd⟩ := kept_foldl (kept_ofDef d) rfl fun c hc => (h c hc).fits
    exact hkept.consistent hd
  · intro c e he
    rw [run_action, after_eq, he]
    exact ⟨rfl, rfl⟩

/-- A key that is written again with one more place. -/
theorem consistent_foldl_rescaled :
    Consistent ⟨"price", ["amount"], [⟨"amountIndex", ["amount"], true⟩]⟩
      ([Call.add (.ofList [("amount", .decimal ⟨false, 15, 1⟩)]),
        .put (.ofList [("amount", .decimal ⟨false, 150, 2⟩)])].foldl after
        (Table.ofDef ⟨"price", ["amount"], [⟨"amountIndex", ["amount"], true⟩]⟩)) :=
  (consistent_foldl _ (fun _ => .decimal) _ (by
    intro c hc
    simp only [List.mem_cons, List.not_mem_nil, or_false] at hc
    rcases hc with rfl | rfl <;> intro column hcolumn <;>
      simp only [TableDef.columns, List.flatMap_cons, List.flatMap_nil, List.mem_append,
        List.mem_singleton, List.not_mem_nil, or_false, or_self] at hcolumn <;>
      subst hcolumn <;> decide +kernel)).1

end Table.Call

end RelationalStore

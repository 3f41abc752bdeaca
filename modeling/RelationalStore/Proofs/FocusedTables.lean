import RelationalStore.Proofs.RetainedRows

/- Rows that are found by the primary key of an entity and by some more of its fields. Of a table
   only the indexes over these fields matter then, and of a row only the numbers in them and in the
   key (`Table.focus`): the other columns may hold what they like. That a table is in step in this
   sense (`Table.FindsBy`) is kept by every write of a row with such numbers, and it is all that a
   look for the rows with a value of the fields relies on (`Schema.FindsBy.mem_rowsWhere`). -/
namespace RelationalStore
open SortedMap

/-! ### Some of the indexes -/

/-- The declaration with no indexes but those over these fields. -/
def TableDef.focus (d : TableDef) (fields : List String) : TableDef :=
  { d with indexes := d.indexes.filter (·.fields == fields) }

/-- The table with no indexes but those over these fields. -/
def Table.focus (t : Table) (fields : List String) : Table :=
  ⟨t.definition.focus fields, t.rows, t.indexes.filter (·.definition.fields == fields)⟩

theorem TableDef.mem_columns_focus {d : TableDef} {fields : List String} {c : String}
    (h : c ∈ (d.focus fields).columns) : c ∈ d.keyPath ++ fields := by
  refine (List.mem_append.1 h).elim (List.mem_append_left _) fun h => List.mem_append_right _ ?_
  obtain ⟨i, hi, hc⟩ := List.mem_flatMap.1 h
  obtain rfl : i.fields = fields := by simpa using (List.mem_filter.1 hi).2
  exact hc

namespace Table
variable {κ : String → NumberClass} {t : Table} {d : TableDef} {fields : List String} {key : Key}
  {row : Row} {new : Option Row}

theorem focus_store : (t.store key row).focus fields = (t.focus fields).store key row := by
  simp only [focus, store, List.filter_map]
  congr 3
  funext i
  simp

theorem focus_remove : (t.remove key).focus fields = (t.focus fields).remove key := by
  unfold remove
  rw [show (t.focus fields).get? key = t.get? key from rfl]
  cases t.get? key with
  | none => rfl
  | some old =>
    simp only [focus, List.filter_map]
    congr 3
    funext i
    simp

theorem focus_restore : (t.restore key new).focus fields = (t.focus fields).restore key new := by
  cases new with
  | none => exact focus_remove
  | some row => rw [restore, focus_store, focus_remove, restore]

/-- A table in step stays so without some of its indexes. -/
theorem Sound.focus (h : t.Sound κ) (fields : List String) : (t.focus fields).Sound κ where
  rows := h.rows
  stored := h.stored
  nonnull := h.nonnull
  fits e he := (h.fits e he).mono fun c hc => by
    refine (List.mem_append.1 hc).elim (List.mem_append_left _) fun hc => List.mem_append_right _ ?_
    obtain ⟨i, hi, hc⟩ := List.mem_flatMap.1 hc
    exact List.mem_flatMap.2 ⟨i, (List.mem_filter.1 hi).1, hc⟩
  indexes i hi := h.indexes i (List.mem_filter.1 hi).1
  definitions := by
    simp only [Table.focus, TableDef.focus, ← h.definitions, List.filter_map]
    rfl

/-- The table is as it is declared, and its rows can be found by their keys and by these fields. -/
structure FindsBy (κ : String → NumberClass) (d : TableDef) (fields : List String) (t : Table) :
    Prop where
  definition : t.definition = d
  definitions : t.indexes.map (·.definition) = d.indexes
  sound : (t.focus fields).Sound κ

theorem map_definition_restore :
    (t.restore key new).indexes.map (·.definition) = t.indexes.map (·.definition) := by
  have hremove : (t.remove key).indexes.map (·.definition) = t.indexes.map (·.definition) := by
    unfold remove
    split
    · simp
    · rfl
  cases new with
  | none => exact hremove
  | some row =>
    rw [← hremove]
    simp [restore, store]

namespace FindsBy

theorem keyPath (h : t.FindsBy κ d fields) : (t.focus fields).definition.keyPath = d.keyPath := by
  rw [focus, h.definition]
  rfl

theorem sorted (h : t.FindsBy κ d fields) : t.Sorted κ where
  rows := h.sound.rows
  stored e he := h.sound.stored e he
  fits row hrow := by
    obtain ⟨k, hk⟩ := mem_toList_iff.1 hrow
    exact ((h.sound.fits _ hk).mono TableDef.mem_columns_of_keyPath).key

theorem keyOf_nonnull (h : t.FindsBy κ d fields) (hrow : row ∈ t.toList) :
    (t.keyOf row).hasNull = false := by
  obtain ⟨k, hk⟩ := mem_toList_iff.1 hrow
  exact (Key.hasNull_eq_of_compare (h.sound.stored _ hk)).symm.trans (h.sound.nonnull _ hk)

/-- The numbers in the key of a row, and in the fields if there is an index over them, are of the
classes of their columns. -/
theorem fits (h : t.FindsBy κ d fields) (hindex : fields = [] ∨ ∃ i ∈ d.indexes, i.fields = fields)
    (hrow : row ∈ t.toList) : row.Fits κ (d.keyPath ++ fields) := by
  obtain ⟨k, hk⟩ := mem_toList_iff.1 hrow
  refine (h.sound.fits _ hk).mono fun c hc => ?_
  rw [focus, h.definition]
  refine (List.mem_append.1 hc).elim (List.mem_append_left _) fun hc => List.mem_append_right _ ?_
  obtain rfl | ⟨i, hi, rfl⟩ := hindex
  · cases hc
  · exact List.mem_flatMap.2 ⟨i, List.mem_filter.2 ⟨hi, by simp⟩, hc⟩

/-- A row is put under its own key. -/
theorem restore (h : t.FindsBy κ d fields) (hnull : (t.keyOf row).hasNull = false)
    (hrow : row.Fits κ (d.keyPath ++ fields)) : (t.restore (t.keyOf row) (some row)).FindsBy κ d fields where
  definition := definition_restore.trans h.definition
  definitions := map_definition_restore.trans h.definitions
  sound := by
    rw [focus_restore]
    refine h.sound.restore ⟨?_, fun _ _ => hnull, fun row' hrow' => ?_, fun row' hrow' c hc => ?_⟩
    · exact Row.Fits.key fun c hc => hrow c (List.mem_append_left _ (by rwa [h.keyPath] at hc))
    · cases hrow'
      exact Std.ReflOrd.compare_self
    · cases hrow'
      rw [focus, h.definition] at hc
      exact hrow c (TableDef.mem_columns_focus hc)

/-- Where indexes have names of their own, the rows with a value of the fields are found by an index
over them if there is one. -/
theorem lookup_eq (h : t.FindsBy κ d fields) (hnames : (d.indexes.map (·.name)).Nodup) {index : String}
    (hindex : t.indexFor? fields = some index) {value : Key} (hvalue : value.Fits κ fields)
    (hnull : value.hasNull = false) :
    t.lookup index value = .ok (t.toList.filter fun row => (Key.ofRow fields row).equiv value) := by
  obtain ⟨i, hi, rfl⟩ := Option.map_eq_some_iff.1 hindex
  have hmem := List.mem_of_find?_eq_some hi
  have hfields := List.find?_some hi
  have hfocus : i ∈ (t.focus fields).indexes := List.mem_filter.2 ⟨hmem, hfields⟩
  have hdistinct : (t.indexes.map (·.definition.name)).Nodup := by
    rw [← h.definitions, List.map_map] at hnames
    exact hnames
  have hsub : ((t.focus fields).indexes.map (·.definition.name)).Nodup :=
    hdistinct.sublist (List.filter_sublist.map _)
  have hlookup : t.lookup i.definition.name value = (t.focus fields).lookup i.definition.name value := by
    rw [lookup, lookup, find?_of_nodup hdistinct hmem, find?_of_nodup hsub hfocus]
    rfl
  rw [hlookup]
  refine h.sound.lookup_eq ?_ ?_ hvalue hnull
  · rwa [← h.sound.definitions, List.map_map]
  · rw [← hindex, indexFor?, indexFor?, focus, List.find?_filter]
    simp only [and_self, Bool.decide_eq_true]

end FindsBy

theorem Sound.findsBy (h : t.Sound κ) (fields : List String) : t.FindsBy κ t.definition fields :=
  ⟨rfl, h.definitions, h.focus fields⟩

end Table

/-! ### The table of an entity -/

/-- The rows of the entity can be found by their keys and by these fields. -/
def Schema.FindsBy (s : Schema) (e : Entity) (fields : List String) (tables : Tables) : Prop :=
  ∀ t, tables.get? e.name = some t → t.FindsBy (s.classes e.name) e.tableDef fields

namespace Schema
variable {s : Schema} {e c : Entity} {fields : List String} {tables tables' : Tables}
  {tx tx' : Transaction} {x y row : Row} {key : Key}

/-- In tables of a schema rows are found by whatever fields. -/
theorem Holds.findsBy {κ : String → String → NumberClass} (h : s.Holds κ tables)
    (he : s.entity? e.name = some e) (fields : List String) : s.FindsBy e fields tables := by
  intro t ht
  rw [← h.classes e he, ← h.definition e t he ht]
  exact (h.proper.proper ht).toSound.findsBy fields

namespace FindsBy
variable (h : s.FindsBy e fields tables)
include h

theorem fits (hindex : fields = [] ∨ ∃ i ∈ e.tableDef.indexes, i.fields = fields)
    (hx : tables.Has e.name x) : x.Fits (s.classes e.name) (e.idFields ++ fields) := by
  obtain ⟨t, ht, hx⟩ := hx
  exact (h t ht).fits hindex hx

theorem keyOf_eq {t : Table} (ht : tables.get? e.name = some t) (row : Row) :
    t.keyOf row = e.keyOf row := by
  rw [Table.keyOf, (h t ht).definition]
  rfl

theorem keyOf_nonnull (hx : tables.Has e.name x) : (e.keyOf x).hasNull = false := by
  obtain ⟨t, ht, hx⟩ := hx
  rw [← h.keyOf_eq ht]
  exact (h t ht).keyOf_nonnull hx

theorem eq_of_keyOf (hx : tables.Has e.name x) (hy : tables.Has e.name y)
    (hc : compare (e.keyOf x) (e.keyOf y) = .eq) : x = y := by
  obtain ⟨t, ht, hx⟩ := hx
  obtain ⟨t', ht', hy⟩ := hy
  cases ht.symm.trans ht'
  rw [← h.keyOf_eq ht, ← h.keyOf_eq ht] at hc
  exact (h t ht).sorted.eq_of_keyOf hx hy hc

/-- A look for the rows with a value of the fields gives what a look at every row does. -/
theorem rowsWhere_eq (hother : fields ≠ e.idFields) (hnames : (e.tableDef.indexes.map (·.name)).Nodup)
    (hkey : key.Fits (s.classes e.name) fields) (hnull : key.hasNull = false) {t : Table}
    (htable : tx.table tables e.name = .ok t) : View.rowsWhere ⟨s, tables, tx⟩ e fields key =
      .ok (t.toList.filter fun row => (Key.ofRow fields row).equiv key) := by
  have ht := h t (Transaction.table_ok htable).2.2
  refine Except.bind_eq_ok.2 ⟨t, htable, ?_⟩
  simp only [hother, if_false]
  split
  · next index hindex => exact ht.lookup_eq hnames hindex hkey hnull
  · rfl

theorem mem_rowsWhere (hother : fields ≠ e.idFields) (hnames : (e.tableDef.indexes.map (·.name)).Nodup)
    {rows : List Row} (hrows : View.rowsWhere ⟨s, tables, tx⟩ e fields key = .ok rows)
    (hkey : key.Fits (s.classes e.name) fields) (hnull : key.hasNull = false) :
    x ∈ rows ↔ tables.Has e.name x ∧ compare (Key.ofRow fields x) key = .eq := by
  obtain ⟨t, htable, -⟩ := Except.bind_eq_ok.1 hrows
  have ht := (Transaction.table_ok htable).2.2
  rw [h.rowsWhere_eq hother hnames hkey hnull htable] at hrows
  cases hrows
  simp [Tables.Has, ht, Key.equiv_iff]

/-- A row is written, in whatever table, under its own key. -/
theorem wrote {n : String} {t : Table}
    (hw : tx.Wrote tables n t (t.keyOf row) (some row) tx' tables')
    (hnull : (t.keyOf row).hasNull = false)
    (hrow : n = e.name → row.Fits (s.classes e.name) (e.idFields ++ fields)) :
    s.FindsBy e fields tables' := by
  intro u hu
  rw [hw.tables, get?_insert_eq] at hu
  split at hu
  · next hn =>
    cases hu
    subst hn
    exact (h t hw.found).restore hnull (hrow rfl)
  · exact h u hu

/-- What a row that is written under its own key does to the rows. -/
theorem stores {t : Table} (hw : tx.Wrote tables e.name t (t.keyOf row) (some row) tx' tables')
    (hrow : row.Fits (s.classes e.name) e.idFields) : e.Stores row tables tables' := by
  intro n z
  have ht := h t hw.found
  have hkey (z : Row) : t.keyOf z = e.keyOf z := h.keyOf_eq hw.found z
  have hfits : (t.keyOf row).Fits (s.classes e.name) t.definition.keyPath := by
    rw [hkey, ht.definition]
    exact hrow.key
  rw [hw.has_iff ht.sorted hfits]
  simp only [Option.mem_some_iff, hkey, eq_comm]

end FindsBy

end Schema

end RelationalStore

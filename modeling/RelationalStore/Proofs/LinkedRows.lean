import Mathlib.Data.List.Zip
import RelationalStore.Proofs.SchemaTables
import RelationalStore.Proofs.StoredRows

/- Which rows a table has, and which of them have the values of a key. A row of a proper table is
   found under its own key; an index finds what a look at every row finds
   (`Schema.Holds.mem_rowsWhere`), provided that no two indexes of the table share their name; and a
   write changes the rows of one table under one key (`Transaction.Wrote.has_iff`). -/
namespace RelationalStore
open SortedMap Read

/-- The row is one of those in the table of that name. -/
def Tables.Has (tables : Tables) (n : String) (row : Row) : Prop :=
  ∃ t, tables.get? n = some t ∧ row ∈ t.toList

/-- What is read are rows of the tables. -/
theorem View.gives_has (s : Schema) (tables : Tables) (tx : Transaction) :
    View.Gives ⟨s, tables, tx⟩ tables.Has :=
  fun _ t ht _ hrow => ⟨t, (Transaction.table_ok ht).2.2, hrow⟩

/-! ### One table -/

namespace Table
variable {κ : String → NumberClass} {t : Table} {key value : Key} {row : Row}

theorem mem_toList_iff : row ∈ t.toList ↔ ∃ k, (k, row) ∈ t.rows.entries := by
  rw [toList, SortedMap.values, List.mem_map]
  constructor
  · intro h
    obtain ⟨⟨k, _⟩, he, rfl⟩ := h
    exact ⟨k, he⟩
  · intro h
    obtain ⟨k, he⟩ := h
    exact ⟨(k, row), he, rfl⟩

/-- The rows are in the order of their keys, each under its own, and the numbers in the primary key
keep to the classes of its columns. -/
structure Sorted (κ : String → NumberClass) (t : Table) : Prop where
  rows : t.Ordered κ
  stored : ∀ e ∈ t.rows.entries, compare e.1 (t.keyOf e.2) = .eq
  fits : ∀ row ∈ t.toList, (t.keyOf row).Fits κ t.definition.keyPath

namespace Sorted

/-- A row is found under the keys that are equal to its own, in whatever form it is stored. -/
theorem get?_eq_some (h : t.Sorted κ) (hkey : key.Fits κ t.definition.keyPath) :
    t.get? key = some row ↔ row ∈ t.toList ∧ compare key (t.keyOf row) = .eq := by
  have hK := Key.compare_isLE_trans κ t.definition.keyPath
  rw [get?_eq_some_iff h.rows hkey]
  constructor
  · intro hfound
    obtain ⟨k, hk, hc⟩ := hfound
    have hrow := mem_toList_iff.2 ⟨k, hk⟩
    exact ⟨hrow, hK.eq_trans hkey (h.rows.keys _ hk) (h.fits row hrow) hc (h.stored _ hk)⟩
  · intro hrow
    obtain ⟨hrow, hc⟩ := hrow
    obtain ⟨k, hk⟩ := mem_toList_iff.1 hrow
    refine ⟨k, hk, ?_⟩
    exact hK.eq_trans hkey (h.fits row hrow) (h.rows.keys _ hk) hc
      (Std.OrientedCmp.eq_symm (h.stored _ hk))

theorem get?_keyOf (h : t.Sorted κ) (hrow : row ∈ t.toList) : t.get? (t.keyOf row) = some row :=
  (h.get?_eq_some (h.fits row hrow)).2 ⟨hrow, Std.ReflOrd.compare_self⟩

theorem eq_of_keyOf (h : t.Sorted κ) {row' : Row} (hrow : row ∈ t.toList) (hrow' : row' ∈ t.toList)
    (hc : compare (t.keyOf row) (t.keyOf row') = .eq) : row = row' := by
  have hfound := h.get?_keyOf hrow
  rw [(h.get?_eq_some (h.fits row hrow)).2 ⟨hrow', hc⟩] at hfound
  exact (Option.some.inj hfound).symm

/-- The rows after one is put under a key, or the one there is taken out. -/
theorem mem_toList_restore (h : t.Sorted κ) (hkey : key.Fits κ t.definition.keyPath)
    {new : Option Row} :
    row ∈ (t.restore key new).toList ↔
      row ∈ new ∨ row ∈ t.toList ∧ compare key (t.keyOf row) ≠ .eq := by
  have hK := Key.compare_isLE_trans κ t.definition.keyPath
  simp only [mem_toList_iff, mem_restore h.rows hkey]
  constructor
  · intro hrow
    obtain ⟨k, ⟨row', hnew, heq⟩ | ⟨hk, hne⟩⟩ := hrow
    · cases heq
      exact .inl hnew
    · refine .inr ⟨⟨k, hk⟩, fun hc => hne ?_⟩
      exact hK.eq_trans hkey (h.fits row (mem_toList_iff.2 ⟨k, hk⟩)) (h.rows.keys _ hk) hc
        (Std.OrientedCmp.eq_symm (h.stored _ hk))
  · intro hrow
    rcases hrow with hnew | ⟨⟨k, hk⟩, hne⟩
    · exact ⟨key, .inl ⟨row, hnew, rfl⟩⟩
    · refine ⟨k, .inr ⟨hk, fun hc => hne ?_⟩⟩
      exact hK.eq_trans hkey (h.rows.keys _ hk) (h.fits row (mem_toList_iff.2 ⟨k, hk⟩)) hc
        (h.stored _ hk)

/-- No two rows have the same key. -/
theorem pairwise_toList (h : t.Sorted κ) :
    t.toList.Pairwise fun x y => compare (t.keyOf x) (t.keyOf y) ≠ .eq := by
  have hK := Key.compare_isLE_trans κ t.definition.keyPath
  refine List.pairwise_map.2 (h.rows.sorted.imp_of_mem fun {a b} ha hb hlt heq => ?_)
  have hfits {e : Key × Row} (he : e ∈ t.rows.entries) := h.fits e.2 (mem_toList_iff.2 ⟨e.1, he⟩)
  have hab : compare a.1 b.1 = .eq :=
    hK.eq_trans (h.rows.keys a ha) (hfits ha) (h.rows.keys b hb) (h.stored a ha)
      (hK.eq_trans (hfits ha) (hfits hb) (h.rows.keys b hb) heq (Std.OrientedCmp.eq_symm (h.stored b hb)))
  rw [hab] at hlt
  cases hlt

end Sorted

theorem Proper.sorted (h : t.Proper κ) : t.Sorted κ where
  rows := h.rows
  stored := h.stored
  fits row hrow := by
    obtain ⟨k, hk⟩ := mem_toList_iff.1 hrow
    exact (h.within _ hk).fits.key

theorem Proper.keyOf_nonnull (h : t.Proper κ) (hrow : row ∈ t.toList) :
    (t.keyOf row).hasNull = false := by
  obtain ⟨k, hk⟩ := mem_toList_iff.1 hrow
  rw [← Key.hasNull_eq_of_compare (h.stored _ hk)]
  exact h.nonnull _ hk

/-! The short ways to the rows with a value give what a look at every row gives. -/

namespace Sound

/-- A row is looked for by its own key or by the key that it is stored under. -/
theorem compare_keyOf (h : t.Sound κ) (hkey : key.Fits κ t.definition.keyPath) {e : Key × Row}
    (he : e ∈ t.rows.entries) : compare key e.1 = .eq ↔ compare (t.keyOf e.2) key = .eq := by
  have hK := Key.compare_isLE_trans κ t.definition.keyPath
  have hown : (t.keyOf e.2).Fits κ t.definition.keyPath :=
    ((h.fits e he).mono TableDef.mem_columns_of_keyPath).key
  have hstored := Std.OrientedCmp.eq_symm (h.stored e he)
  constructor
  · exact fun hc => hK.eq_trans hown (h.rows.keys e he) hkey hstored (Std.OrientedCmp.eq_symm hc)
  · intro hc
    exact hK.eq_trans hkey hown (h.rows.keys e he) (Std.OrientedCmp.eq_symm hc) hstored

theorem toList_get? (h : t.Sound κ) (hkey : key.Fits κ t.definition.keyPath) :
    (t.get? key).toList = t.toList.filter fun row => (t.keyOf row).equiv key := by
  have hK := Key.compare_isLE_trans κ t.definition.keyPath
  have hfound : (entryAt? key t.rows.entries).toList =
      t.rows.entries.filter fun e => (t.keyOf e.2).equiv key := by
    refine eq_of_increasing (·.1) ?_ (h.rows.sorted.filter _) fun e => ?_
    · cases entryAt? key t.rows.entries <;> simp
    · rw [Option.mem_toList, entryAt?_eq_some_iff hK h.rows hkey, List.mem_filter, Key.equiv_iff]
      exact and_congr_right fun he => h.compare_keyOf hkey he
  rw [get?, SortedMap.get?, Option.toList_map, hfound, toList, SortedMap.values, List.filter_map]
  rfl

/-- The keys of an index are those that the rows are stored under, in the same form and order. -/
theorem keysAt_eq (h : t.Sound κ) {i : Index} (hi : i ∈ t.indexes)
    (hvalue : value.Fits κ i.definition.fields) (hnull : value.hasNull = false) :
    i.keysAt value =
      (t.rows.entries.filter fun e => (Key.ofRow i.definition.fields e.2).equiv value).map (·.1) := by
  have hindex := h.indexes i hi
  refine eq_of_increasing id ?_ (List.pairwise_map.2 (h.rows.sorted.filter _)) fun k => ?_
  · unfold Index.keysAt
    cases hget : i.entries.get? value with
    | none => exact .nil
    | some keys => exact List.pairwise_map.2 (hindex.keys_of_get? hget).sorted
  · rw [hindex.owners value hvalue]
    simp only [IndexDef.Holds, List.mem_map, List.mem_filter, Prod.exists, exists_and_right,
      exists_eq_right, Key.equiv_iff]
    refine exists_congr fun row => and_congr_right fun _ => ?_
    constructor
    · exact fun hrow => Std.OrientedCmp.eq_symm hrow.2
    · intro hc
      exact ⟨by rw [Key.hasNull_eq_of_compare hc, hnull], Std.OrientedCmp.eq_symm hc⟩

/-- An index is found by its fields and then by its name, which must be its own. -/
theorem lookup_eq (h : t.Sound κ) (hnames : (t.definition.indexes.map (·.name)).Nodup)
    {fields : List String} {index : String} (hindex : t.indexFor? fields = some index)
    (hvalue : value.Fits κ fields) (hnull : value.hasNull = false) :
    t.lookup index value = .ok (t.toList.filter fun row => (Key.ofRow fields row).equiv value) := by
  obtain ⟨i, hi, rfl⟩ := Option.map_eq_some_iff.1 hindex
  have hfields : i.definition.fields = fields := by simpa using List.find?_some hi
  have hmem := List.mem_of_find?_eq_some hi
  subst hfields
  rw [← h.definitions, List.map_map] at hnames
  have hfind : t.indexes.find? (·.definition.name == i.definition.name) = some i :=
    find?_of_nodup hnames hmem
  have hget : ∀ e ∈ t.rows.entries, t.get? e.1 = some e.2 := fun e he =>
    (get?_eq_some_iff h.rows (h.rows.keys e he)).2 ⟨e.1, he, Std.ReflOrd.compare_self⟩
  have hrows := List.filterMap_congr fun e he => hget e (List.mem_of_mem_filter
    (p := fun e : Key × Row => (Key.ofRow i.definition.fields e.2).equiv value) he)
  simp only [lookup, hfind]
  rw [h.keysAt_eq hmem hvalue hnull, toList, SortedMap.values, List.filter_map, List.filterMap_map]
  exact congrArg Except.ok (hrows.trans (congrFun List.filterMap_eq_map' _))

end Sound

end Table

/-! ### The tables of a schema -/

namespace Schema.Holds
variable {s : Schema} {κ : String → String → NumberClass} {tables : Tables} {e : Entity}
  {x y : Row} {key : Key}

theorem tableDef (h : s.Holds κ tables) (he : s.entity? e.name = some e) {t : Table}
    (ht : tables.get? e.name = some t) (row : Row) : t.keyOf row = e.keyOf row := by
  rw [Table.keyOf, h.definition e t he ht]
  rfl

theorem within (h : s.Holds κ tables) {n : String} (hx : tables.Has n x) : x.Within (κ n) := by
  obtain ⟨t, ht, hrow⟩ := hx
  obtain ⟨k, hk⟩ := Table.mem_toList_iff.1 hrow
  exact (h.proper.proper ht).within _ hk

theorem keyOf_nonnull (h : s.Holds κ tables) (he : s.entity? e.name = some e)
    (hx : tables.Has e.name x) : (e.keyOf x).hasNull = false := by
  obtain ⟨t, ht, hrow⟩ := hx
  rw [← h.tableDef he ht]
  exact (h.proper.proper ht).keyOf_nonnull hrow

theorem eq_of_keyOf (h : s.Holds κ tables) (he : s.entity? e.name = some e)
    (hx : tables.Has e.name x) (hy : tables.Has e.name y)
    (hc : compare (e.keyOf x) (e.keyOf y) = .eq) : x = y := by
  obtain ⟨t, ht, hrow⟩ := hx
  obtain ⟨t', ht', hrow'⟩ := hy
  rw [ht] at ht'
  cases ht'
  rw [← h.tableDef he ht, ← h.tableDef he ht] at hc
  exact (h.proper.proper ht).sorted.eq_of_keyOf hrow hrow' hc

theorem row?_iff (h : s.Holds κ tables) (he : s.entity? e.name = some e) {tx : Transaction}
    {found : Option Row} (hfound : View.row? ⟨s, tables, tx⟩ e key = .ok found)
    (hkey : key.Fits (κ e.name) e.idFields) :
    found = some x ↔ tables.Has e.name x ∧ compare key (e.keyOf x) = .eq := by
  obtain ⟨t, ht, hfound⟩ := Except.bind_eq_ok.1 hfound
  cases hfound
  obtain ⟨-, -, ht⟩ := Transaction.table_ok ht
  have hdefinition := h.definition e t he ht
  have hpath : t.definition.keyPath = e.idFields := by
    rw [hdefinition]
    rfl
  rw [(h.proper.proper ht).sorted.get?_eq_some (by rwa [hpath]), h.tableDef he ht]
  constructor
  · exact fun hx => ⟨⟨t, ht, hx.1⟩, hx.2⟩
  · intro hx
    obtain ⟨⟨t', ht', hrow⟩, hc⟩ := hx
    rw [ht] at ht'
    cases ht'
    exact ⟨hrow, hc⟩

section
variable (hs : s.Resolved) (hkinds : s.KeysOfKinds) (he : s.entity? e.name = some e) {r : Relation}
  (hr : r ∈ e.owningRelations)
include hs hkinds he hr

theorem class_link (h : s.Holds κ tables) {p : String × String} (hp : p ∈ r.near.zip r.far) :
    κ e.name p.1 = κ r.target p.2 := by
  obtain ⟨t, ht⟩ := hs.target he r (List.mem_filter.1 hr).1
  have hname := hs.name ht
  rw [h.classes e he, Schema.classes_link hs hkinds he hr hp, ← hname,
    h.classes t (by rw [hname, ht])]

/-- What a foreign key references keeps to the classes of the foreign key. -/
theorem fits_link (h : s.Holds κ tables) (hx : x.Within (κ r.target)) :
    (Key.ofRow r.far x).Fits (κ e.name) r.near := by
  obtain ⟨-, hlen, -⟩ := hs.key he r hr
  refine Key.fits_of_zip (by simp [Key.ofRow, hlen]) fun p hp => ?_
  rw [Key.ofRow, List.zip_map_right, List.mem_map] at hp
  obtain ⟨q, hq, rfl⟩ := hp
  show (x.value q.2).within (κ e.name q.1) = true
  rw [h.class_link hs hkinds he hr hq]
  exact hx q.2

/-- A foreign key keeps to the classes of what it references. -/
theorem fits_near (h : s.Holds κ tables) (hx : x.Within (κ e.name)) :
    (Key.ofRow r.near x).Fits (κ r.target) r.far := by
  obtain ⟨-, hlen, -⟩ := hs.key he r hr
  refine Key.fits_of_zip (by simp [Key.ofRow, hlen]) fun p hp => ?_
  rw [Key.ofRow, List.zip_map_right, List.mem_map] at hp
  obtain ⟨q, hq, rfl⟩ := hp
  have hlink : (q.2, q.1) ∈ r.near.zip r.far := by
    rw [← List.zip_swap]
    exact List.mem_map_of_mem hq
  show (x.value q.2).within (κ r.target q.1) = true
  rw [← h.class_link hs hkinds he hr hlink]
  exact hx q.2

end

/-- However the rows with the values of a key are looked for, a look at every row would give the
same rows in the same order, or fail in the same way. -/
theorem rowsWhere_eq (h : s.Holds κ tables) (he : s.entity? e.name = some e)
    {fields : List String} (hnames : fields = e.idFields ∨ (e.tableDef.indexes.map (·.name)).Nodup)
    (tx : Transaction) (hkey : key.Fits (κ e.name) fields) (hnull : key.hasNull = false) :
    View.rowsWhere ⟨s, tables, tx⟩ e fields key =
      (View.rows ⟨s, tables, tx⟩ e).map (·.filter fun row => (Key.ofRow fields row).equiv key) := by
  rw [View.rowsWhere, View.rows]
  cases ht : View.table ⟨s, tables, tx⟩ e with
  | error e => rfl
  | ok t =>
    obtain ⟨-, -, ht⟩ := Transaction.table_ok ht
    have hdefinition := h.definition e t he ht
    have hsound := (h.proper.proper ht).toSound
    show (if fields = e.idFields then _ else _) = Except.ok _
    split
    · next hfields =>
      subst hfields
      have hpath : t.definition.keyPath = e.idFields := by
        rw [hdefinition]
        rfl
      rw [← hpath] at hkey ⊢
      exact congrArg Except.ok (hsound.toList_get? hkey)
    · next hfields =>
      split
      · next index hindex =>
        refine hsound.lookup_eq ?_ hindex hkey hnull
        rw [hdefinition]
        exact hnames.resolve_left hfields
      · rfl

theorem mem_rowsWhere (h : s.Holds κ tables) (he : s.entity? e.name = some e)
    {fields : List String} (hnames : fields = e.idFields ∨ (e.tableDef.indexes.map (·.name)).Nodup)
    {tx : Transaction} {rows : List Row}
    (hrows : View.rowsWhere ⟨s, tables, tx⟩ e fields key = .ok rows)
    (hkey : key.Fits (κ e.name) fields) (hnull : key.hasNull = false) :
    x ∈ rows ↔ tables.Has e.name x ∧ compare (Key.ofRow fields x) key = .eq := by
  rw [h.rowsWhere_eq he hnames tx hkey hnull] at hrows
  obtain ⟨all, hall, rfl⟩ := Except.map_eq_ok.1 hrows
  obtain ⟨t, ht, rfl⟩ := Except.map_eq_ok.1 hall
  obtain ⟨-, -, ht⟩ := Transaction.table_ok ht
  have hhas : tables.Has e.name x ↔ x ∈ t.toList := by simp [Tables.Has, ht]
  rw [List.mem_filter, hhas, Key.equiv_iff]

end Schema.Holds

/-! ### Writes -/

namespace Transaction.Wrote
variable {κ : String → String → NumberClass} {tx tx' : Transaction} {tables tables' : Tables}
  {name n : String} {t : Table} {key : Key} {row : Row} {new : Option Row}

/-- The rows after a write. -/
theorem has_iff (hw : tx.Wrote tables name t key new tx' tables') (ht : t.Sorted (κ name))
    (hkey : key.Fits (κ name) t.definition.keyPath) :
    tables'.Has n row ↔
      n = name ∧ row ∈ new ∨
        tables.Has n row ∧ (n = name → compare key (t.keyOf row) ≠ .eq) := by
  rw [Tables.Has, Tables.Has, hw.tables]
  by_cases hn : n = name
  · subst hn
    simp only [get?_insert_self, hw.found, Option.some.injEq, exists_eq_left', true_and,
      forall_const]
    exact ht.mem_toList_restore hkey
  · rw [get?_insert_of_ne (Ne.symm hn)]
    simp [hn]

end Transaction.Wrote

namespace Schema.Holds
variable {s : Schema} {κ : String → String → NumberClass} {tx tx' : Transaction}
  {tables tables' : Tables} {name : String} {t : Table} {key : Key} {new : Option Row}

theorem wrote (h : s.Holds κ tables) (hw : tx.Wrote tables name t key new tx' tables')
    (hs : t.definition.Suits (κ name) key new) : s.Holds κ tables' where
  classes := h.classes
  proper := Tables.proper_iff.2 (hw.under (Tables.proper_iff.1 h.proper) hs)
  definition e u he hu := by
    obtain ⟨u₀, hu₀, heq⟩ := exists_of_map_eq (hw.definition e.name) hu
    rw [← heq]
    exact h.definition e u₀ he hu₀

end Schema.Holds

end RelationalStore

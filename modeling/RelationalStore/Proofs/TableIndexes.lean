import RelationalStore.Table
import RelationalStore.Proofs.MapEntries

/- A table and its indexes stay in step. `Table.Sound` says what holds between the rows and the
   entries of the indexes: each row is under its own key, which has no null, and under each value an
   index has exactly the keys of the rows with that value. Storing a row under a free key and taking
   a row out keep it. `κ` gives each column the class of the numbers it may hold, without which keys
   are in no order. -/
namespace RelationalStore
open SortedMap

variable {κ : String → NumberClass}

namespace SortedSet
variable {α : Type} [Ord α] [Std.OrientedOrd α] {P : α → Prop} {s : SortedSet α} {a k : α}

omit [Ord α] [Std.OrientedOrd α] in
theorem mem_keys : k ∈ s.keys ↔ (k, ()) ∈ s.entries := by
  rw [SortedMap.keys, List.mem_map]
  constructor
  · intro hex
    obtain ⟨⟨k, ⟨⟩⟩, h, rfl⟩ := hex
    exact h
  · exact fun h => ⟨(k, ()), h, rfl⟩

theorem mem_keys_erase (hP : TransOn (compare : α → α → Ordering) P) (ho : InOrder P s.entries)
    (ha : P a) : k ∈ SortedMap.keys (s.erase a) ↔ k ∈ s.keys ∧ compare a k ≠ .eq := by
  rw [mem_keys, mem_keys]
  exact mem_eraseEntry hP ho ha

/-- Adding a new member. -/
theorem mem_keys_add (hP : TransOn (compare : α → α → Ordering) P) (ho : InOrder P s.entries)
    (ha : P a) (hnew : ∀ k ∈ s.keys, compare a k ≠ .eq) :
    k ∈ SortedMap.keys (SortedSet.add s a) ↔ k = a ∨ k ∈ s.keys := by
  have habsent : entryAt? a s.entries = none :=
    (entryAt?_eq_none_iff hP ho ha).2 fun e he => hnew e.1 (mem_keys.2 he)
  rw [mem_keys, mem_keys]
  apply (mem_insertEntry hP ho ha).trans
  rw [storedForm_of_absent habsent]
  constructor
  · intro hcase
    rcases hcase with h | ⟨h, -⟩
    · exact .inl (Prod.mk.inj h).1
    · exact .inr h
  · intro hcase
    rcases hcase with rfl | h
    · exact .inl rfl
    · exact .inr ⟨h, hnew k (mem_keys.2 h)⟩

end SortedSet

/-! ### One index -/

/-- None of the row's values in the index's fields is null, and together they are this one. -/
def IndexDef.Holds (i : IndexDef) (row : Row) (value : Key) : Prop :=
  (Key.ofRow i.fields row).hasNull = false ∧ compare value (Key.ofRow i.fields row) = .eq

namespace Index

/-- Values and keys are in order, and no value is without keys. -/
structure Tidy (κ : String → NumberClass) (path : List String) (i : Index) : Prop where
  values : InOrder (Key.Fits κ i.definition.fields) i.entries.entries
  keys : ∀ e ∈ i.entries.entries, InOrder (Key.Fits κ path) e.2.entries
  nonempty : ∀ e ∈ i.entries.entries, e.2.entries ≠ []

/-- Under each value the index has the keys of the rows with that value. -/
structure Sound (κ : String → NumberClass) (path : List String) (rows : List (Key × Row))
    (i : Index) : Prop extends Tidy κ path i where
  owners : ∀ value : Key, value.Fits κ i.definition.fields → ∀ k : Key,
    k ∈ i.keysAt value ↔ ∃ row, (k, row) ∈ rows ∧ i.definition.Holds row value

variable {path : List String} {i : Index} {key k value : Key} {row : Row}

theorem valueOf?_eq_some {v : Key} (h : i.valueOf? row = some v) :
    v = Key.ofRow i.definition.fields row ∧ v.hasNull = false := by
  simp only [valueOf?] at h
  split at h
  · cases h
  · next hn =>
    cases h
    exact ⟨rfl, by simpa using hn⟩

theorem fits_valueOf? (hrow : row.Fits κ i.definition.fields) {v : Key}
    (h : i.valueOf? row = some v) : v.Fits κ i.definition.fields := by
  rw [(valueOf?_eq_some h).1]
  exact hrow.key

theorem holds_iff : i.definition.Holds row value ↔
    ∃ v, i.valueOf? row = some v ∧ compare value v = .eq := by
  simp only [IndexDef.Holds, valueOf?]
  cases (Key.ofRow i.definition.fields row).hasNull <;> simp

theorem Tidy.mem_of_get? (_ : i.Tidy κ path) {keys : SortedSet Key}
    (h : i.entries.get? value = some keys) :
    ∃ e ∈ i.entries.entries, e.2 = keys ∧ compare value e.1 = .eq := by
  obtain ⟨e, he, rfl⟩ := Option.map_eq_some_iff.1 h
  obtain ⟨hm, hc⟩ := mem_of_entryAt? he
  exact ⟨e, hm, rfl, hc⟩

theorem Tidy.keys_of_get? (ht : i.Tidy κ path) {keys : SortedSet Key}
    (h : i.entries.get? value = some keys) : InOrder (Key.Fits κ path) keys.entries := by
  obtain ⟨e, hm, rfl, -⟩ := ht.mem_of_get? h
  exact ht.keys e hm

theorem Sound.keysAt_of_mem {rows : List (Key × Row)} (h : i.Sound κ path rows)
    {e : Key × SortedSet Key} (he : e ∈ i.entries.entries) : i.keysAt e.1 = e.2.keys := by
  have hV := Key.compare_isLE_trans κ i.definition.fields
  rw [keysAt, SortedMap.get?, (entryAt?_eq_some_iff hV h.values (h.values.keys e he)).2
    ⟨he, Std.ReflOrd.compare_self⟩]
  rfl

@[simp] theorem definition_enter : (i.enter key row).definition = i.definition := by
  unfold enter
  split <;> rfl

@[simp] theorem definition_withdraw : (i.withdraw key row).definition = i.definition := by
  unfold withdraw
  split
  · rfl
  · split <;> rfl

/-- Entering a row under a new key adds that key where the row's value is looked up. -/
theorem mem_keysAt_enter (ht : i.Tidy κ path) (hkey : key.Fits κ path)
    (hrow : row.Fits κ i.definition.fields) (hvalue : value.Fits κ i.definition.fields)
    (hnew : ∀ v, i.valueOf? row = some v → ∀ k ∈ i.keysAt v, compare key k ≠ .eq) :
    k ∈ (i.enter key row).keysAt value ↔ k = key ∧ i.definition.Holds row value ∨ k ∈ i.keysAt value := by
  have hV := Key.compare_isLE_trans κ i.definition.fields
  have hK := Key.compare_isLE_trans κ path
  unfold enter
  cases hv : i.valueOf? row with
  | none => simp [holds_iff, hv]
  | some v =>
    have hvFits := fits_valueOf? hrow hv
    have hnew := hnew v hv
    have hholds : i.definition.Holds row value ↔ compare value v = .eq := by simp [holds_iff, hv]
    rw [hholds]
    simp only [keysAt, get?_insert hV ht.values.keys hvFits hvalue]
    by_cases hc : compare v value = .eq
    · have hget : i.entries.get? value = i.entries.get? v :=
        get?_congr hV ht.values hvalue hvFits (Std.OrientedCmp.eq_symm hc)
      simp only [hc, if_true, hget, Std.OrientedCmp.eq_symm hc, and_true, Option.elim]
      cases hg : i.entries.get? v with
      | none =>
        rw [Option.getD_none, SortedSet.mem_keys_add (s := ∅) hK .nil hkey (by simp)]
        simp
      | some keys =>
        rw [Option.getD_some, SortedSet.mem_keys_add hK (ht.keys_of_get? hg) hkey]
        simpa [keysAt, hg] using hnew
    · -- Another value is looked up, and its entry is not touched.
      have hc' : compare value v ≠ .eq := fun h => hc (Std.OrientedCmp.eq_symm h)
      simp [hc, hc']

/-- Withdrawing a row takes its key out where the row's value is looked up. -/
theorem mem_keysAt_withdraw (ht : i.Tidy κ path) (hkey : key.Fits κ path)
    (hrow : row.Fits κ i.definition.fields) (hvalue : value.Fits κ i.definition.fields) :
    k ∈ (i.withdraw key row).keysAt value ↔
      k ∈ i.keysAt value ∧ ¬ (compare key k = .eq ∧ i.definition.Holds row value) := by
  have hV := Key.compare_isLE_trans κ i.definition.fields
  have hK := Key.compare_isLE_trans κ path
  unfold withdraw
  cases hv : i.valueOf? row with
  | none => simp [holds_iff, hv]
  | some v =>
    have hvFits := fits_valueOf? hrow hv
    have hholds : i.definition.Holds row value ↔ compare value v = .eq := by simp [holds_iff, hv]
    rw [hholds]
    have hcomm : compare v value = .eq ↔ compare value v = .eq := Std.OrientedCmp.eq_comm
    simp only
    cases hg : i.entries.get? v with
    | none =>
      simp only
      constructor
      · intro hk
        refine ⟨hk, fun h => ?_⟩
        rw [keysAt, get?_congr hV ht.values hvalue hvFits h.2, hg] at hk
        cases hk
      · exact fun h => h.1
    | some keys =>
      have hkeys := ht.keys_of_get? hg
      have herase := SortedSet.mem_keys_erase hK hkeys hkey (k := k)
      simp only
      by_cases hc : compare value v = .eq
      · have hget : i.keysAt value = keys.keys := by
          rw [keysAt, get?_congr hV ht.values hvalue hvFits hc, hg, Option.elim]
        rw [hget]
        simp only [hc, and_true]
        rw [← herase, keysAt]
        split
        · next hempty =>
          rw [get?_erase hV ht.values hvFits hvalue, if_pos (hcomm.2 hc)]
          simp only [SortedMap.isEmpty, List.isEmpty_iff] at hempty
          simp [SortedMap.keys, hempty]
        · rw [get?_insert hV ht.values.keys hvFits hvalue, if_pos (hcomm.2 hc)]
          rfl
      · -- Another value is looked up, and its entry is not touched.
        have hc' : compare v value ≠ .eq := fun h => hc (hcomm.1 h)
        simp only [hc, and_false, not_false_eq_true, and_true, keysAt]
        split
        · rw [get?_erase hV ht.values hvFits hvalue, if_neg hc']
        · rw [get?_insert hV ht.values.keys hvFits hvalue, if_neg hc']

theorem Tidy.enter (ht : i.Tidy κ path) (hkey : key.Fits κ path)
    (hrow : row.Fits κ i.definition.fields) : (i.enter key row).Tidy κ path := by
  have hV := Key.compare_isLE_trans κ i.definition.fields
  have hK := Key.compare_isLE_trans κ path
  unfold Index.enter
  cases hv : i.valueOf? row with
  | none => exact ht
  | some v =>
    have hvFits := fits_valueOf? hrow hv
    have hold : InOrder (Key.Fits κ path) ((i.entries.get? v).getD ∅).entries := by
      cases hg : i.entries.get? v with
      | none => exact .nil
      | some keys => exact ht.keys_of_get? hg
    refine ⟨ht.values.insert hV hvFits, ?_, ?_⟩
    · intro e he
      rcases (mem_insertEntry hV ht.values hvFits).1 he with rfl | ⟨he, -⟩
      · exact hold.insert hK hkey
      · exact ht.keys e he
    · intro e he
      rcases (mem_insertEntry hV ht.values hvFits).1 he with rfl | ⟨he, -⟩
      · exact List.ne_nil_of_mem ((mem_insertEntry hK hold hkey).2 (.inl rfl))
      · exact ht.nonempty e he

theorem Tidy.withdraw (ht : i.Tidy κ path)
    (hrow : row.Fits κ i.definition.fields) : (i.withdraw key row).Tidy κ path := by
  have hV := Key.compare_isLE_trans κ i.definition.fields
  have hK := Key.compare_isLE_trans κ path
  unfold Index.withdraw
  cases hv : i.valueOf? row with
  | none => exact ht
  | some v =>
    have hvFits := fits_valueOf? hrow hv
    simp only
    -- Without an entry nothing is withdrawn, and there is no key to be found under the value.
    cases hg : i.entries.get? v with
    | none => exact ht
    | some keys =>
      -- The entry goes with its last key, so that none is left empty.
      have hkeys := (ht.keys_of_get? hg).erase key
      by_cases hempty : (keys.erase key).isEmpty
      · simp only [hempty, if_true]
        refine ⟨ht.values.erase v, ?_, ?_⟩
        · intro e he
          exact ht.keys e ((mem_eraseEntry hV ht.values hvFits).1 he).1
        · intro e he
          exact ht.nonempty e ((mem_eraseEntry hV ht.values hvFits).1 he).1
      · simp only [hempty]
        refine ⟨ht.values.insert hV hvFits, ?_, ?_⟩
        · intro e he
          rcases (mem_insertEntry hV ht.values hvFits).1 he with rfl | ⟨he, -⟩
          · exact hkeys
          · exact ht.keys e he
        · intro e he
          rcases (mem_insertEntry hV ht.values hvFits).1 he with rfl | ⟨he, -⟩
          · simpa [SortedMap.isEmpty] using hempty
          · exact ht.nonempty e he

end Index

/-! ### The table -/

namespace TableDef

/-- The columns that keys are made of: those of the primary key and of the indexes. -/
def columns (d : TableDef) : List String := d.keyPath ++ d.indexes.flatMap (·.fields)

theorem mem_columns_of_keyPath {d : TableDef} : ∀ c ∈ d.keyPath, c ∈ d.columns :=
  fun _ hc => List.mem_append_left _ hc

theorem mem_columns_of_index {d : TableDef} {i : IndexDef} (hi : i ∈ d.indexes) :
    ∀ c ∈ i.fields, c ∈ d.columns :=
  fun _ hc => List.mem_append_right _ (List.mem_flatMap.2 ⟨i, hi, hc⟩)

end TableDef

namespace Table

/-- The rows are in the order of their keys. -/
abbrev Ordered (κ : String → NumberClass) (t : Table) : Prop :=
  InOrder (Key.Fits κ t.definition.keyPath) t.rows.entries

/-- Rows and indexes are in step. -/
structure Sound (κ : String → NumberClass) (t : Table) : Prop where
  rows : t.Ordered κ
  stored : ∀ e ∈ t.rows.entries, compare e.1 (t.keyOf e.2) = .eq
  nonnull : ∀ e ∈ t.rows.entries, e.1.hasNull = false
  fits : ∀ e ∈ t.rows.entries, e.2.Fits κ t.definition.columns
  indexes : ∀ i ∈ t.indexes, i.Sound κ t.definition.keyPath t.rows.entries
  definitions : t.indexes.map (·.definition) = t.definition.indexes

variable {t : Table} {key : Key} {row : Row}

@[simp] theorem definition_store : (t.store key row).definition = t.definition := rfl

@[simp] theorem definition_remove : (t.remove key).definition = t.definition := by
  unfold remove
  split <;> rfl

section Rows
variable (h : t.Ordered κ) (hkey : key.Fits κ t.definition.keyPath)
include h hkey

theorem get?_eq_some_iff :
    t.get? key = some row ↔ ∃ k, (k, row) ∈ t.rows.entries ∧ compare key k = .eq := by
  have hK := Key.compare_isLE_trans κ t.definition.keyPath
  rw [get?, SortedMap.get?, Option.map_eq_some_iff]
  constructor
  · intro hex
    obtain ⟨e, he, rfl⟩ := hex
    exact ⟨e.1, (entryAt?_eq_some_iff hK h hkey).1 he⟩
  · intro hex
    obtain ⟨k, hk⟩ := hex
    exact ⟨(k, row), (entryAt?_eq_some_iff hK h hkey).2 hk, rfl⟩

omit h hkey in
theorem entryAt?_of_get?_none (h : t.get? key = none) : entryAt? key t.rows.entries = none :=
  Option.map_eq_none_iff.1 h

theorem get?_none_iff : t.get? key = none ↔ ∀ e ∈ t.rows.entries, compare key e.1 ≠ .eq := by
  rw [get?, SortedMap.get?, Option.map_eq_none_iff]
  exact entryAt?_eq_none_iff (Key.compare_isLE_trans κ t.definition.keyPath) h hkey

/-- The rows after storing one under a free key. -/
theorem mem_store (hfree : t.get? key = none) {e : Key × Row} :
    e ∈ (t.store key row).rows.entries ↔ e = (key, row) ∨ e ∈ t.rows.entries := by
  have hK := Key.compare_isLE_trans κ t.definition.keyPath
  apply (mem_insertEntry hK h hkey).trans
  rw [storedForm_of_absent (entryAt?_of_get?_none hfree)]
  constructor
  · intro hcase
    rcases hcase with rfl | ⟨he, -⟩
    · exact .inl rfl
    · exact .inr he
  · intro hcase
    rcases hcase with rfl | he
    · exact .inl rfl
    · exact .inr ⟨he, (get?_none_iff h hkey).1 hfree e he⟩

theorem Ordered.store : (t.store key row).Ordered κ :=
  InOrder.insert (Key.compare_isLE_trans κ t.definition.keyPath) h hkey

/-- The rows after taking one out. -/
theorem mem_remove {e : Key × Row} :
    e ∈ (t.remove key).rows.entries ↔ e ∈ t.rows.entries ∧ compare key e.1 ≠ .eq := by
  have hK := Key.compare_isLE_trans κ t.definition.keyPath
  unfold remove
  cases hg : t.get? key with
  | none =>
    exact ⟨fun he => ⟨he, (get?_none_iff h hkey).1 hg e he⟩, fun he => he.1⟩
  | some old => exact mem_eraseEntry hK h hkey

omit hkey in
theorem Ordered.remove : (t.remove key).Ordered κ := by
  rw [Ordered, definition_remove]
  unfold Table.remove
  split
  · exact h.erase key
  · exact h

/-- A key that was taken out is free. -/
theorem Ordered.get?_remove : (t.remove key).get? key = none := by
  refine (get?_none_iff h.remove (by rwa [definition_remove])).2 ?_
  exact fun e he => ((mem_remove h hkey).1 he).2

end Rows

theorem Sound.index_definition (h : t.Sound κ) {i : Index} (hi : i ∈ t.indexes) :
    i.definition ∈ t.definition.indexes := by
  rw [← h.definitions]
  exact List.mem_map_of_mem hi

theorem Sound.index_fits (h : t.Sound κ) {i : Index} (hi : i ∈ t.indexes)
    (hrow : row.Fits κ t.definition.columns) : row.Fits κ i.definition.fields :=
  hrow.mono (TableDef.mem_columns_of_index (h.index_definition hi))

theorem Sound.ofDef (d : TableDef) : (Table.ofDef d).Sound κ where
  rows := .nil
  stored := by simp [Table.ofDef]
  nonnull := by simp [Table.ofDef]
  fits := by simp [Table.ofDef]
  indexes := by
    intro i hi
    obtain ⟨d, -, rfl⟩ := List.mem_map.1 hi
    refine ⟨⟨.nil, by simp [Index.ofDef], by simp [Index.ofDef]⟩, ?_⟩
    simp [Index.ofDef, Index.keysAt, Table.ofDef]
  definitions := by
    rw [Table.ofDef, List.map_map]
    exact List.map_id d.indexes

/-- Storing a row under a free key that is its own. -/
theorem Sound.store (h : t.Sound κ) (hkey : key.Fits κ t.definition.keyPath)
    (hfree : t.get? key = none) (hown : compare key (t.keyOf row) = .eq)
    (hnull : key.hasNull = false) (hrow : row.Fits κ t.definition.columns) :
    (t.store key row).Sound κ where
  rows := h.rows.store hkey
  stored := by
    intro e he
    rcases (mem_store h.rows hkey hfree).1 he with rfl | he
    · exact hown
    · exact h.stored e he
  nonnull := by
    intro e he
    rcases (mem_store h.rows hkey hfree).1 he with rfl | he
    · exact hnull
    · exact h.nonnull e he
  fits := by
    intro e he
    rcases (mem_store h.rows hkey hfree).1 he with rfl | he
    · exact hrow
    · exact h.fits e he
  indexes := by
    intro j hj
    obtain ⟨i, hi, rfl⟩ := List.mem_map.1 hj
    have hs := h.indexes i hi
    have hrow := h.index_fits hi hrow
    refine ⟨hs.toTidy.enter hkey hrow, ?_⟩
    intro value hvalue k
    rw [Index.definition_enter] at hvalue
    rw [Index.mem_keysAt_enter hs.toTidy hkey hrow hvalue ?_, hs.owners value hvalue]
    · simp only [mem_store h.rows hkey hfree, Index.definition_enter]
      constructor
      · intro hcase
        rcases hcase with ⟨rfl, hh⟩ | ⟨row', hm, hh⟩
        · exact ⟨row, .inl rfl, hh⟩
        · exact ⟨row', .inr hm, hh⟩
      · intro hex
        obtain ⟨row', hm | hm, hh⟩ := hex
        · obtain ⟨rfl, rfl⟩ := Prod.mk.inj hm
          exact .inl ⟨rfl, hh⟩
        · exact .inr ⟨row', hm, hh⟩
    · -- The key is new to the index since it is free in the table.
      intro v hv k' hk'
      obtain ⟨row', hm, -⟩ := (hs.owners v (Index.fits_valueOf? hrow hv) k').1 hk'
      exact (get?_none_iff h.rows hkey).1 hfree _ hm
  definitions := by simp [Table.store, ← h.definitions]

theorem Sound.remove (h : t.Sound κ) (hkey : key.Fits κ t.definition.keyPath) :
    (t.remove key).Sound κ := by
  have hmem {e : Key × Row} := mem_remove h.rows hkey (e := e)
  unfold Table.remove at hmem ⊢
  cases hg : t.get? key with
  | none => exact h
  | some old =>
    simp only [hg] at hmem
    obtain ⟨k₀, hk₀, hc₀⟩ := (get?_eq_some_iff h.rows hkey).1 hg
    refine ⟨h.rows.erase key, fun e he => h.stored e (hmem.1 he).1,
      fun e he => h.nonnull e (hmem.1 he).1, fun e he => h.fits e (hmem.1 he).1, ?_, ?_⟩
    · intro j hj
      obtain ⟨i, hi, rfl⟩ := List.mem_map.1 hj
      have hs := h.indexes i hi
      have hold := h.index_fits hi (h.fits _ hk₀)
      refine ⟨hs.toTidy.withdraw hold, ?_⟩
      intro value hvalue k
      rw [Index.definition_withdraw] at hvalue
      rw [Index.mem_keysAt_withdraw hs.toTidy hkey hold hvalue, hs.owners value hvalue]
      simp only [hmem, Index.definition_withdraw]
      constructor
      · intro hex
        obtain ⟨⟨row', hm, hh⟩, hne⟩ := hex
        refine ⟨row', ⟨hm, fun hc => hne ⟨hc, ?_⟩⟩, hh⟩
        -- Under the key there is one row only, which is the one that is withdrawn.
        have hsame := eq_of_compare_eq (Key.compare_isLE_trans κ t.definition.keyPath) h.rows hk₀ hm
          ((Key.compare_isLE_trans κ t.definition.keyPath).eq_trans (h.rows.keys _ hk₀) hkey
            (h.rows.keys _ hm) (Std.OrientedCmp.eq_symm hc₀) hc)
        rw [(Prod.mk.inj hsame).2]
        exact hh
      · intro hex
        obtain ⟨row', ⟨hm, hne⟩, hh⟩ := hex
        exact ⟨⟨row', hm, hh⟩, fun h => hne h.1⟩
    · simp [← h.definitions]

/-- A key that has not one part for each column of the path is the key of no row. -/
theorem Sound.get?_of_length_ne (h : t.Sound κ)
    (hlen : key.parts.length ≠ t.definition.keyPath.length) : t.get? key = none := by
  cases hg : entryAt? key t.rows.entries with
  | none => rw [get?, SortedMap.get?, hg]; rfl
  | some e =>
    obtain ⟨he, hc⟩ := mem_of_entryAt? hg
    have hlen' := (Key.length_eq_of_compare hc).trans (Key.length_eq_of_compare (h.stored e he))
    exact absurd (by simpa [keyOf, Key.ofRow] using hlen') hlen

theorem remove_of_absent (h : t.get? key = none) : t.remove key = t := by
  rw [Table.remove, h]

end Table

end RelationalStore

import RelationalStore.Proofs.TableIndexes

/- Writes to a table can be taken back. Every write makes one row the row under its key, or none
   (`Table.restore`). To put back what was there gives the rows from before, in the same order, with
   the same entries in every index. Only the form of a key may differ, because the row is put back
   under the key as the write had it, and keys can be equal without being written alike
   (`Table.Same`). What else is asked of tables and of the rows that are put into them is left open:
   a `Table.Discipline` is any demand that holds of a table again when a row is put back. Tables
   that agree still agree when one row is put back in both (`Table.Agrees.restore`), so a list of
   writes is taken back one by one from its end. -/
namespace RelationalStore
open SortedMap

/-! ### Tables that hold the same -/

/-- The same rows under equal keys in one order, and the same entries of the indexes. -/
structure Table.Same (a b : Table) : Prop where
  definition : a.definition = b.definition
  rows : Alike Eq a.rows.entries b.rows.entries
  indexes : List.Forall₂ (fun i j : Index => i.definition = j.definition ∧
    Alike (fun k l => Alike Eq k.entries l.entries) i.entries.entries j.entries.entries)
    a.indexes b.indexes

/-- The one row that may be put under a key is the key's own. -/
structure TableDef.Accepts (κ : String → NumberClass) (d : TableDef) (key : Key)
    (new : Option Row) : Prop where
  fits : key.Fits κ d.keyPath
  nonnull : ∀ row ∈ new, key.hasNull = false
  own : ∀ row ∈ new, compare key (Key.ofRow d.keyPath row) = .eq
  columns : ∀ row ∈ new, row.Fits κ d.columns

/-- The row that may be put under the key keeps to the classes in all its columns. -/
structure TableDef.Suits (κ : String → NumberClass) (d : TableDef) (key : Key)
    (new : Option Row) : Prop extends d.Accepts κ key new where
  within : ∀ row ∈ new, row.Within κ

namespace TableDef
variable {κ : String → NumberClass} {d : TableDef} {key : Key} {row : Row}

theorem accepts_none (hkey : key.Fits κ d.keyPath) : d.Accepts κ key none :=
  ⟨hkey, nofun, nofun, nofun⟩

theorem accepts_own (hrow : row.Fits κ d.columns)
    (hnull : (Key.ofRow d.keyPath row).hasNull = false) :
    d.Accepts κ (Key.ofRow d.keyPath row) (some row) where
  fits := (hrow.mono mem_columns_of_keyPath).key
  nonnull _ _ := hnull
  own := by
    rintro row ⟨⟩
    exact Std.ReflOrd.compare_self
  columns := by
    rintro row ⟨⟩
    exact hrow

theorem suits_none (hkey : key.Fits κ d.keyPath) : d.Suits κ key none := ⟨accepts_none hkey, nofun⟩

theorem suits_own (hrow : row.Within κ) (hnull : (Key.ofRow d.keyPath row).hasNull = false) :
    d.Suits κ (Key.ofRow d.keyPath row) (some row) where
  toAccepts := accepts_own hrow.fits hnull
  within := by
    rintro row ⟨⟩
    exact hrow

end TableDef

namespace Index
variable {κ : String → NumberClass} {path : List String} {rows rows' : List (Key × Row)}
  {i j : Index} {value value' k : Key}

theorem Sound.keysAt_congr (h : i.Sound κ path rows) (hv : value.Fits κ i.definition.fields)
    (hv' : value'.Fits κ i.definition.fields) (hc : compare value value' = .eq) :
    i.keysAt value = i.keysAt value' := by
  rw [keysAt, keysAt, get?_congr (Key.compare_isLE_trans κ _) h.values hv hv' hc]

/-- A key under a value has its partner under that value where the rows have their partners. -/
theorem Sound.partner_key (hi : i.Sound κ path rows) (hj : j.Sound κ path rows')
    (hd : i.definition = j.definition) (hrows : Alike Eq rows rows')
    (hv : value.Fits κ i.definition.fields) (hk : k ∈ i.keysAt value) :
    ∃ l ∈ j.keysAt value, compare k l = .eq := by
  obtain ⟨row, hm, hh⟩ := (hi.owners value hv k).1 hk
  obtain ⟨e, he, hc, hrow⟩ := hrows.exists_right hm
  refine ⟨e.1, (hj.owners value (hd ▸ hv) e.1).2 ⟨row, ?_, hd ▸ hh⟩, hc⟩
  rw [show row = e.2 from hrow]
  exact he

/-- An entry has its partner. -/
theorem Sound.partner (hi : i.Sound κ path rows) (hj : j.Sound κ path rows')
    (hd : i.definition = j.definition) (hrows : Alike Eq rows rows') {e : Key × SortedSet Key}
    (he : e ∈ i.entries.entries) :
    ∃ f ∈ j.entries.entries, compare e.1 f.1 = .eq := by
  have hv := hi.values.keys e he
  obtain ⟨k, hk⟩ := List.exists_mem_of_ne_nil _ (hi.nonempty e he)
  have hkey : k.1 ∈ i.keysAt e.1 := by
    rw [hi.keysAt_of_mem he]
    exact List.mem_map_of_mem hk
  obtain ⟨l, hl, -⟩ := hi.partner_key hj hd hrows hv hkey
  rw [keysAt] at hl
  cases hg : j.entries.get? e.1 with
  | none => simp [hg] at hl
  | some keys =>
    obtain ⟨f, hf, -, hc⟩ := hj.toTidy.mem_of_get? hg
    exact ⟨f, hf, hc⟩

/-- The entries of an index follow from the rows. -/
theorem Sound.alike (hi : i.Sound κ path rows) (hj : j.Sound κ path rows')
    (hd : i.definition = j.definition) (hrows : Alike Eq rows rows') :
    Alike (fun k l => Alike Eq k.entries l.entries) i.entries.entries j.entries.entries := by
  have hV := Key.compare_isLE_trans κ i.definition.fields
  have hK := Key.compare_isLE_trans κ path
  have hback : Alike Eq rows' rows := hrows.symm fun _ _ h => h.symm
  have hjvalues : InOrder (Key.Fits κ i.definition.fields) j.entries.entries := by
    rw [hd]
    exact hj.values
  -- Entries with equal values have the same keys: both are those of the rows with the value.
  have hkeys {e f : Key × SortedSet Key} (he : e ∈ i.entries.entries)
      (hf : f ∈ j.entries.entries) (hc : compare e.1 f.1 = .eq) :
      Alike Eq e.2.entries f.2.entries := by
    have hve := hi.values.keys e he
    have hvf := hjvalues.keys f hf
    have hei := hi.keysAt_of_mem he
    have hfj : j.keysAt e.1 = f.2.keys := by
      rw [hj.keysAt_congr (hd ▸ hve) (hd ▸ hvf) hc, hj.keysAt_of_mem hf]
    -- Both sets are sorted, so it is enough that each key has a partner in the other.
    refine Alike.of_mem hK (hi.keys e he) (hj.keys f hf) ?_ ?_
    · intro a ha
      obtain ⟨l, hl, hal⟩ := hi.partner_key hj hd hrows hve (k := a.1)
        (by rw [hei]; exact List.mem_map_of_mem ha)
      rw [hfj, SortedSet.mem_keys] at hl
      exact ⟨(l, ()), hl, hal, rfl⟩
    · intro b hb
      obtain ⟨l, hl, hbl⟩ := hj.partner_key hi hd.symm hback (hd ▸ hve) (k := b.1)
        (by rw [hfj]; exact List.mem_map_of_mem hb)
      rw [hei, SortedSet.mem_keys] at hl
      exact ⟨(l, ()), hl, Std.OrientedCmp.eq_symm hbl, rfl⟩
  refine Alike.of_mem hV hi.values hjvalues ?_ ?_
  · intro e he
    obtain ⟨f, hf, hc⟩ := hi.partner hj hd hrows he
    exact ⟨f, hf, hc, hkeys he hf hc⟩
  · intro f hf
    obtain ⟨e, he, hc⟩ := hj.partner hi hd.symm hback hf
    have hc := Std.OrientedCmp.eq_symm hc
    exact ⟨e, he, hc, hkeys he hf hc⟩

end Index

namespace Table
variable {κ : String → NumberClass} {a b c t : Table} {key : Key} {new : Option Row}

/-- Tables in step hold the same as soon as their rows do. -/
theorem Same.of_rows (ha : a.Sound κ) (hb : b.Sound κ) (hd : a.definition = b.definition)
    (hrows : Alike Eq a.rows.entries b.rows.entries) : a.Same b := by
  refine ⟨hd, hrows, ?_⟩
  have hdefinitions : List.Forall₂ (fun i j : Index => i.definition = j.definition) a.indexes
      b.indexes := by
    have heq : a.indexes.map (·.definition) = b.indexes.map (·.definition) := by
      rw [ha.definitions, hb.definitions, hd]
    rw [← List.forall₂_eq_eq_eq, List.forall₂_map_left_iff, List.forall₂_map_right_iff] at heq
    exact heq
  -- The indexes pair up by their definitions; that each is sound needs that it is one of its table.
  have hleft := (List.forall₂_and_left (p := fun i : Index => i ∈ a.indexes) _ _).2
    ⟨fun _ h => h, hdefinitions⟩
  have hright := (List.forall₂_and_left (p := fun j : Index => j ∈ b.indexes) _ _).2
    ⟨fun _ h => h, hleft.flip⟩
  apply hright.flip.imp
  intro i j hij
  obtain ⟨hj, hi, hij⟩ := hij
  refine ⟨hij, (ha.indexes i hi).alike ?_ hij hrows⟩
  rw [hd]
  exact hb.indexes j hj

/-! ### Restoring a row -/

@[simp] theorem definition_restore : (t.restore key new).definition = t.definition := by
  cases new <;> simp [restore]

section Rows
variable (h : t.Ordered κ) (hkey : key.Fits κ t.definition.keyPath)
include h hkey

theorem mem_restore {e : Key × Row} :
    e ∈ (t.restore key new).rows.entries ↔
      (∃ row ∈ new, e = (key, row)) ∨ e ∈ t.rows.entries ∧ compare key e.1 ≠ .eq := by
  cases new with
  | none =>
    rw [restore, mem_remove h hkey]
    simp
  | some row =>
    have hkey' : key.Fits κ (t.remove key).definition.keyPath := by rwa [definition_remove]
    rw [restore, mem_store h.remove hkey' (h.get?_remove hkey), mem_remove h hkey]
    simp

theorem Ordered.restore : (t.restore key new).Ordered κ := by
  cases new with
  | none => exact h.remove
  | some row => exact h.remove.store (by rwa [definition_remove])

/-- Under the key there is what was put there. -/
theorem Ordered.get?_restore : (t.restore key new).get? key = new := by
  cases new with
  | none => exact h.get?_remove hkey
  | some row => exact get?_insert_self _ key row

end Rows

theorem Sound.restore (h : t.Sound κ) (ha : t.definition.Accepts κ key new) :
    (t.restore key new).Sound κ := by
  have hremoved := h.remove ha.fits
  cases new with
  | none => exact hremoved
  | some row =>
    refine hremoved.store ?_ (h.rows.get?_remove ha.fits) ?_ (ha.nonnull row rfl) ?_
    · rw [definition_remove]
      exact ha.fits
    · rw [keyOf, definition_remove]
      exact ha.own row rfl
    · rw [definition_remove]
      exact ha.columns row rfl

/-- What is under a key may be put back there. -/
theorem Sound.accepts_get? (h : t.Sound κ) (hkey : key.Fits κ t.definition.keyPath) :
    t.definition.Accepts κ key (t.get? key) := by
  have hfound {row : Row} (hrow : row ∈ t.get? key) :
      ∃ k, (k, row) ∈ t.rows.entries ∧ compare key k = .eq :=
    (get?_eq_some_iff h.rows hkey).1 hrow
  refine ⟨hkey, ?_, ?_, ?_⟩
  · intro row hrow
    obtain ⟨k, hk, hc⟩ := hfound hrow
    rw [Key.hasNull_eq_of_compare hc]
    exact h.nonnull _ hk
  · intro row hrow
    obtain ⟨k, hk, hc⟩ := hfound hrow
    have hown : (Key.ofRow t.definition.keyPath row).Fits κ t.definition.keyPath :=
      ((h.fits _ hk).mono TableDef.mem_columns_of_keyPath).key
    exact (Key.compare_isLE_trans κ _).eq_trans hkey (h.rows.keys _ hk) hown hc (h.stored _ hk)
  · intro row hrow
    obtain ⟨k, hk, -⟩ := hfound hrow
    exact h.fits _ hk

/-! ### Disciplines -/

/-- A demand on tables and on what is put under their keys: rows and indexes are in step, and what
may be put under a key keeps the demand, as does what was there. -/
structure Discipline where
  classes : String → NumberClass
  Good : Table → Prop
  Suits : TableDef → Key → Option Row → Prop
  sound : ∀ {t}, Good t → t.Sound classes
  accepts : ∀ {d key new}, Suits d key new → d.Accepts classes key new
  restore : ∀ {t key new}, Good t → Suits t.definition key new → Good (t.restore key new)
  suits_get? : ∀ {t key new}, Good t → Suits t.definition key new →
    Suits t.definition key (t.get? key)

/-- Good tables of one definition with the same rows under equal keys. -/
structure Agrees (D : Discipline) (a b : Table) : Prop where
  left : D.Good a
  right : D.Good b
  definition : a.definition = b.definition
  rows : Alike Eq a.rows.entries b.rows.entries

variable {D : Discipline}

theorem Agrees.refl (h : D.Good t) : t.Agrees D t := ⟨h, h, rfl, .refl (fun _ => rfl) _⟩

theorem Agrees.symm (h : a.Agrees D b) : b.Agrees D a :=
  ⟨h.right, h.left, h.definition.symm, h.rows.symm fun _ _ h => h.symm⟩

theorem Agrees.trans (h : a.Agrees D b) (h' : b.Agrees D c) : a.Agrees D c := by
  refine ⟨h.left, h'.right, h.definition.trans h'.definition, ?_⟩
  have hK := Key.compare_isLE_trans D.classes b.definition.keyPath
  have ha := (D.sound h.left).rows.keys
  have hc := (D.sound h'.right).rows.keys
  rw [h.definition] at ha
  rw [← h'.definition] at hc
  exact h.rows.trans hK (fun _ _ _ hxy hyz => hxy.trans hyz) ha (D.sound h.right).rows.keys hc
    h'.rows

theorem Agrees.same (h : a.Agrees D b) : a.Same b :=
  .of_rows (D.sound h.left) (D.sound h.right) h.definition h.rows

/-- A row that is restored in one table has its partner where it is restored in the other. -/
theorem Agrees.partner_restore (h : a.Agrees D b) (hs : D.Suits a.definition key new)
    {e : Key × Row} (he : e ∈ (a.restore key new).rows.entries) :
    ∃ f ∈ (b.restore key new).rows.entries, compare e.1 f.1 = .eq ∧ e.2 = f.2 := by
  have hK := Key.compare_isLE_trans D.classes a.definition.keyPath
  have hleft := D.sound h.left
  have hb : InOrder (Key.Fits D.classes a.definition.keyPath) b.rows.entries := by
    rw [h.definition]
    exact (D.sound h.right).rows
  have hfits := (D.accepts hs).fits
  have hkey : key.Fits D.classes b.definition.keyPath := by rw [← h.definition]; exact hfits
  rcases (mem_restore hleft.rows hfits).1 he with ⟨row, hrow, rfl⟩ | ⟨he, hne⟩
  · refine ⟨(key, row), ?_, Std.ReflOrd.compare_self, rfl⟩
    exact (mem_restore (D.sound h.right).rows hkey).2 (.inl ⟨row, hrow, rfl⟩)
  · obtain ⟨f, hf, hc, hrow⟩ := h.rows.exists_right he
    -- A partner under the key would put the row under it too.
    refine ⟨f, (mem_restore (D.sound h.right).rows hkey).2 (.inr ⟨hf, fun hkf => hne ?_⟩), hc, hrow⟩
    have hfe := Std.OrientedCmp.eq_symm hc
    exact hK.eq_trans hfits (hb.keys f hf) (hleft.rows.keys e he) hkf hfe

theorem Agrees.restore (h : a.Agrees D b) (hs : D.Suits a.definition key new) :
    (a.restore key new).Agrees D (b.restore key new) := by
  have hs' : D.Suits b.definition key new := by rw [← h.definition]; exact hs
  have hleft := D.restore h.left hs
  have hright := D.restore h.right hs'
  have hrightOrder : InOrder (Key.Fits D.classes a.definition.keyPath)
      (b.restore key new).rows.entries := by
    have := (D.sound hright).rows
    rwa [Ordered, definition_restore, ← h.definition] at this
  have hleftOrder : InOrder (Key.Fits D.classes a.definition.keyPath)
      (a.restore key new).rows.entries := by
    have := (D.sound hleft).rows
    rwa [Ordered, definition_restore] at this
  refine ⟨hleft, hright, by simp [h.definition], ?_⟩
  refine Alike.of_mem (Key.compare_isLE_trans D.classes a.definition.keyPath) hleftOrder hrightOrder
    ?_ ?_
  · exact fun e he => h.partner_restore hs he
  · intro f hf
    obtain ⟨e, he, hc, hrow⟩ := h.symm.partner_restore hs' hf
    exact ⟨e, he, Std.OrientedCmp.eq_symm hc, hrow.symm⟩

/-- What was under the key before, put back, gives the rows from before. -/
theorem Agrees.restore_restore (h : D.Good t) (hs : D.Suits t.definition key new) :
    ((t.restore key new).restore key (t.get? key)).Agrees D t := by
  have hK := Key.compare_isLE_trans D.classes t.definition.keyPath
  have hsound := D.sound h
  have hfits := (D.accepts hs).fits
  have hnext := D.restore h hs
  have hold : D.Suits (t.restore key new).definition key (t.get? key) := by
    rw [definition_restore]
    exact D.suits_get? h hs
  have hback := D.restore hnext hold
  have hmem {e : Key × Row} : e ∈ ((t.restore key new).restore key (t.get? key)).rows.entries ↔
      (∃ row ∈ t.get? key, e = (key, row)) ∨ e ∈ t.rows.entries ∧ compare key e.1 ≠ .eq := by
    rw [mem_restore (D.sound hnext).rows (D.accepts hold).fits, mem_restore hsound.rows hfits]
    constructor
    · intro hcase
      rcases hcase with hnew | ⟨⟨row, -, rfl⟩ | he, hne⟩
      · exact .inl hnew
      · -- The new row is taken out again, since it is under the key itself.
        exact absurd Std.ReflOrd.compare_self hne
      · exact .inr he
    · intro hcase
      rcases hcase with hnew | he
      · exact .inl hnew
      · exact .inr ⟨.inr he, he.2⟩
  refine ⟨hback, h, by simp, ?_⟩
  have horder : InOrder (Key.Fits D.classes t.definition.keyPath)
      ((t.restore key new).restore key (t.get? key)).rows.entries := by
    have := (D.sound hback).rows
    rwa [Ordered, definition_restore, definition_restore] at this
  refine Alike.of_mem hK horder hsound.rows ?_ ?_
  · intro e he
    rcases hmem.1 he with ⟨row, hrow, rfl⟩ | ⟨he, -⟩
    · obtain ⟨k, hk, hc⟩ := (get?_eq_some_iff hsound.rows hfits).1 hrow
      exact ⟨(k, row), hk, hc, rfl⟩
    · exact ⟨e, he, Std.ReflOrd.compare_self, rfl⟩
  · intro f hf
    -- The row from before may have been stored under another form of the key.
    by_cases hc : compare key f.1 = .eq
    · refine ⟨(key, f.2), hmem.2 (.inl ⟨f.2, ?_, rfl⟩), hc, rfl⟩
      exact (get?_eq_some_iff hsound.rows hfits).2 ⟨f.1, hf, hc⟩
    · exact ⟨f, hmem.2 (.inr ⟨hf, hc⟩), Std.ReflOrd.compare_self, rfl⟩

/-! ### Numbers of one class in every column -/

/-- A table in step whose rows keep to the classes in all their columns. -/
structure Proper (κ : String → NumberClass) (t : Table) : Prop extends Sound κ t where
  within : ∀ e ∈ t.rows.entries, e.2.Within κ

theorem Proper.restore (h : t.Proper κ) (hs : t.definition.Suits κ key new) :
    (t.restore key new).Proper κ where
  toSound := h.toSound.restore hs.toAccepts
  within := by
    intro e he
    rcases (mem_restore h.rows hs.fits).1 he with ⟨row, hrow, rfl⟩ | ⟨he, -⟩
    · exact hs.within row hrow
    · exact h.within e he

theorem Proper.suits_get? (h : t.Proper κ) (hkey : key.Fits κ t.definition.keyPath) :
    t.definition.Suits κ key (t.get? key) where
  toAccepts := h.toSound.accepts_get? hkey
  within := by
    intro row hrow
    obtain ⟨k, hk, -⟩ := (get?_eq_some_iff h.rows hkey).1 hrow
    exact h.within _ hk

/-- In every column numbers of its class. -/
abbrev Discipline.within (κ : String → NumberClass) : Discipline where
  classes := κ
  Good := Proper κ
  Suits := TableDef.Suits κ
  sound h := h.toSound
  accepts h := h.toAccepts
  restore h hs := h.restore hs
  suits_get? h hs := h.suits_get? hs.fits

end Table

end RelationalStore

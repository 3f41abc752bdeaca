import RelationalStore.Proofs.TableCalls
import RelationalStore.Proofs.TableRestore

/- Tables in which each column of a key or an index holds null or values of one kind. They keep a
   discipline (`Table.Discipline.ofKinds`) that asks nothing of the other columns. Two tables of it
   that agree answer alike (`Table.Agrees.answers`): the forms of their keys can differ, but values
   of one kind that are equal compare alike with any other value. Only decimals do so with less,
   since a floating-point number or a big integer meets them as floating-point numbers, which can
   tell equal decimals apart (`Value.meets`). A call makes tables that agree out of tables that
   agree, or fails on both (`Table.Call.perform_agrees`). -/
namespace RelationalStore
open SortedMap

variable {kinds : String → ScalarKind}

/-! ### Equal values of one kind -/

/-- Decimals are compared with the value as they are, and not as floating-point numbers. -/
def Value.meets : ScalarKind → Value → Bool
  | .decimal, .float _ => false
  | .decimal, .bigint _ => false
  | _, _ => true

namespace Value
variable {kind : ScalarKind} {a b v : Value}

theorem meets_of_isOf (h : v.isOf kind) : v.meets kind := by
  cases kind <;> cases v <;> simp [isOf, meets] at h ⊢

theorem rank_eq_of_compare (h : compare a b = .eq) : a.rank = b.rank := by
  have hab := rank_le_of_isLE (x := a) (y := b) (by rw [h]; rfl)
  have hba := rank_le_of_isLE (x := b) (y := a) (by rw [compare_eq_swap, h]; rfl)
  omega

/-- Nothing that meets the kind tells two equal values of it apart. -/
theorem compare_congr_of_isOf (ha : a.isOf kind) (hb : b.isOf kind) (h : compare a b = .eq)
    (hv : v.meets kind) : compare v a = compare v b := by
  by_cases hwithin : v.within kind.numbers
  · exact (compare_isLE_trans kind.numbers).congr_right hwithin (within_of_isOf ha)
      (within_of_isOf hb) h
  · have hrank := rank_eq_of_compare h
    by_cases hva : v.rank = a.rank
    · -- What is left are numbers that are compared with those of the kind as floating-point numbers.
      cases kind with
      | int | bigint =>
        obtain rfl : a = b := by
          cases a <;> simp [isOf] at ha <;> cases b <;> simp [isOf] at hb <;>
            first
              | rfl
              | cases h
              | exact congrArg _ (@Std.LawfulEqCmp.eq_of_compare Int Ord.compare _ _ _ h)
        rfl
      | float =>
        cases a <;> simp [isOf] at ha <;> cases b <;> simp [isOf] at hb <;> try (first | rfl | cases h)
        cases v <;> simp [rank] at hva <;>
          exact @Std.TransCmp.congr_right Binary64 Ord.compare _ _ _ _ h
      | _ =>
        -- The others have no number that does not meet them in their own order.
        cases v <;> simp [within, meets, ScalarKind.numbers] at hwithin hv <;>
          cases a <;> simp [isOf, rank] at ha hva
    · rw [compare_of_rank_ne hva, compare_of_rank_ne (by rwa [← hrank]), hrank]

end Value

/-! ### Keys and rows -/

/-- Each part of the key is null or of the kind of its column. -/
def Key.OfKinds (kinds : String → ScalarKind) (columns : List String) (k : Key) : Prop :=
  List.Forall₂ (fun c v => v.isOf (kinds c) = true) columns k.parts

/-- Each part of the key meets the kind of its column. -/
def Key.Meets (kinds : String → ScalarKind) (columns : List String) (k : Key) : Prop :=
  ∀ p ∈ columns.zip k.parts, p.2.meets (kinds p.1)

instance {columns : List String} {k : Key} : Decidable (k.Meets kinds columns) :=
  inferInstanceAs (Decidable (∀ p ∈ columns.zip k.parts, p.2.meets (kinds p.1)))

/-- What the row holds in the columns is null or of their kinds. -/
def Row.OfKinds (kinds : String → ScalarKind) (columns : List String) (row : Row) : Prop :=
  ∀ c ∈ columns, (row.value c).isOf (kinds c)

instance {columns : List String} {row : Row} : Decidable (row.OfKinds kinds columns) :=
  inferInstanceAs (Decidable (∀ c ∈ columns, (row.value c).isOf (kinds c)))

namespace Row
variable {columns : List String} {row : Row}

theorem OfKinds.fits (h : row.OfKinds kinds columns) :
    row.Fits (fun c => (kinds c).numbers) columns :=
  fun c hc => Value.within_of_isOf (h c hc)

theorem OfKinds.mono {some : List String} (h : row.OfKinds kinds columns)
    (hs : ∀ c ∈ some, c ∈ columns) : row.OfKinds kinds some :=
  fun c hc => h c (hs c hc)

theorem OfKinds.key (h : row.OfKinds kinds columns) :
    (Key.ofRow columns row).OfKinds kinds columns := by
  rw [Key.OfKinds, Key.ofRow, List.forall₂_map_right_iff, List.forall₂_same]
  exact h

end Row

namespace Key
variable {columns : List String} {a b k : Key}

theorem OfKinds.of_zip (hlen : k.parts.length = columns.length)
    (h : ∀ p ∈ columns.zip k.parts, p.2.isOf (kinds p.1)) : k.OfKinds kinds columns :=
  List.forall₂_iff_zip.2 ⟨hlen.symm, fun hp => h _ hp⟩

theorem OfKinds.zip (h : k.OfKinds kinds columns) {p : String × Value}
    (hp : p ∈ columns.zip k.parts) : p.2.isOf (kinds p.1) :=
  (List.forall₂_iff_zip.1 h).2 hp

theorem OfKinds.fits (h : k.OfKinds kinds columns) :
    k.Fits (fun c => (kinds c).numbers) columns :=
  fits_of_zip (List.Forall₂.length_eq h).symm fun _ hp => Value.within_of_isOf (h.zip hp)

theorem OfKinds.meets (h : k.OfKinds kinds columns) : k.Meets kinds columns :=
  fun _ hp => Value.meets_of_isOf (h.zip hp)

/-- Nothing that meets the kinds of the columns tells two equal keys apart. -/
theorem compare_congr_of_ofKinds (ha : a.OfKinds kinds columns) (hb : b.OfKinds kinds columns)
    (h : compare a b = .eq) (hk : k.Meets kinds columns) : compare k a = compare k b := by
  obtain ⟨xs⟩ := a
  obtain ⟨ys⟩ := b
  obtain ⟨zs⟩ := k
  change Value.compareItems xs ys = .eq at h
  show Value.compareItems zs xs = Value.compareItems zs ys
  simp only [OfKinds, Meets] at ha hb hk
  induction ha generalizing ys zs with
  | nil =>
    cases hb
    rfl
  | @cons c x columns xs hx ha ih =>
    cases hb with
    | @cons _ y _ ys hy hb =>
      cases zs with
      | nil => rfl
      | cons z zs =>
        simp only [List.zip_cons_cons, List.forall_mem_cons] at hk
        simp only [Value.compareItems] at h ⊢
        split at h
        · next hxy =>
          rw [Value.compare_congr_of_isOf hx hy hxy hk.1, ih ys hb zs hk.2 h]
        · next hne => exact absurd h hne

end Key

/-! ### Tables of kinds -/

/-- A table in step whose keys, and rows in the columns of keys, hold null or values of the kinds of
the columns. -/
structure Table.Typed (kinds : String → ScalarKind) (t : Table) : Prop extends
    Table.Sound (fun c => (kinds c).numbers) t where
  keys : ∀ e ∈ t.rows.entries, e.1.OfKinds kinds t.definition.keyPath
  values : ∀ e ∈ t.rows.entries, e.2.OfKinds kinds t.definition.columns
  entries : ∀ i ∈ t.indexes, ∀ e ∈ i.entries.entries, e.1.OfKinds kinds i.definition.fields

/-- The one row that may be put under a key is the key's own, and both are of the kinds. -/
structure TableDef.Types (kinds : String → ScalarKind) (d : TableDef) (key : Key)
    (new : Option Row) : Prop where
  ofKinds : key.OfKinds kinds d.keyPath
  nonnull : ∀ row ∈ new, key.hasNull = false
  own : ∀ row ∈ new, compare key (Key.ofRow d.keyPath row) = .eq
  values : ∀ row ∈ new, row.OfKinds kinds d.columns

namespace TableDef
variable {d : TableDef} {key : Key} {row : Row} {new : Option Row}

theorem Types.accepts (h : d.Types kinds key new) :
    d.Accepts (fun c => (kinds c).numbers) key new :=
  ⟨h.ofKinds.fits, h.nonnull, h.own, fun row hrow => (h.values row hrow).fits⟩

theorem types_none (hkey : key.OfKinds kinds d.keyPath) : d.Types kinds key none :=
  ⟨hkey, nofun, nofun, nofun⟩

theorem types_own (hrow : row.OfKinds kinds d.columns)
    (hnull : (Key.ofRow d.keyPath row).hasNull = false) :
    d.Types kinds (Key.ofRow d.keyPath row) (some row) where
  ofKinds := (hrow.mono mem_columns_of_keyPath).key
  nonnull _ _ := hnull
  own := by
    rintro row ⟨⟩
    exact Std.ReflOrd.compare_self
  values := by
    rintro row ⟨⟩
    exact hrow

end TableDef

namespace Index
variable {P : Key → Prop} {i : Index} {key : Key} {row : Row}

/-- Entering a row leaves the forms of the values or takes that of the row. -/
theorem forall_enter (h : ∀ e ∈ i.entries.entries, P e.1)
    (hrow : P (Key.ofRow i.definition.fields row)) :
    ∀ e ∈ (i.enter key row).entries.entries, P e.1 := by
  unfold enter
  cases hv : i.valueOf? row with
  | none => exact h
  | some v =>
    rw [← (valueOf?_eq_some hv).1] at hrow
    exact forall_insertEntry hrow h

theorem forall_withdraw (h : ∀ e ∈ i.entries.entries, P e.1)
    (hrow : P (Key.ofRow i.definition.fields row)) :
    ∀ e ∈ (i.withdraw key row).entries.entries, P e.1 := by
  unfold withdraw
  cases hv : i.valueOf? row with
  | none => exact h
  | some v =>
    rw [← (valueOf?_eq_some hv).1] at hrow
    simp only
    split
    · exact h
    · split
      · exact fun e he => h e ((eraseEntry_sublist v _).subset he)
      · exact forall_insertEntry hrow h

end Index

namespace Table
variable {t : Table} {key : Key} {new : Option Row}

theorem Typed.entries_remove (h : t.Typed kinds) (hkey : key.OfKinds kinds t.definition.keyPath) :
    ∀ i ∈ (t.remove key).indexes, ∀ e ∈ i.entries.entries, e.1.OfKinds kinds i.definition.fields := by
  unfold remove
  cases hg : t.get? key with
  | none => exact h.entries
  | some old =>
    obtain ⟨k, hk, -⟩ := (get?_eq_some_iff h.rows hkey.fits).1 hg
    intro j hj
    obtain ⟨i, hi, rfl⟩ := List.mem_map.1 hj
    rw [Index.definition_withdraw]
    refine Index.forall_withdraw (h.entries i hi) ?_
    exact ((h.values _ hk).mono (TableDef.mem_columns_of_index (h.index_definition hi))).key

theorem Typed.restore (h : t.Typed kinds) (hs : t.definition.Types kinds key new) :
    (t.restore key new).Typed kinds where
  toSound := h.toSound.restore hs.accepts
  keys := by
    intro e he
    rw [definition_restore]
    rcases (mem_restore h.rows hs.ofKinds.fits).1 he with ⟨row, -, rfl⟩ | ⟨he, -⟩
    · exact hs.ofKinds
    · exact h.keys e he
  values := by
    intro e he
    rw [definition_restore]
    rcases (mem_restore h.rows hs.ofKinds.fits).1 he with ⟨row, hrow, rfl⟩ | ⟨he, -⟩
    · exact hs.values row hrow
    · exact h.values e he
  entries := by
    have hremoved := h.entries_remove hs.ofKinds
    cases new with
    | none => exact hremoved
    | some row =>
      intro j hj
      obtain ⟨i, hi, rfl⟩ := List.mem_map.1 hj
      rw [Index.definition_enter]
      refine Index.forall_enter (hremoved i hi) ?_
      have hdefinition := (h.toSound.remove hs.ofKinds.fits).index_definition hi
      rw [definition_remove] at hdefinition
      exact ((hs.values row rfl).mono (TableDef.mem_columns_of_index hdefinition)).key

/-- What is under a key may be put back there. -/
theorem Typed.types_get? (h : t.Typed kinds) (hkey : key.OfKinds kinds t.definition.keyPath) :
    t.definition.Types kinds key (t.get? key) := by
  have haccepts := h.toSound.accepts_get? hkey.fits
  refine ⟨hkey, haccepts.nonnull, haccepts.own, fun row hrow => ?_⟩
  obtain ⟨k, hk, -⟩ := (get?_eq_some_iff h.rows hkey.fits).1 hrow
  exact h.values _ hk

/-- In every column of a key values of one kind. -/
abbrev Discipline.ofKinds (kinds : String → ScalarKind) : Discipline where
  classes c := (kinds c).numbers
  Good := Typed kinds
  Suits := TableDef.Types kinds
  sound h := h.toSound
  accepts h := h.accepts
  restore h hs := h.restore hs
  suits_get? h hs := h.types_get? hs.ofKinds

theorem Typed.ofDef (d : TableDef) : (Table.ofDef d).Typed kinds where
  toSound := .ofDef d
  keys := by simp [Table.ofDef]
  values := by simp [Table.ofDef]
  entries := by
    intro i hi
    obtain ⟨d, -, rfl⟩ := List.mem_map.1 hi
    simp [Index.ofDef]

end Table

/-! ### Answers -/

/-- Both tables answer alike. Only the last key may be written in another way, and a key that is
looked up must meet the kinds of its columns. -/
structure Table.Answers (kinds : String → ScalarKind) (a b : Table) : Prop where
  get? : ∀ key : Key, key.Meets kinds a.definition.keyPath → a.get? key = b.get? key
  toList : a.toList = b.toList
  size : a.size = b.size
  lookup : ∀ (index : String) (value : Key),
    (∀ i, a.definition.indexes.find? (·.name == index) = some i → value.Meets kinds i.fields) →
    a.lookup index value = b.lookup index value
  lastKey? : Option.Rel (fun k l : Key => k.equiv l) a.lastKey? b.lastKey?

namespace Table
variable {a b : Table} {key k l value : Key} {i j : Index}

/-- An index has no keys but those of rows. -/
theorem Sound.mem_rows_of_index {κ : String → NumberClass} (h : a.Sound κ) (hi : i ∈ a.indexes)
    {e : Key × SortedSet Key} (he : e ∈ i.entries.entries) (hk : k ∈ e.2.keys) :
    ∃ row, (k, row) ∈ a.rows.entries := by
  rw [← (h.indexes i hi).keysAt_of_mem he] at hk
  obtain ⟨row, hrow, -⟩ := ((h.indexes i hi).owners e.1
    ((h.indexes i hi).values.keys e he) k).1 hk
  exact ⟨row, hrow⟩

namespace Agrees

theorem get?_eq (h : a.Agrees (.ofKinds kinds) b) (hkey : key.Meets kinds a.definition.keyPath) :
    a.get? key = b.get? key := by
  have hfound := h.rows.rel_entryAt? (k := key) fun e he f hf hc =>
    Key.compare_congr_of_ofKinds (h.left.keys e he) (h.definition ▸ h.right.keys f hf) hc hkey
  exact map_eq_of_rel hfound fun _ _ hef => hef.2

/-- Under equal keys that rows have. -/
theorem get?_eq_of_mem (h : a.Agrees (.ofKinds kinds) b) {row row' : Row}
    (hk : (k, row) ∈ a.rows.entries) (hl : (l, row') ∈ b.rows.entries) (hkl : compare k l = .eq) :
    a.get? k = b.get? l := by
  have hkinds := h.left.keys _ hk
  rw [h.get?_eq hkinds.meets]
  rw [h.definition] at hkinds
  exact get?_congr (Key.compare_isLE_trans _ _) h.right.rows hkinds.fits (h.right.keys _ hl).fits hkl

/-- The rows with a value, in indexes that are partners. -/
theorem filterMap_keysAt (h : a.Agrees (.ofKinds kinds) b) (hi : i ∈ a.indexes) (hj : j ∈ b.indexes)
    (hd : i.definition = j.definition)
    (hentries : Alike (fun k l => Alike Eq k.entries l.entries) i.entries.entries j.entries.entries)
    (hvalue : value.Meets kinds i.definition.fields) :
    (i.keysAt value).filterMap a.get? = (j.keysAt value).filterMap b.get? := by
  have hfound := hentries.rel_entryAt? (k := value) fun e he f hf hc =>
    Key.compare_congr_of_ofKinds (h.left.entries i hi e he) (hd ▸ h.right.entries j hj f hf) hc
      hvalue
  rw [Index.keysAt, Index.keysAt, SortedMap.get?, SortedMap.get?]
  cases he : entryAt? value i.entries.entries with
  | none =>
    rw [eq_none_of_rel hfound he]
    rfl
  | some e =>
    obtain ⟨f, hf, -, hset⟩ := exists_of_rel hfound he
    rw [hf]
    have hkeys : List.Forall₂ (fun k l => compare k l = .eq) e.2.keys f.2.keys := by
      rw [SortedMap.keys, SortedMap.keys, List.forall₂_map_left_iff, List.forall₂_map_right_iff]
      exact hset.imp fun _ _ hkl => hkl.1
    refine filterMap_eq_of_forall₂ hkeys fun k hk l hl hkl => ?_
    obtain ⟨row, hrow⟩ := h.left.mem_rows_of_index hi (mem_of_entryAt? he).1 hk
    obtain ⟨row', hrow'⟩ := h.right.mem_rows_of_index hj (mem_of_entryAt? hf).1 hl
    exact h.get?_eq_of_mem hrow hrow' hkl

theorem lookup_eq (h : a.Agrees (.ofKinds kinds) b) {index : String}
    (hvalue : ∀ i, a.definition.indexes.find? (·.name == index) = some i →
      value.Meets kinds i.fields) : a.lookup index value = b.lookup index value := by
  have hfound := rel_find? (p := (·.definition.name == index)) (q := (·.definition.name == index))
    h.same.indexes fun i _ j _ hij => by rw [hij.1]
  have hname : a.name = b.name := congrArg TableDef.name h.definition
  rw [lookup, lookup]
  cases hi : a.indexes.find? (·.definition.name == index) with
  | none =>
    rw [eq_none_of_rel hfound hi, hname]
  | some i =>
    obtain ⟨j, hj, hd, hentries⟩ := exists_of_rel hfound hi
    rw [hj]
    refine congrArg Except.ok (h.filterMap_keysAt (List.mem_of_find?_eq_some hi)
      (List.mem_of_find?_eq_some hj) hd hentries (hvalue _ ?_))
    rw [← h.left.definitions, List.find?_map]
    simp only [Function.comp_def, hi, Option.map_some]

/-- Tables that agree answer alike. -/
theorem answers (h : a.Agrees (.ofKinds kinds) b) : a.Answers kinds b where
  get? _ := h.get?_eq
  toList := h.rows.values_eq
  size := h.rows.length_eq
  lookup _ _ := h.lookup_eq
  lastKey? := by
    have hlast := h.rows.rel_getLast?
    rw [Table.lastKey?, Table.lastKey?, SortedMap.lastKey?, SortedMap.lastKey?]
    generalize a.rows.entries.getLast? = x, b.rows.entries.getLast? = y at hlast
    cases hlast with
    | none => exact .none
    | some hef => exact .some (Key.equiv_iff.2 hef.1)

end Agrees

end Table

/-! ### Calls -/

/-- A unique index is taken if a row under another key shares the value. -/
theorem Table.Sound.isTaken_iff {κ : String → NumberClass} {t : Table} (h : t.Sound κ) {key : Key}
    {row : Row} (hrow : row.Fits κ t.definition.columns) {i : Index} (hi : i ∈ t.indexes) :
    i.isTaken key row = true ↔ i.definition.unique = true ∧
      (Key.ofRow i.definition.fields row).hasNull = false ∧ ∃ e ∈ t.rows.entries,
        i.definition.Holds e.2 (Key.ofRow i.definition.fields row) ∧ compare e.1 key ≠ .eq := by
  have howners := (h.indexes i hi).owners _ (h.index_fits hi hrow).key
  simp only [Index.isTaken, Bool.and_eq_true, Option.any_eq_true, List.any_eq_true]
  refine and_congr_right fun _ => ⟨fun htaken => ?_, fun hshared => ?_⟩
  · obtain ⟨v, hv, owner, howner, hne⟩ := htaken
    obtain ⟨rfl, hn⟩ := Index.valueOf?_eq_some hv
    obtain ⟨row', hm, hshare⟩ := (howners owner).1 howner
    refine ⟨hn, _, hm, hshare, fun hc => ?_⟩
    simp [Key.equiv_iff.2 hc] at hne
  · obtain ⟨hn, e, he, hshare, hne⟩ := hshared
    refine ⟨_, if_neg (by simp [hn]), e.1, (howners e.1).2 ⟨e.2, he, hshare⟩, ?_⟩
    simpa [← Key.equiv_iff] using hne

/-- The unique indexes let a row in under a key if the rows that share a value with it have that
key. -/
theorem Table.Sound.checkUnique_iff {κ : String → NumberClass} {t : Table} (h : t.Sound κ) {key : Key}
    {row : Row} (hrow : row.Fits κ t.definition.columns) :
    t.checkUnique key row = .ok () ↔ ∀ i ∈ t.definition.indexes, i.unique = true →
      (Key.ofRow i.fields row).hasNull = false → ∀ e ∈ t.rows.entries,
        i.Holds e.2 (Key.ofRow i.fields row) → compare e.1 key = .eq := by
  constructor
  · intro hq i hi hu hn e he hshare
    exact h.alone_of_checkUnique hrow hq hi hu he hn hshare
  · intro halone
    have hfree : t.indexes.find? (·.isTaken key row) = none := by
      rw [List.find?_eq_none]
      intro i hi htaken
      obtain ⟨hu, hn, e, he, hshare, hne⟩ := (h.isTaken_iff hrow hi).1 htaken
      exact hne (halone i.definition (h.index_definition hi) hu hn e he hshare)
    rw [checkUnique, hfree]

namespace Table.Call
variable {d : TableDef} {t t' a a' b : Table} {c : Call}

/-- The key whose row the call replaces. -/
def key (d : TableDef) : Call → Key
  | .add row => Key.ofRow d.keyPath row
  | .put row => Key.ofRow d.keyPath row
  | .delete key => key

/-- The row that is under the key afterwards. -/
def row? : Call → Option Row
  | .add row => some row
  | .put row => some row
  | .delete _ => none

/-- The checks that the call makes. -/
def Passes (t : Table) : Call → Prop
  | .add row => (t.keyOf row).hasNull = false ∧ t.get? (t.keyOf row) = none ∧
      t.checkUnique (t.keyOf row) row = .ok ()
  | .put row => (t.keyOf row).hasNull = false ∧ t.checkUnique (t.keyOf row) row = .ok ()
  | .delete _ => True

/-- All that a call does. -/
theorem perform_eq_ok_iff :
    c.perform t = .ok t' ↔ c.Passes t ∧ t' = t.restore (c.key t.definition) c.row? := by
  cases c with
  | add row =>
    constructor
    · intro h
      obtain ⟨⟨k, next⟩, hadd, rfl⟩ := Except.map_eq_ok.1 h
      obtain ⟨rfl, hnull, hfree, hq, rfl⟩ := Table.add_ok hadd
      refine ⟨⟨hnull, hfree, hq⟩, ?_⟩
      rw [row?, Table.restore, key, ← Table.keyOf, remove_of_absent hfree]
    · intro h
      obtain ⟨⟨hnull, hfree, hq⟩, rfl⟩ := h
      have hcontains : t.rows.contains (t.keyOf row) = false := by
        simpa [SortedMap.contains, Table.get?, SortedMap.get?] using hfree
      rw [row?, Table.restore, key, ← Table.keyOf, remove_of_absent hfree]
      simp [perform, Table.add, requireKey, hnull, hcontains, hq, Except.map, pure, Except.pure, bind,
        Except.bind]
  | put row =>
    constructor
    · intro h
      obtain ⟨⟨k, next⟩, hput, rfl⟩ := Except.map_eq_ok.1 h
      obtain ⟨rfl, hnull, hq, rfl⟩ := Table.put_ok hput
      exact ⟨⟨hnull, hq⟩, rfl⟩
    · intro h
      obtain ⟨⟨hnull, hq⟩, rfl⟩ := h
      rw [row?, Table.restore, key, ← Table.keyOf]
      simp [perform, Table.put, requireKey, hnull, hq, Except.map, pure, Except.pure, bind,
        Except.bind]
  | delete key =>
    constructor
    · intro h
      exact ⟨trivial, (Except.ok.inj h).symm⟩
    · intro h
      rw [h.2]
      rfl

theorem definition_perform (h : c.perform t = .ok t') : t'.definition = t.definition := by
  rw [(perform_eq_ok_iff.1 h).2, definition_restore]

/-- What a call of the kinds puts under its key may be put there. -/
theorem types (hc : c.OfKinds kinds t.definition) (hp : c.Passes t)
    (hlen : (c.key t.definition).parts.length = t.definition.keyPath.length) :
    t.definition.Types kinds (c.key t.definition) c.row? := by
  cases c with
  | add row => exact TableDef.types_own hc hp.1
  | put row => exact TableDef.types_own hc hp.1
  | delete key => exact TableDef.types_none (.of_zip hlen hc)

/-- A key that has not one part for each column has no row, and only a deletion can be given one. -/
theorem restore_of_length_ne {κ : String → NumberClass} (h : t.Sound κ)
    (hlen : (c.key t.definition).parts.length ≠ t.definition.keyPath.length) :
    t.restore (c.key t.definition) c.row? = t := by
  cases c with
  | add row => exact absurd (List.length_map _) hlen
  | put row => exact absurd (List.length_map _) hlen
  | delete key => exact remove_of_absent (h.get?_of_length_ne hlen)

/-- The checks look at the rows alone. -/
theorem Passes.of_agrees (h : a.Agrees (.ofKinds kinds) b) (hc : c.OfKinds kinds a.definition)
    (hp : c.Passes a) : c.Passes b := by
  have hown (row : Row) : b.keyOf row = a.keyOf row := by rw [keyOf, keyOf, h.definition]
  have hunique {row : Row} (hrow : row.OfKinds kinds a.definition.columns)
      (hq : a.checkUnique (a.keyOf row) row = .ok ()) : b.checkUnique (a.keyOf row) row = .ok () := by
    have hrow' := hrow
    rw [h.definition] at hrow'
    refine (h.right.checkUnique_iff hrow'.fits).2 fun i hi hu hn f hf hshare => ?_
    obtain ⟨e, he, hc, heq⟩ := exists_of_forall₂_right h.rows hf
    rw [← h.definition] at hi
    rw [← show e.2 = f.2 from heq] at hshare
    have hkey := (h.left.checkUnique_iff hrow.fits).1 hq i hi hu hn e he hshare
    have hfits := h.right.keys f hf
    rw [← h.definition] at hfits
    exact (Key.compare_isLE_trans _ _).eq_trans hfits.fits (h.left.keys e he).fits
      (keyOf_fits hrow.fits) (Std.OrientedCmp.eq_symm hc) hkey
  cases c with
  | add row =>
    obtain ⟨hnull, hfree, hq⟩ := hp
    have hkey : (a.keyOf row).OfKinds kinds a.definition.keyPath :=
      (Row.OfKinds.mono hc TableDef.mem_columns_of_keyPath).key
    rw [Passes, hown, ← h.get?_eq hkey.meets]
    exact ⟨hnull, hfree, hunique hc hq⟩
  | put row =>
    obtain ⟨hnull, hq⟩ := hp
    rw [Passes, hown]
    exact ⟨hnull, hunique hc hq⟩
  | delete key => trivial

/-- Of tables that agree a call makes tables that agree. -/
theorem perform_agrees (h : a.Agrees (.ofKinds kinds) b) (hc : c.OfKinds kinds a.definition)
    (hp : c.perform a = .ok a') : ∃ b', c.perform b = .ok b' ∧ a'.Agrees (.ofKinds kinds) b' := by
  obtain ⟨hpasses, rfl⟩ := perform_eq_ok_iff.1 hp
  refine ⟨_, perform_eq_ok_iff.2 ⟨hpasses.of_agrees h hc, rfl⟩, ?_⟩
  by_cases hlen : (c.key a.definition).parts.length = a.definition.keyPath.length
  · rw [← h.definition]
    exact h.restore (types hc hpasses hlen)
  · rw [restore_of_length_ne h.left.toSound hlen]
    rw [h.definition] at hlen
    rw [restore_of_length_ne h.right.toSound hlen]
    exact h

end Table.Call

end RelationalStore

import Mathlib.Data.Set.Insert
import RelationalStore.Proofs.Cascades
import RelationalStore.Proofs.DeclaredKinds
import RelationalStore.Proofs.LinkedRows
import RelationalStore.Proofs.PayloadParts

/- What the changes that an operation notes say of the rows that it writes. A change tells of one
   write (`Change.Tells`): of the row under its key there was none before and one after, one before
   and one after, or one before and none after. The changes record the writes from one state to
   another if there is one of them for each write, in order (`Transaction.Records`). Replaying them
   on the set of primary keys, which knows nothing of the rows, then leads to the set of keys in the
   end (`Change.Tells.primaryKeys`): this needs that keys are found where they are equal, so that
   the numbers in a primary key are of one class (`Schema.KeysInOrder`). The `Ledger` of an
   operation says all of this of the work so far, and each single write that is noted keeps it. -/
namespace RelationalStore
open SortedMap Read

/-! ### Changes -/

/-- What a change of a kind says of the row under its key, before and after. -/
inductive ChangeKind.Tells : ChangeKind → Option Row → Option Row → Prop
  | create (new : Row) : Tells .create none (some new)
  | update (old new : Row) : Tells .update (some old) (some new)
  | delete (old : Row) : Tells .delete (some old) none

/-- The change tells of a write, in the table of its entity and under its key, which is the key of
the row that is replaced and of the one that is put there. -/
structure Change.Tells (change : Change) (tx : Transaction) (tables : Tables) (t : Table)
    (new : Option Row) (tx' : Transaction) (tables' : Tables) : Prop where
  wrote : tx.Wrote tables change.entity t change.key new tx' tables'
  name : t.name = change.entity
  kind : change.kind.Tells (t.get? change.key) ((t.restore change.key new).get? change.key)
  old : ∀ row ∈ t.get? change.key, t.keyOf row = change.key
  new : ∀ row ∈ new, t.keyOf row = change.key

/-- The changes tell of the writes of a transaction, one of each, in order. -/
inductive Transaction.Records (tx : Transaction) (tables : Tables) :
    List Change → Transaction → Tables → Prop
  | none : Records tx tables [] tx tables
  | more {changes : List Change} {change : Change} {tx' tx'' : Transaction}
      {tables' tables'' : Tables} {t : Table} {new : Option Row}
      (before : Records tx tables changes tx' tables')
      (last : change.Tells tx' tables' t new tx'' tables'') :
      Records tx tables (changes ++ [change]) tx'' tables''

/-- The primary keys of all rows, each with the name of its table. -/
def Tables.primaryKeys (tables : Tables) : Set (String × Key) :=
  {p | ∃ t, tables.get? p.1 = some t ∧ ∃ row ∈ t.toList, t.keyOf row = p.2}

/-- The keys after a change. -/
def Change.replay (keys : Set (String × Key)) (change : Change) : Set (String × Key) :=
  match change.kind with
  | .create => insert (change.entity, change.key) keys
  | .update => keys
  | .delete => keys \ {(change.entity, change.key)}

/-! ### Tables that are sorted by their keys -/

/-- No field of the primary key is a part of a foreign key or has the time of the last write. -/
def Entity.KeyAlone (e : Entity) : Prop :=
  ∀ f ∈ e.idFields, f ∉ e.stamps ∧ ∀ r ∈ e.owningRelations, f ∉ r.near

instance (e : Entity) : Decidable e.KeyAlone := by
  unfold Entity.KeyAlone
  infer_instance

/-- No field of a primary key is a part of a foreign key or has the time of the last write. -/
def Schema.KeysAlone (s : Schema) : Prop :=
  ∀ e ∈ s.entities.values, ∀ f ∈ e.idFields, f ∉ e.stamps ∧ ∀ r ∈ e.owningRelations, f ∉ r.near

instance (s : Schema) : Decidable s.KeysAlone := by
  unfold Schema.KeysAlone
  infer_instance

/-- Every table is stored under its own name, and those of entities are as they are declared and
sorted by their keys, whose numbers are of the classes of their fields. -/
structure Schema.KeysInOrder (s : Schema) (tables : Tables) : Prop where
  name : ∀ {n t}, tables.get? n = some t → t.name = n
  definition : ∀ {e t}, s.entity? e.name = some e → tables.get? e.name = some t →
    t.definition = e.tableDef
  sorted : ∀ {e t}, s.entity? e.name = some e → tables.get? e.name = some t →
    t.Sorted (s.classes e.name)

/-- The values of primary keys keep to the classes of their fields. -/
def Schema.KeyWithin (s : Schema) (n c : String) (v : Value) : Prop :=
  (∃ e ∈ s.entity? n, c ∈ e.idFields) → v.within (s.classes n c)

variable {s : Schema} {e : Entity} {tx tx' : Transaction} {tables tables' : Tables} {t : Table}
  {key : Key} {row : Row} {new : Option Row}

theorem Key.Fits.value {κ : String → NumberClass} {path : List String}
    (h : (Key.ofRow path row).Fits κ path) {c : String} (hc : c ∈ path) :
    (row.value c).within (κ c) := by
  obtain ⟨i, hi⟩ := List.mem_iff_getElem?.1 hc
  have hpart := h i (row.value c) (by simp [Key.ofRow, hi])
  rwa [hi] at hpart

/-- A row is put under its own key, or the one under a key is taken out. -/
theorem Table.Sorted.restore {κ : String → NumberClass} (h : t.Sorted κ)
    (hkey : key.Fits κ t.definition.keyPath) (hnew : ∀ row ∈ new, t.keyOf row = key) :
    (t.restore key new).Sorted κ := by
  have hmem {p : Key × Row} : p ∈ (t.restore key new).rows.entries ↔ _ := mem_restore h.rows hkey
  have hkeyOf (row : Row) : (t.restore key new).keyOf row = t.keyOf row := by
    rw [Table.keyOf, Table.definition_restore]
    rfl
  refine ⟨h.rows.restore hkey, fun p hp => ?_, fun row hrow => ?_⟩
  · rw [hkeyOf]
    rcases hmem.1 hp with ⟨row, hrow, rfl⟩ | ⟨hp, -⟩
    · rw [hnew row hrow]
      exact Std.ReflOrd.compare_self
    · exact h.stored p hp
  · rw [hkeyOf, Table.definition_restore]
    obtain ⟨k, hk⟩ := mem_toList_iff.1 hrow
    rcases hmem.1 hk with ⟨row', hrow', heq⟩ | ⟨hk, -⟩
    · cases heq
      rwa [hnew row hrow']
    · exact h.fits row (mem_toList_iff.2 ⟨k, hk⟩)

theorem Schema.Holds.keysInOrder {κ : String → String → NumberClass} (h : s.Holds κ tables) :
    s.KeysInOrder tables where
  name := h.proper.name
  definition he ht := h.definition _ _ he ht
  sorted {e t} he ht := by
    rw [← h.classes e he]
    exact (h.proper.proper ht).sorted

namespace Schema.KeysInOrder

theorem keyOf (h : s.KeysInOrder tables) (he : s.entity? e.name = some e)
    (ht : tables.get? e.name = some t) (row : Row) : t.keyOf row = e.keyOf row := by
  rw [Table.keyOf, h.definition he ht]
  rfl

theorem keyPath (h : s.KeysInOrder tables) (he : s.entity? e.name = some e)
    (ht : tables.get? e.name = some t) : t.definition.keyPath = e.idFields := by
  rw [h.definition he ht]
  rfl

theorem mem_primaryKeys (h : s.KeysInOrder tables) (he : s.entity? e.name = some e) :
    (e.name, key) ∈ tables.primaryKeys ↔ ∃ row, tables.Has e.name row ∧ e.keyOf row = key := by
  constructor
  · intro hkey
    obtain ⟨t, ht, row, hrow, rfl⟩ := hkey
    exact ⟨row, ⟨t, ht, hrow⟩, (h.keyOf he ht row).symm⟩
  · intro hkey
    obtain ⟨row, ⟨t, ht, hrow⟩, rfl⟩ := hkey
    exact ⟨t, ht, row, hrow, h.keyOf he ht row⟩

theorem fits (h : s.KeysInOrder tables) (he : s.entity? e.name = some e)
    (hkey : (e.name, key) ∈ tables.primaryKeys) : key.Fits (s.classes e.name) e.idFields := by
  obtain ⟨row, ⟨t, ht, hrow⟩, rfl⟩ := (h.mem_primaryKeys he).1 hkey
  have hfits := (h.sorted he ht).fits row hrow
  rwa [h.keyOf he ht, h.keyPath he ht] at hfits

/-- A row is found under its own key. -/
theorem get?_of_mem (h : s.KeysInOrder tables) (he : s.entity? e.name = some e)
    (ht : tables.get? e.name = some t) (hkey : (e.name, key) ∈ tables.primaryKeys) :
    ∃ row, t.get? key = some row ∧ t.keyOf row = key := by
  obtain ⟨t', ht', row, hrow, rfl⟩ := hkey
  cases ht.symm.trans ht'
  exact ⟨row, (h.sorted he ht).get?_keyOf hrow, rfl⟩

theorem wrote (h : s.KeysInOrder tables) (he : s.entity? e.name = some e)
    (hw : tx.Wrote tables e.name t key new tx' tables')
    (hkey : key.Fits (s.classes e.name) e.idFields) (hnew : ∀ row ∈ new, t.keyOf row = key) :
    s.KeysInOrder tables' := by
  have hrestored := (h.sorted he hw.found).restore (by rwa [h.keyPath he hw.found]) hnew
  have hafter {n : String} {u : Table} (hu : tables'.get? n = some u) :
      n = e.name ∧ u = t.restore key new ∨ tables.get? n = some u := by
    rw [hw.tables, get?_insert_eq] at hu
    split at hu
    · next hn =>
      cases hu
      exact .inl ⟨hn.symm, rfl⟩
    · exact .inr hu
  refine ⟨fun {n u} hu => ?_, fun {c u} hc hu => ?_, fun {c u} hc hu => ?_⟩
  · rcases hafter hu with ⟨rfl, rfl⟩ | hu
    · rw [Table.name, Table.definition_restore]
      exact h.name hw.found
    · exact h.name hu
  · rcases hafter hu with ⟨hname, rfl⟩ | hu
    · cases entity_inj hc he hname
      rw [Table.definition_restore]
      exact h.definition hc hw.found
    · exact h.definition hc hu
  · rcases hafter hu with ⟨hname, rfl⟩ | hu
    · cases entity_inj hc he hname
      exact hrestored
    · exact h.sorted hc hu

/-! ### Values of keys -/

theorem gives (h : s.KeysInOrder tables) (hs : s.Resolved) (tx : Transaction) :
    View.Gives ⟨s, tables, tx⟩ fun n row => row.Obeys s.KeyWithin n := by
  intro n t ht row hrow c hc
  obtain ⟨e, he, hc⟩ := hc
  obtain rfl := hs.name he
  have ht := (Transaction.table_ok ht).2.2
  have hfits := (h.sorted he ht).fits row hrow
  rw [h.keyOf he ht, h.keyPath he ht] at hfits
  exact hfits.value hc

end Schema.KeysInOrder

theorem Row.Obeys.fits_keyOf (h : row.Obeys s.KeyWithin e.name) (he : s.entity? e.name = some e) :
    (e.keyOf row).Fits (s.classes e.name) e.idFields :=
  Row.Fits.key fun c hc => h c ⟨e, he, hc⟩

/-- Foreign keys have no part in the primary key, so what they take over is of no concern. -/
theorem Schema.admits_keyWithin (hs : s.Resolved) (halone : s.KeysAlone) : s.Admits s.KeyWithin := by
  refine Schema.admits_where hs (fun _ _ => rfl) fun e he r hr p hp hkey => ?_
  obtain ⟨c, hc, hid⟩ := hkey
  cases he.symm.trans hc
  exact absurd (List.of_mem_zip hp).1 ((halone e (hs.mem_values he) p.1 hid).2 r hr)

/-! ### One change -/

/-- Of the keys that were there, those stay that are not the one that is written under. -/
theorem Transaction.Wrote.mem_primaryKeys {κ : String → NumberClass} {n : String}
    (hw : tx.Wrote tables n t key new tx' tables') (ht : t.Sorted κ)
    (hkey : key.Fits κ t.definition.keyPath) (hold : ∀ row ∈ t.get? key, t.keyOf row = key)
    (hnew : ∀ row ∈ new, t.keyOf row = key) {p : String × Key} :
    p ∈ tables'.primaryKeys ↔
      new.isSome ∧ p = (n, key) ∨ p ∈ tables.primaryKeys ∧ p ≠ (n, key) := by
  obtain ⟨m, k⟩ := p
  simp only [Tables.primaryKeys, Set.mem_ofPred_eq, ne_eq, Prod.mk.injEq, hw.tables]
  by_cases hm : m = n
  · subst hm
    -- The key is found where it is equal, and there it is the key of the row.
    have hother {row : Row} (hrow : row ∈ t.toList) :
        compare key (t.keyOf row) ≠ .eq ↔ t.keyOf row ≠ key := by
      refine not_congr ⟨fun hc => hold row ((ht.get?_eq_some hkey).2 ⟨hrow, hc⟩), fun heq => ?_⟩
      rw [heq]
      exact Std.ReflOrd.compare_self
    have hkeyOf (row : Row) : (t.restore key new).keyOf row = t.keyOf row := by
      rw [Table.keyOf, Table.definition_restore]
      rfl
    simp only [get?_insert_self, hw.found, Option.some.injEq, exists_eq_left', true_and, hkeyOf,
      ht.mem_toList_restore hkey]
    constructor
    · intro hrow
      obtain ⟨row, hrow | ⟨hrow, hne⟩, rfl⟩ := hrow
      · exact .inl ⟨Option.isSome_iff_exists.2 ⟨row, hrow⟩, hnew row hrow⟩
      · exact .inr ⟨⟨row, hrow, rfl⟩, (hother hrow).1 hne⟩
    · intro hrow
      rcases hrow with ⟨hsome, rfl⟩ | ⟨⟨row, hrow, rfl⟩, hne⟩
      · obtain ⟨row, hrow⟩ := Option.isSome_iff_exists.1 hsome
        exact ⟨row, .inl hrow, hnew row hrow⟩
      · exact ⟨row, .inr ⟨hrow, (hother hrow).2 hne⟩, rfl⟩
  · rw [get?_insert_of_ne (Ne.symm hm)]
    simp [hm]

namespace Change.Tells
variable {change : Change} (h : change.Tells tx tables t new tx' tables')
include h

theorem note : tx'.undo = ⟨t.name, change.key, t.get? change.key⟩ :: tx.undo := by
  rw [h.wrote.log]
  rfl

/-- The set of keys after the write that a change tells of is told by the change alone. -/
theorem primaryKeys (hs : s.KeysInOrder tables) (he : s.entity? e.name = some e)
    (hentity : change.entity = e.name)
    (hkey : change.key.Fits (s.classes e.name) e.idFields) :
    tables'.primaryKeys = change.replay tables.primaryKeys := by
  obtain ⟨n, kind, key⟩ := change
  obtain rfl : n = e.name := hentity
  have hfound := h.wrote.found
  have ht := hs.sorted he hfound
  have hfits : key.Fits (s.classes e.name) t.definition.keyPath := by rwa [hs.keyPath he hfound]
  have hafter : (t.restore key new).get? key = new := ht.rows.get?_restore hfits
  have hthere : ∀ row ∈ t.get? key, (e.name, key) ∈ tables.primaryKeys := fun row hrow =>
    ⟨t, hfound, row, Table.mem_toList_of_get? hrow, h.old row hrow⟩
  have hkind : kind.Tells (t.get? key) ((t.restore key new).get? key) := h.kind
  rw [hafter] at hkind
  ext p
  rw [h.wrote.mem_primaryKeys ht hfits h.old h.new]
  generalize t.get? key = before at hkind hthere
  cases hkind with
  | create row =>
    rw [Change.replay, Set.mem_insert_iff]
    constructor
    · exact fun hp => hp.imp (·.2) (·.1)
    · intro hp
      by_cases heq : p = (e.name, key)
      · exact .inl ⟨rfl, heq⟩
      · exact .inr ⟨hp.resolve_left heq, heq⟩
  | update old row =>
    rw [Change.replay]
    constructor
    · intro hp
      rcases hp with ⟨-, rfl⟩ | hp
      · exact hthere old rfl
      · exact hp.1
    · intro hp
      by_cases heq : p = (e.name, key)
      · exact .inl ⟨rfl, heq⟩
      · exact .inr ⟨hp, heq⟩
  | delete old =>
    rw [Change.replay, Set.mem_sdiff, Set.mem_singleton_iff]
    simp

end Change.Tells

namespace Transaction.Records
variable {changes : List Change}

/-- Every write is in the undo log, which has no entry more. -/
theorem undo (h : tx.Records tables changes tx' tables') :
    tx'.undo.map (fun u => (u.table, u.key)) =
      (changes.map fun change => (change.entity, change.key)).reverse ++
        tx.undo.map fun u => (u.table, u.key) := by
  induction h with
  | none => simp
  | more before last ih =>
    rw [last.note, List.map_cons, ih, last.name]
    simp

end Transaction.Records

/-! ### The ledger of an operation -/

/-- The tables and the transaction that an operation begins with, of a schema in which nothing but
the creation of a row gives its primary key. -/
structure Ledger where
  schema : Schema
  tables : Tables
  transaction : Transaction
  resolved : schema.Resolved
  alone : schema.KeysAlone

namespace Ledger
variable {l : Ledger} {K K' B B' : Set (String × Key)} {w : Work}

/-- The changes record all writes so far, and lead to the primary keys that there are by now. -/
structure Tallies (l : Ledger) (w : Work) : Prop where
  sorted : l.schema.KeysInOrder w.tables
  records : l.transaction.Records l.tables w.changes w.transaction w.tables
  replayed : w.tables.primaryKeys = w.changes.foldl Change.replay l.tables.primaryKeys

/-- So far all is recorded, there are rows with the keys `K`, and the deletion of the rows with the
keys `B` has begun. -/
structure Stands (l : Ledger) (K B : Set (String × Key)) (w : Work) : Prop
    extends l.Tallies w where
  keys : K ⊆ w.tables.primaryKeys
  begun : ∀ p ∈ B, p ∈ w.deleting

/-- All will be recorded when the change is noted. -/
def Owes (l : Ledger) (K B : Set (String × Key)) (change : Change) (w : Work) : Prop :=
  l.Stands K B { w with changes := w.changes ++ [change] }

theorem Tallies.opened (hsorted : l.schema.KeysInOrder l.tables) (supply : Supply) :
    l.Tallies ⟨l.tables, l.transaction, supply, [], []⟩ :=
  ⟨hsorted, .none, rfl⟩

theorem Stands.mono (h : l.Stands K B w) (hkeys : K' ⊆ K) (hbegun : B' ⊆ B) : l.Stands K' B' w :=
  ⟨h.toTallies, hkeys.trans h.keys, fun p hp => h.begun p (hbegun hp)⟩

theorem supplied_stands (l : Ledger) (K B : Set (String × Key)) : Work.Supplied (l.Stands K B) :=
  fun _ _ h => ⟨⟨h.sorted, h.records, h.replayed⟩, h.keys, h.begun⟩

/-- A write that is noted for what it was. -/
theorem Tallies.wrote (h : l.Tallies w) (he : l.schema.entity? e.name = some e)
    (hw : w.transaction.Wrote w.tables e.name t key new tx' tables') {kind : ChangeKind}
    (hkind : kind.Tells (t.get? key) new) (hkey : key.Fits (l.schema.classes e.name) e.idFields)
    (hold : ∀ row ∈ t.get? key, t.keyOf row = key) (hnew : ∀ row ∈ new, t.keyOf row = key)
    (supply : Supply) (deleting : List (String × Key)) :
    l.Tallies ⟨tables', tx', supply, w.changes ++ [⟨e.name, kind, key⟩], deleting⟩ := by
  have hpath : t.definition.keyPath = e.idFields := h.sorted.keyPath he hw.found
  have hafter : (t.restore key new).get? key = new :=
    (h.sorted.sorted he hw.found).rows.get?_restore (by rwa [hpath])
  have htells : Change.Tells ⟨e.name, kind, key⟩ w.transaction w.tables t new tx' tables' :=
    ⟨hw, h.sorted.name hw.found, by rwa [hafter], hold, hnew⟩
  refine ⟨h.sorted.wrote he hw hkey hnew, h.records.more htells, ?_⟩
  rw [htells.primaryKeys h.sorted he rfl hkey, h.replayed, List.foldl_append]
  rfl

theorem Tallies.primaryKeys_eq (h : l.Tallies w) {w' : Work} {change : Change} (h' : l.Tallies w')
    (hchanges : w'.changes = w.changes ++ [change]) :
    w'.tables.primaryKeys = change.replay w.tables.primaryKeys := by
  rw [h'.replayed, hchanges, List.foldl_append, ← h.replayed]
  rfl

/-! Each of the three writes, with the change that is noted after it. -/

theorem Stands.add (h : l.Stands K B w) (he : l.schema.entity? e.name = some e)
    (hrow : row.Obeys l.schema.KeyWithin e.name)
    (hadd : w.transaction.add w.tables e.name row = .ok (key, tx', tables')) :
    l.Owes K B ⟨e.name, .create, key⟩ ⟨tables', tx', w.supply, w.changes, w.deleting⟩ := by
  obtain ⟨t, hw, rfl, -⟩ := Transaction.add_ok hadd
  have hfree := Transaction.get?_of_add hadd hw.found
  have hkey : (t.keyOf row).Fits (l.schema.classes e.name) e.idFields := by
    rw [h.sorted.keyOf he hw.found]
    exact hrow.fits_keyOf he
  have hold : ∀ row' ∈ t.get? (t.keyOf row), t.keyOf row' = t.keyOf row := by simp [hfree]
  have hnew : ∀ row' ∈ some row, t.keyOf row' = t.keyOf row := by simp
  have hkind : ChangeKind.create.Tells (t.get? (t.keyOf row)) (some row) := by
    rw [hfree]
    exact .create row
  have hnow := h.wrote he hw hkind hkey hold hnew w.supply w.deleting
  refine ⟨hnow, fun p hp => ?_, h.begun⟩
  rw [h.primaryKeys_eq hnow rfl]
  exact .inr (h.keys hp)

/-- A row that is put in place of one with its key. -/
theorem Stands.put (h : l.Stands K B w) (he : l.schema.entity? e.name = some e)
    (hthere : (e.name, e.keyOf row) ∈ w.tables.primaryKeys)
    (hput : w.transaction.put w.tables e.name row = .ok (key, tx', tables')) :
    key = e.keyOf row ∧
      l.Owes K B ⟨e.name, .update, key⟩ ⟨tables', tx', w.supply, w.changes, w.deleting⟩ := by
  obtain ⟨t, hw, rfl, -⟩ := Transaction.put_ok hput
  rw [← h.sorted.keyOf he hw.found] at hthere ⊢
  obtain ⟨old, hold, hkeyOf⟩ := h.sorted.get?_of_mem he hw.found hthere
  have hnew : ∀ row' ∈ some row, t.keyOf row' = t.keyOf row := by simp
  have hkind : ChangeKind.update.Tells (t.get? (t.keyOf row)) (some row) := by
    rw [hold]
    exact .update old row
  have hown : ∀ row' ∈ t.get? (t.keyOf row), t.keyOf row' = t.keyOf row := by
    rw [hold]
    simpa using hkeyOf
  have hnow := h.wrote he hw hkind (h.sorted.fits he hthere) hown hnew w.supply w.deleting
  refine ⟨rfl, hnow, fun p hp => ?_, h.begun⟩
  rw [h.primaryKeys_eq hnow rfl]
  exact h.keys hp

/-- The key of the row that is deleted is not there any more, but all others are. -/
theorem Stands.delete (h : l.Stands (insert (e.name, key) K) B w)
    (he : l.schema.entity? e.name = some e) (hother : (e.name, key) ∉ K) {old : Option Row}
    (hdelete : w.transaction.delete w.tables e.name key = .ok (old, tx', tables')) :
    l.Owes K B ⟨e.name, .delete, key⟩ ⟨tables', tx', w.supply, w.changes, w.deleting⟩ := by
  have hthere : (e.name, key) ∈ w.tables.primaryKeys := h.keys (Set.mem_insert _ K)
  obtain ⟨t, hfound, rfl, hcase⟩ := Transaction.delete_ok hdelete
  obtain ⟨row, hrow, hkeyOf⟩ := h.sorted.get?_of_mem he hfound hthere
  have hw : w.transaction.Wrote w.tables e.name t key none tx' tables' := by
    rcases hcase with ⟨hnone, -⟩ | ⟨-, hw⟩
    · rw [hrow] at hnone
      cases hnone
    · exact hw
  have hkind : ChangeKind.delete.Tells (t.get? key) none := by
    rw [hrow]
    exact .delete row
  have hown : ∀ row' ∈ t.get? key, t.keyOf row' = key := by
    rw [hrow]
    simpa using hkeyOf
  have hnow := h.wrote he hw hkind (h.sorted.fits he hthere) hown (by simp) w.supply w.deleting
  refine ⟨hnow, fun p hp => ?_, h.begun⟩
  rw [h.primaryKeys_eq hnow rfl]
  refine ⟨h.keys (Set.mem_insert_of_mem _ hp), fun heq => hother ?_⟩
  rwa [← Set.mem_singleton_iff.1 heq]

end Ledger

end RelationalStore

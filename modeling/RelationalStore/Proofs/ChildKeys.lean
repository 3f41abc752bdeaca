import Mathlib.Order.CompletePartialOrder
import RelationalStore.Proofs.FocusedTables
import RelationalStore.Proofs.UniqueSelectors

/- Which rows reference which parent while the rows of one to-many relation are written. A row that
   is written references the parent from then on, or none, and no other row is touched; so of the
   primary keys of the rows that reference the parent (`Tables.linked`) some go and some are new
   (`Schema.Regroups`), and any other parent only loses those that are new there. One lemma says
   this of each single write and one of each part of the write data, whose steps add up
   (`Regroups.trans`). -/
namespace RelationalStore
open SortedMap Read Operation

variable {s : Schema} {e target : Entity} {r : Relation}

/-! ### The relation -/

/-- The relation leads to many rows, which hold the primary key of the entity, its fields in some order,
in distinct fields of the same kinds. None of these is a part of their own primary key or has the time
of the last write, and neither primary key has a field with that time. The indexes of the table of the
rows have names of their own. -/
structure Schema.ChildKey (s : Schema) (e : Entity) (r : Relation) (target : Entity) : Prop where
  entity : s.entity? e.name = some e
  relation : r ∈ e.relations
  many : r.isToMany = true
  leads : s.entity? r.target = some target
  near : ∀ f, f ∈ r.near ↔ f ∈ e.idFields
  kinds : ∀ p ∈ r.near.zip r.far, (e.field? p.1).map (·.kind) = (target.field? p.2).map (·.kind)
  distinct : r.far.Nodup
  apart : ∀ f ∈ r.far, f ∉ target.idFields ∧ f ∉ target.stamps
  parents : ∀ f ∈ e.idFields, f ∉ e.stamps
  children : ∀ f ∈ target.idFields, f ∉ target.stamps
  names : (target.tableDef.indexes.map (·.name)).Nodup

/-- What such a write can change in rows that are there: the foreign key and the times of the last
write. -/
def Schema.Shifts (s : Schema) (e : Entity) (r : Relation) (target : Entity) (n f : String) : Prop :=
  n = target.name ∧ f ∈ r.far ∨ (n = e.name ∨ n = target.name) ∧ s.Stamps n f

/-- There is an index over a foreign key that is not the primary key. -/
theorem Entity.exists_keyIndex {o : Relation} (ho : o ∈ e.owningRelations) (hother : o.near ≠ e.idFields) :
    ∃ i ∈ e.tableDef.indexes, i.fields = o.near := by
  have hall (relations : List Relation) (ho : o ∈ relations) (indexes : List IndexDef) :
      ∃ i ∈ relations.foldl (addKeyIndex e.idFields) indexes, i.fields = o.near := by
    induction relations generalizing indexes with
    | nil => cases ho
    | cons r rest ih =>
      rcases List.mem_cons.1 ho with rfl | ho
      · have hadded : ∃ i ∈ addKeyIndex e.idFields indexes o, i.fields = o.near := by
          unfold addKeyIndex
          split
          · next hcovered =>
            obtain ⟨i, hi, hfields⟩ := List.any_eq_true.1 (hcovered.resolve_left hother)
            exact ⟨i, hi, by simpa using hfields⟩
          · exact ⟨_, List.mem_append_right _ (List.mem_singleton_self _), rfl⟩
        obtain ⟨i, hi, hfields⟩ := hadded
        refine ⟨i, ?_, hfields⟩
        rw [List.foldl_cons]
        exact subset_foldl_addKeyIndex hi
      · exact ih ho _
  exact hall _ ho _

theorem Schema.stamps_iff {c : Entity} (hc : s.entity? c.name = some c) {f : String} :
    s.Stamps c.name f ↔ f ∈ c.stamps := by
  simp [Stamps, hc]

namespace Schema.ChildKey
variable (h : s.ChildKey e r target)
include h

theorem isOwning : r.isOwning = false := by
  have hmany : r.cardinality = .many := by simpa [Relation.isToMany] using h.many
  rw [Relation.isOwning, hmany]
  rfl

section
variable (hs : s.Resolved)
include hs

theorem name : r.target = target.name := (hs.name h.leads).symm

theorem child : s.entity? target.name = some target := by rw [← h.name hs, h.leads]

theorem held : s.Held r target := ⟨h.child hs, (h.name hs).symm, h.isOwning, e, h.entity, h.relation⟩

theorem far_ne : r.far ≠ target.idFields := by
  intro heq
  obtain ⟨f, hf⟩ := List.exists_mem_of_ne_nil _ (hs.idFields (h.child hs)).2
  exact (h.apart f (by rwa [heq])).1 hf

theorem exists_index : ∃ i ∈ target.tableDef.indexes, i.fields = r.far := by
  obtain ⟨o, ho, hnear, -⟩ := (h.held hs).exists_owner hs
  obtain ⟨i, hi, hfields⟩ := Entity.exists_keyIndex ho (by rw [hnear]; exact h.far_ne hs)
  exact ⟨i, hi, hfields.trans hnear⟩

/-- A primary key keeps to the classes of the foreign key. -/
theorem fits_far {key : Key} (hkey : key.Fits (s.classes e.name) r.near) :
    key.Fits (s.classes target.name) r.far := by
  intro i v hv
  have hwithin := hkey i v hv
  have hlen := (h.held hs).length_far hs
  rcases Nat.lt_or_ge i r.near.length with hi | hi
  · have hfar : i < r.far.length := hlen ▸ hi
    have hmem : (r.near[i], r.far[i]) ∈ r.near.zip r.far := by
      rw [← List.getElem_zip (h := by simp [hi, hfar])]
      exact List.getElem_mem _
    have hkind := h.kinds _ hmem
    rw [List.getElem?_eq_getElem hi] at hwithin
    rw [List.getElem?_eq_getElem hfar]
    simp only [Option.elim_some] at hwithin ⊢
    have hclass : s.classes target.name r.far[i] = s.classes e.name r.near[i] := by
      rw [Schema.classes, Schema.classes, h.entity, h.child hs, Option.bind_some, Option.bind_some]
      cases hnear : e.field? r.near[i] <;> cases hfield : target.field? r.far[i] <;>
        simp [hnear, hfield] at hkind ⊢
      rw [hkind]
    rwa [hclass]
  · rw [List.getElem?_eq_none (by omega)]
    rwa [List.getElem?_eq_none hi] at hwithin

omit hs in
/-- Two rows of the entity have one key if it is the same as it is referenced. -/
theorem compare_near {x y : Row} : compare (Key.ofRow r.near x) (Key.ofRow r.near y) = .eq ↔
    compare (e.keyOf x) (e.keyOf y) = .eq := by
  simp only [Entity.keyOf, Key.compare_ofRow, h.near]

/-- What can change is no part of a primary key. -/
theorem steady : s.Steady (s.Shifts e r target) := by
  intro c hc f hf hshifts
  rcases hshifts with ⟨hname, hfar⟩ | ⟨hname | hname, hstamp⟩
  · cases Schema.entity_inj hc (h.child hs) hname
    exact (h.apart f hfar).1 hf
  · cases Schema.entity_inj hc h.entity hname
    exact h.parents f hf ((Schema.stamps_iff hc).1 hstamp)
  · cases Schema.entity_inj hc (h.child hs) hname
    exact h.children f hf ((Schema.stamps_iff hc).1 hstamp)

end

end Schema.ChildKey

/-! ### Rows that reference a parent -/

/-- The primary keys of the rows whose foreign key is equal to a key. -/
def Tables.linked (tables : Tables) (r : Relation) (target : Entity) (key : Key) : Set Key :=
  {k | ∃ y, tables.Has target.name y ∧ target.keyOf y = k ∧ compare (Key.ofRow r.far y) key = .eq}

/-- The rows of both ends can be found: those of the one by their keys, those of the other also by the
foreign key. -/
structure Schema.Traces (s : Schema) (e : Entity) (r : Relation) (target : Entity) (tables : Tables) :
    Prop where
  parents : s.FindsBy e [] tables
  children : s.FindsBy target r.far tables

section
variable {tables : Tables} (hs : s.Resolved) (hkey : s.ChildKey e r target)
include hs hkey

theorem Schema.Traces.ofRow_fits (h : s.Traces e r target tables) {y : Row}
    (hy : tables.Has target.name y) : (Key.ofRow r.far y).Fits (s.classes target.name) r.far :=
  Row.Fits.key fun f hf => h.children.fits (.inr (hkey.exists_index hs)) hy f (List.mem_append_right _ hf)

omit hs in
theorem Schema.Traces.near_fits (h : s.Traces e r target tables) {x : Row} (hx : tables.Has e.name x) :
    (Key.ofRow r.near x).Fits (s.classes e.name) r.near :=
  Row.Fits.key fun f hf =>
    h.parents.fits (.inl rfl) hx f (List.mem_append_left _ ((hkey.near f).1 hf))

omit hs in
theorem Schema.Traces.near_nonnull (h : s.Traces e r target tables) {x : Row}
    (hx : tables.Has e.name x) : (Key.ofRow r.near x).hasNull = false :=
  Key.hasNull_ofRow.2 fun f hf =>
    Key.hasNull_ofRow.1 (h.parents.keyOf_nonnull hx) f ((hkey.near f).1 hf)

/-- Equal keys are referenced by the same rows. -/
theorem Schema.Traces.linked_congr (h : s.Traces e r target tables) {key key' : Key}
    (hfits : key.Fits (s.classes e.name) r.near) (hfits' : key'.Fits (s.classes e.name) r.near)
    (hsame : compare key key' = .eq) : tables.linked r target key = tables.linked r target key' := by
  ext k
  refine exists_congr fun y => and_congr_right fun hy => and_congr_right fun _ => ?_
  rw [(Key.compare_isLE_trans (s.classes target.name) r.far).congr_right (h.ofRow_fits hs hkey hy)
    (hkey.fits_far hs hfits) (hkey.fits_far hs hfits') hsame]

end

/-- From tables to others, of the rows that reference the parent with a key those of `gone` have gone
and those of `new` are new, which any other parent has lost. -/
structure Schema.Regroups (s : Schema) (e : Entity) (r : Relation) (target : Entity) (key : Key)
    (tables : Tables) (gone new : Set Key) (made : List (String × Key)) (tables' : Tables) : Prop where
  traces : s.Traces e r target tables'
  retains : s.Retains (s.Shifts e r target) tables tables'
  makes : s.Makes tables made tables'
  own : tables'.linked r target key = (tables.linked r target key \ gone) ∪ new
  others : ∀ other : Key, other.Fits (s.classes e.name) r.near → other.hasNull = false →
    compare other key ≠ .eq → tables'.linked r target other = tables.linked r target other \ new

/-- Where no key may change, what is retained twice is retained. -/
theorem Schema.Retains.trans_steady {fluid : String → String → Prop} {a b c : Tables}
    (hsteady : s.Steady fluid) (h : s.Retains fluid a b) (h' : s.Retains fluid b c) :
    s.Retains fluid a c := by
  intro e he x hx
  obtain ⟨y, hy, -, hsame⟩ := h e he x hx
  obtain ⟨z, hz, -, hsame'⟩ := h' e he y hy
  have hall (f : String) (hf : ¬ fluid e.name f) : z.value f = x.value f :=
    (hsame' f hf).trans (hsame f hf)
  refine ⟨z, hz, ?_, hall⟩
  rw [hsteady.keyOf_eq he hall]
  exact Std.ReflOrd.compare_self

namespace Schema.Regroups
variable {key : Key} {T T' T'' : Tables} {gone gone' new new' : Set Key}
  {made more : List (String × Key)}

theorem refl (h : s.Traces e r target T) : s.Regroups e r target key T ∅ ∅ [] T where
  traces := h
  retains := .refl s _ T
  makes := .nil s T
  own := by simp
  others := by simp

theorem trans (hs : s.Resolved) (hkey : s.ChildKey e r target)
    (h : s.Regroups e r target key T gone new made T')
    (h' : s.Regroups e r target key T' gone' new' more T'') (hapart : Disjoint new gone') :
    s.Regroups e r target key T (gone ∪ gone') (new ∪ new') (made ++ more) T'' where
  traces := h'.traces
  retains := h.retains.trans_steady (hkey.steady hs) h'.retains
  makes := h.makes.append (hkey.steady hs) h'.makes h.retains h'.retains
  own := by
    rw [h'.own, h.own, Set.union_sdiff_distrib, hapart.sdiff_eq_left, Set.sdiff_sdiff, Set.union_assoc]
  others other hfits hnull hne := by
    rw [h'.others other hfits hnull hne, h.others other hfits hnull hne, Set.sdiff_sdiff]

end Schema.Regroups

/-! ### Single writes -/

/-- A row of the target is stored under its key, which no other row has. -/
structure Schema.Places (s : Schema) (e : Entity) (r : Relation) (target : Entity) (row : Row)
    (tables : Tables) (made : List (String × Key)) (tables' : Tables) : Prop where
  traces : s.Traces e r target tables'
  retains : s.Retains (s.Shifts e r target) tables tables'
  makes : s.Makes tables made tables'
  mem_linked : ∀ key k, k ∈ tables'.linked r target key ↔
    k = target.keyOf row ∧ compare (Key.ofRow r.far row) key = .eq ∨
      k ∈ tables.linked r target key ∧ k ≠ target.keyOf row

namespace Schema
variable {tx tx' : Transaction} {T T' : Tables} {key k : Key} {row child : Row}
  {made : List (String × Key)}

/-- Only a row with the very same key is replaced. -/
theorem mem_linked_of_stores (h : target.Stores row T T')
    (hown : ∀ y, T.Has target.name y → compare (target.keyOf row) (target.keyOf y) = .eq →
      target.keyOf y = target.keyOf row) (key k : Key) :
    k ∈ T'.linked r target key ↔
      k = target.keyOf row ∧ compare (Key.ofRow r.far row) key = .eq ∨
        k ∈ T.linked r target key ∧ k ≠ target.keyOf row := by
  constructor
  · intro hk
    obtain ⟨y, hy, rfl, href⟩ := hk
    rcases (h _ _).1 hy with ⟨-, rfl⟩ | ⟨hy, hne⟩
    · exact .inl ⟨rfl, href⟩
    · refine .inr ⟨⟨y, hy, rfl, href⟩, fun heq => hne rfl ?_⟩
      rw [heq]
      exact Std.ReflOrd.compare_self
  · intro hk
    rcases hk with ⟨rfl, href⟩ | ⟨⟨y, hy, rfl, href⟩, hne⟩
    · exact ⟨row, h.has, rfl, href⟩
    · exact ⟨y, (h _ _).2 (.inr ⟨hy, fun _ hc => hne (hown y hy hc)⟩), rfl, href⟩

section
variable (hs : s.Resolved) (hkey : s.ChildKey e r target)
include hs hkey

/-- Rows of the target are written under their own keys. -/
theorem Traces.wrote (h : s.Traces e r target T) {t : Table}
    (hw : tx.Wrote T target.name t (t.keyOf row) (some row) tx' T')
    (hnull : (t.keyOf row).hasNull = false)
    (hrow : row.Fits (s.classes target.name) (target.idFields ++ r.far)) :
    s.Traces e r target T' ∧ target.Stores row T T' := by
  have hids : row.Fits (s.classes target.name) target.idFields := fun f hf =>
    hrow f (List.mem_append_left _ hf)
  refine ⟨⟨h.parents.wrote hw hnull fun hname f hf => ?_, h.children.wrote hw hnull fun _ => hrow⟩,
    h.children.stores hw hids⟩
  obtain rfl := entity_inj (hkey.child hs) hkey.entity hname
  exact hids f (by simpa using hf)

/-- The row of the target that has its key is put in place of another. -/
theorem Traces.put (h : s.Traces e r target T) (hchild : T.Has target.name child)
    (hsame : ∀ f, f ∉ r.far → f ∉ target.stamps → row.value f = child.value f)
    (hfar : row.Fits (s.classes target.name) r.far)
    (hput : tx.put T target.name row = .ok (key, tx', T')) : s.Places e r target row T [] T' := by
  have hids (f : String) (hf : f ∈ target.idFields) : row.value f = child.value f :=
    hsame f (fun hfar => (hkey.apart f hfar).1 hf) (hkey.children f hf)
  have hkeyOf : target.keyOf row = target.keyOf child := Key.ofRow_eq hids
  have hfits := h.children.fits (.inr (hkey.exists_index hs)) hchild
  obtain ⟨t, hw, rfl, hnull⟩ := Transaction.put_ok hput
  obtain ⟨htraces, hstores⟩ := h.wrote hs hkey hw hnull fun f hf => by
    rcases List.mem_append.1 hf with hid | hf
    · rw [hids f hid]
      exact hfits f hf
    · exact hfar f hf
  have hreplaced (y : Row) (hy : T.Has target.name y)
      (hc : compare (target.keyOf row) (target.keyOf y) = .eq) : y = child :=
    h.children.eq_of_keyOf hy hchild (by rw [← hkeyOf]; exact Std.OrientedCmp.eq_symm hc)
  refine ⟨htraces, hstores.retains (hkey.child hs) fun y hy hc f hf => ?_,
    hstores.makes_nil (hkey.child hs) ⟨child, hchild, hkeyOf.symm⟩,
    mem_linked_of_stores hstores fun y hy hc => ?_⟩
  · rw [hreplaced y hy hc]
    refine hsame f (fun hfar => hf (.inl ⟨rfl, hfar⟩)) fun hstamp => hf (.inr ⟨.inr rfl, ?_⟩)
    exact (stamps_iff (hkey.child hs)).2 hstamp
  · rw [hreplaced y hy hc, hkeyOf]

theorem Traces.add (h : s.Traces e r target T)
    (hrow : row.Fits (s.classes target.name) (target.idFields ++ r.far))
    (hadd : tx.add T target.name row = .ok (key, tx', T')) :
    s.Places e r target row T [(target.name, target.keyOf row)] T' := by
  obtain ⟨t, hw, rfl, hnull⟩ := Transaction.add_ok hadd
  obtain ⟨htraces, hstores⟩ := h.wrote hs hkey hw hnull hrow
  have hfree := Transaction.get?_of_add hadd hw.found
  have hnew (y : Row) (hy : T.Has target.name y) :
      compare (target.keyOf row) (target.keyOf y) ≠ .eq := by
    intro hc
    obtain ⟨u, hu, hy⟩ := hy
    cases hw.found.symm.trans hu
    have ht := h.children t hw.found
    have hids : (t.keyOf row).Fits (s.classes target.name) t.definition.keyPath := by
      rw [h.children.keyOf_eq hw.found, ht.definition]
      exact Row.Fits.key fun f hf => hrow f (List.mem_append_left _ hf)
    rw [← h.children.keyOf_eq hw.found, ← h.children.keyOf_eq hw.found] at hc
    rw [(ht.sorted.get?_eq_some hids).2 ⟨hy, hc⟩] at hfree
    cases hfree
  exact ⟨htraces, hstores.retains (hkey.child hs) fun y hy hc => absurd hc (hnew y hy),
    hstores.makes_one (hkey.child hs) hnew,
    mem_linked_of_stores hstores fun y hy hc => absurd hc (hnew y hy)⟩

end

/-! What becomes of the groups. -/

namespace Places
variable (h : s.Places e r target row T made T')
include h

/-- The row references the parent now. -/
theorem gains (hfar : Key.ofRow r.far row = key) :
    s.Regroups e r target key T ∅ {target.keyOf row} made T' where
  traces := h.traces
  retains := h.retains
  makes := h.makes
  own := by
    ext k
    have hself : compare key key = .eq := Std.ReflOrd.compare_self
    simp only [h.mem_linked, hfar, hself, and_true, Set.sdiff_empty, Set.mem_union, Set.mem_singleton_iff]
    tauto
  others other _ _ hne := by
    ext k
    have hne' : compare key other ≠ .eq := fun hc => hne (Std.OrientedCmp.eq_symm hc)
    simp [h.mem_linked, hfar, hne']

/-- A row that referenced the parent references nothing now. -/
theorem loses (hs : s.Resolved) (hkey : s.ChildKey e r target) (hT : s.Traces e r target T)
    (hmade : made = []) (hnull : (Key.ofRow r.far row).hasNull = true)
    (hchild : T.Has target.name child) (hkeyOf : target.keyOf row = target.keyOf child)
    (href : compare (Key.ofRow r.far child) key = .eq) (hfits : key.Fits (s.classes e.name) r.near)
    (hpresent : key.hasNull = false) :
    s.Regroups e r target key T {target.keyOf row} ∅ [] T' where
  traces := h.traces
  retains := h.retains
  makes := hmade ▸ h.makes
  own := by
    ext k
    have hne : compare (Key.ofRow r.far row) key ≠ .eq := fun hc => by
      rw [Key.hasNull_eq_of_compare hc, hpresent] at hnull
      cases hnull
    simp [h.mem_linked, hne]
  others other hother hnull' hother' := by
    ext k
    have hne : compare (Key.ofRow r.far row) other ≠ .eq := fun hc => by
      rw [Key.hasNull_eq_of_compare hc, hnull'] at hnull
      cases hnull
    simp only [h.mem_linked, hne, and_false, false_or, Set.sdiff_empty, and_iff_left_iff_imp]
    -- The row referenced the parent alone.
    rintro ⟨y, hy, rfl, hrefers⟩ heq
    obtain rfl := hT.children.eq_of_keyOf hy hchild (by
      rw [heq, hkeyOf]
      exact Std.ReflOrd.compare_self)
    exact hother' ((Key.compare_isLE_trans (s.classes target.name) r.far).eq_trans
      (hkey.fits_far hs hother) (hT.ofRow_fits hs hkey hy) (hkey.fits_far hs hfits)
      (Std.OrientedCmp.eq_symm hrefers) href)

/-- The row references what it did. -/
theorem unchanged (hT : s.Traces e r target T) (hmade : made = []) (hchild : T.Has target.name child)
    (hkeyOf : target.keyOf row = target.keyOf child)
    (hfar : Key.ofRow r.far row = Key.ofRow r.far child) (key : Key) :
    s.Regroups e r target key T ∅ ∅ [] T' := by
  have hlinked (key : Key) : T'.linked r target key = T.linked r target key := by
    ext k
    rw [h.mem_linked, hfar]
    constructor
    · rintro (⟨rfl, href⟩ | ⟨hk, -⟩)
      · exact ⟨child, hchild, hkeyOf.symm, href⟩
      · exact hk
    · rintro ⟨y, hy, rfl, href⟩
      by_cases heq : target.keyOf y = target.keyOf row
      · obtain rfl := hT.children.eq_of_keyOf hy hchild (by
          rw [heq, hkeyOf]
          exact Std.ReflOrd.compare_self)
        exact .inl ⟨heq, href⟩
      · exact .inr ⟨⟨y, hy, rfl, href⟩, heq⟩
  exact ⟨h.traces, h.retains, hmade ▸ h.makes, by simp [hlinked], fun other _ _ _ => by simp [hlinked]⟩

end Places

/-- The parent is put back with another time of the last write. -/
theorem Traces.put_parent (hs : s.Resolved) (hkey : s.ChildKey e r target) (h : s.Traces e r target T)
    {x : Row} (hx : T.Has e.name x) (hsame : ∀ f, f ∉ e.stamps → row.value f = x.value f)
    (hput : tx.put T e.name row = .ok (k, tx', T')) (key : Key) :
    s.Regroups e r target key T ∅ ∅ [] T' := by
  have hids (f : String) (hf : f ∈ e.idFields) : row.value f = x.value f := hsame f (hkey.parents f hf)
  have hkeyOf : e.keyOf row = e.keyOf x := Key.ofRow_eq hids
  by_cases hname : e.name = target.name
  · obtain rfl := entity_inj hkey.entity (hkey.child hs) hname
    have hfar (f : String) (hf : f ∈ r.far) : row.value f = x.value f := hsame f (hkey.apart f hf).2
    have hplaces := h.put hs hkey hx (fun f _ hf => hsame f hf) (fun f hf => by
      rw [hfar f hf]
      exact h.children.fits (.inr (hkey.exists_index hs)) hx f (List.mem_append_right _ hf)) hput
    exact hplaces.unchanged h rfl hx hkeyOf (Key.ofRow_eq hfar) key
  · have hrow : row.Fits (s.classes e.name) e.idFields := fun f hf => by
      rw [hids f hf]
      exact h.parents.fits (.inl rfl) hx f (List.mem_append_left _ hf)
    obtain ⟨t, hw, rfl, hnull⟩ := Transaction.put_ok hput
    have hstores := h.parents.stores hw hrow
    have hothers (y : Row) : T'.Has target.name y ↔ T.Has target.name y := by
      simp [hstores target.name y, Ne.symm hname]
    have hlinked (key : Key) : T'.linked r target key = T.linked r target key := by
      simp only [Tables.linked, hothers]
    refine ⟨⟨h.parents.wrote hw hnull fun _ => by simpa using hrow,
      h.children.wrote hw hnull fun heq => absurd heq hname⟩, ?_,
      hstores.makes_nil hkey.entity ⟨x, hx, hkeyOf.symm⟩, by simp [hlinked], fun other _ _ _ => by simp [hlinked]⟩
    refine hstores.retains hkey.entity fun y hy hc f hf => ?_
    obtain rfl := h.parents.eq_of_keyOf hy hx (by rw [← hkeyOf]; exact Std.OrientedCmp.eq_symm hc)
    exact hsame f fun hstamp => hf (.inr ⟨.inl rfl, (stamps_iff hkey.entity).2 hstamp⟩)

end Schema

end RelationalStore

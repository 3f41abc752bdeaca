import RelationalStore.Proofs.ChildKeys
import RelationalStore.Proofs.RecordedWrites
import RelationalStore.Proofs.SavedRequests

/- Rows that are connected to a parent and rows that are let go of, one by one as selectors find
   them. Such a row is put back with another foreign key, so it joins the rows that reference the
   parent or leaves them, and what the steps regroup adds up over the selectors. A selector is
   looked up when its turn comes, in tables that have the rows from before, as far as their lasting
   fields go, and those made by then (`Schema.Picks`). -/
namespace RelationalStore
open SortedMap Read Operation

variable {s : Schema} {e target : Entity} {r : Relation}

/-! ### Parts of the write data -/

namespace Operation
variable {T : Tables} {α : Type} {key : Key}

theorem leaves_putRow {c : Entity} {row : Row} {Q : Key → Tables → Prop}
    (h : ∀ tx key tx' T', Transaction.put tx T c.name row = .ok (key, tx', T') → Q key T') :
    Leaves T (putRow c row) Q :=
  Triple.get fun w hw => Triple.settle (.of_ok (fun r hput => by
    rw [hw] at hput
    exact h _ _ _ _ hput) fun _ _ => trivial)

theorem leaves_changeRow {c : Entity} {row : Row} {Q : Tables → Prop}
    (h : ∀ tx key tx' T', Transaction.put tx T c.name row = .ok (key, tx', T') → Q T') :
    Leaves T (changeRow c row) fun _ => Q :=
  Triple.bind (leaves_putRow (Q := fun _ => Q) h) fun _ => Triple.modify fun _ hw => hw

section
variable (hs : s.Resolved) (hkey : s.ChildKey e r target)
include hs hkey

/-- A row that was read is put back with another foreign key. -/
theorem leaves_rewrite (hT : s.Traces e r target T) {child row : Row} (hchild : T.Has target.name child)
    (hsame : ∀ f, f ∉ r.far → row.value f = child.value f)
    (hfar : row.Fits (s.classes target.name) r.far) :
    Leaves T (touch target row >>= changeRow target) fun _ T' => ∃ next : Row,
      target.keyOf next = target.keyOf child ∧ Key.ofRow r.far next = Key.ofRow r.far row ∧
        s.Places e r target next T [] T' := by
  refine .after (still_touch target row) fun next hnext => ?_
  obtain ⟨time, hnext⟩ := hnext
  have hplain {f : String} (hf : f ∉ target.stamps) : next.value f = row.value f := by
    rw [hnext, if_neg hf]
  have hfarSame (f : String) (hf : f ∈ r.far) : next.value f = row.value f := hplain (hkey.apart f hf).2
  refine leaves_changeRow fun tx _ tx' T' hput => ⟨next, Key.ofRow_eq fun f hf => ?_,
    Key.ofRow_eq hfarSame, hT.put hs hkey hchild (fun f hf hstamp => ?_) (fun f hf => ?_) hput⟩
  · exact (hplain (hkey.children f hf)).trans (hsame f fun hfar => (hkey.apart f hfar).1 hf)
  · exact (hplain hstamp).trans (hsame f hf)
  · rw [hfarSame f hf]
    exact hfar f hf

variable (hfits : key.Fits (s.classes e.name) r.near) (hpresent : key.hasNull = false)
include hfits

theorem leaves_connect (hT : s.Traces e r target T) {parent : Row}
    (hparent : Key.ofRow r.near parent = key) (selector : Filter) :
    Leaves T (connect s r target parent selector) fun _ T' => ∃ child : Row,
      (∃ tx, View.findUnique ⟨s, T, tx⟩ target selector = .ok (some child)) ∧
        s.Regroups e r target key T ∅ {target.keyOf child} [] T' := by
  refine .after (still_findToConnect s r target selector) fun child hchild => ?_
  refine .ite (fun hone => by simp [hkey.many] at hone) fun _ => ?_
  have hlink : Key.ofRow r.far (child.insertAll (r.childLink parent)) = key := by
    rw [(hkey.held hs).ofRow_childLink hs hkey.distinct, hparent]
  have hfar : Row.Fits (s.classes target.name) r.far (child.insertAll (r.childLink parent)) := by
    have hwithin := hkey.fits_far hs hfits
    rw [← hlink] at hwithin
    exact fun f hf => Key.Fits.value hwithin hf
  refine .mono (leaves_rewrite hs hkey hT hchild.1
    (fun f hf => Relation.value_childLink_of_notMem hf) hfar) fun _ T' h => ?_
  obtain ⟨next, hkeyOf, hsame, hplaces⟩ := h
  refine ⟨child, hchild.2, ?_⟩
  rw [← hkeyOf]
  exact hplaces.gains (hsame.trans hlink)

include hpresent

theorem leaves_unlink (hT : s.Traces e r target T) {child : Row} (hchild : T.Has target.name child)
    (href : compare (Key.ofRow r.far child) key = .eq) :
    Leaves T (unlink r target child) fun _ T' =>
      s.Regroups e r target key T {target.keyOf child} ∅ [] T' := by
  simp only [unlink]
  split
  · exact .throw
  · have hvalue := Row.value_foldl_null r.far child
    refine .mono (leaves_rewrite hs hkey hT hchild (fun f hf => by rw [hvalue, if_neg hf])
      fun f hf => by rw [hvalue, if_pos hf]; rfl) fun _ T' h => ?_
    obtain ⟨next, hkeyOf, hfar, hplaces⟩ := h
    rw [← hkeyOf]
    refine hplaces.loses hs hkey hT rfl ?_ hchild hkeyOf href hfits hpresent
    obtain ⟨o, ho, hnear, -⟩ := (hkey.held hs).exists_owner hs
    obtain ⟨f, hf⟩ := List.exists_mem_of_ne_nil _ (hs.key (hkey.child hs) o ho).1
    rw [hnear] at hf
    rw [hfar]
    exact List.any_eq_true.2 ⟨_, List.mem_map_of_mem hf, by rw [hvalue, if_pos hf]; rfl⟩

end

end Operation

/-! ### Rows that are selected -/

/-- The primary keys of the rows that were found. -/
def Entity.foundKeys (e : Entity) (found : List (Option Row)) : Set Key :=
  {k | ∃ x, some x ∈ found ∧ e.keyOf x = k}

namespace Entity

theorem foundKeys_some (e : Entity) (x : Row) : e.foundKeys [some x] = {e.keyOf x} := by
  ext k
  simp [foundKeys, eq_comm]

theorem foundKeys_none (e : Entity) : e.foundKeys [none] = ∅ := by simp [foundKeys]

theorem foundKeys_each (e : Entity) (found : List (Option Row)) :
    {k | ∃ x ∈ found, k ∈ e.foundKeys [x]} = e.foundKeys found := by
  ext k
  simp [foundKeys]

end Entity

/-- The selector finds the row, or none, in tables on the way from some to others, where these rows had
been made. -/
def Schema.Picks (s : Schema) (fluid : String → String → Prop) (before : Tables)
    (made : List (String × Key)) (after : Tables) (target : Entity) (selector : Filter)
    (found : Option Row) : Prop :=
  ∃ T tx, s.Retains fluid before T ∧ s.Makes before made T ∧ s.Retains fluid T after ∧
    View.findUnique ⟨s, T, tx⟩ target selector = .ok found

section
variable {fluid : String → String → Prop} {a b c d : Tables} {made more : List (String × Key)}

/-- What is found between two points is found on a longer way. -/
theorem Schema.Picks.wider (hsteady : s.Steady fluid) {selector : Filter} {found : Option Row}
    (h : s.Picks fluid b more c target selector found) (hab : s.Retains fluid a b)
    (hmade : s.Makes a made b) (hcd : s.Retains fluid c d) :
    s.Picks fluid a (made ++ more) d target selector found := by
  obtain ⟨T, tx, hbT, hmore, hTc, hfound⟩ := h
  exact ⟨T, tx, hab.trans_steady hsteady hbT, hmade.append hsteady hmore hab hbT,
    hTc.trans_steady hsteady hcd, hfound⟩

end

namespace Operation
variable {T : Tables} {α β : Type} {key : Key}

theorem Leaves.pure {a : α} {Q : α → Tables → Prop} (h : Q a T) : Leaves T (Pure.pure a) Q :=
  Triple.pure fun w hw => by rwa [hw]

theorem Leaves.bind {x : Operation β} {f : β → Operation α} {R : β → Tables → Prop}
    {Q : α → Tables → Prop} (hx : Leaves T x R) (hf : ∀ b T', R b T' → Leaves T' (f b) Q) :
    Leaves T (x >>= f) Q :=
  Triple.bind hx fun b => Triple.of_eq fun w hw => Triple.mono (hf b w.tables hw)
    (fun _ h => by rw [h]) (fun _ _ h => h) fun _ _ h => h

section
variable (hs : s.Resolved) (hkey : s.ChildKey e r target)
include hs hkey

/-- What is done for each selector in its turn, with the row that it finds. -/
theorem leaves_selectors (key : Key) (gone new : Option Row → Set Key) {D : Option Row → Prop}
    {f : Filter → Operation Unit} (hapart : ∀ a b, Disjoint (new a) (gone b))
    (hf : ∀ selector T, s.Traces e r target T → Leaves T (f selector) fun _ T' => ∃ found tx,
      View.findUnique ⟨s, T, tx⟩ target selector = .ok found ∧ D found ∧
        s.Regroups e r target key T (gone found) (new found) [] T')
    (selectors : List Filter) (hT : s.Traces e r target T) :
    Leaves T (selectors.forM f) fun _ T' => ∃ found : List (Option Row),
      List.Forall₂ (fun selector x =>
        s.Picks (s.Shifts e r target) T [] T' target selector x ∧ D x) selectors found ∧
      s.Regroups e r target key T {k | ∃ x ∈ found, k ∈ gone x} {k | ∃ x ∈ found, k ∈ new x} [] T' := by
  induction selectors generalizing T with
  | nil =>
    exact .pure ⟨[], .nil, by simpa using Schema.Regroups.refl hT⟩
  | cons selector rest ih =>
    refine .bind (hf selector T hT) fun _ T₁ h => .mono (ih (T := T₁) ?_) fun _ T₂ h' => ?_
    · obtain ⟨_, _, _, _, h⟩ := h
      exact h.traces
    · obtain ⟨x, tx, hx, hD, h⟩ := h
      obtain ⟨found, hfound, h'⟩ := h'
      have hsteady := hkey.steady hs
      refine ⟨x :: found, .cons ⟨⟨T, tx, .refl s _ T, .nil s T, ?_, hx⟩, hD⟩ ?_, ?_⟩
      · exact h.retains.trans_steady hsteady h'.retains
      · exact hfound.imp fun _ _ hpick =>
          ⟨hpick.1.wider hsteady h.retains h.makes (.refl s _ T₂), hpick.2⟩
      · have happart : Disjoint (new x) {k | ∃ y ∈ found, k ∈ gone y} := by
          refine Set.disjoint_left.2 fun k hk hgone => ?_
          obtain ⟨y, -, hgone⟩ := hgone
          exact Set.disjoint_left.1 (hapart x y) hk hgone
        have hboth := h.trans hs hkey h' happart
        have hunion (G : Option Row → Set Key) :
            G x ∪ {k | ∃ y ∈ found, k ∈ G y} = {k | ∃ y ∈ x :: found, k ∈ G y} := by
          ext k
          simp
        rwa [hunion, hunion] at hboth

variable (hfits : key.Fits (s.classes e.name) r.near) (hpresent : key.hasNull = false)
  {parent : Row} (hparent : Key.ofRow r.near parent = key)
include hfits hparent

theorem leaves_connectAll (selectors : List Filter) (hT : s.Traces e r target T) :
    Leaves T (selectors.forM (connect s r target parent)) fun _ T' => ∃ found : List (Option Row),
      List.Forall₂ (fun selector x =>
        s.Picks (s.Shifts e r target) T [] T' target selector x ∧ x.isSome) selectors found ∧
      s.Regroups e r target key T ∅ (target.foundKeys found) [] T' := by
  refine .mono (leaves_selectors hs hkey key (D := fun x => x.isSome) (fun _ => ∅)
    (fun x => target.foundKeys [x]) (by simp) (fun selector T hT => ?_) selectors hT) fun _ _ h => ?_
  · refine .mono (leaves_connect hs hkey hfits hT hparent selector) fun _ T' h => ?_
    obtain ⟨child, ⟨tx, hchild⟩, h⟩ := h
    exact ⟨some child, tx, hchild, rfl, by rwa [target.foundKeys_some]⟩
  · obtain ⟨found, hfound, h⟩ := h
    exact ⟨found, hfound, by simpa [target.foundKeys_each] using h⟩

include hpresent

/-- A row that is not related stays as it is, and its key is no key of a related row. -/
theorem leaves_disconnect (selectors : List Filter) (hT : s.Traces e r target T) :
    Leaves T (disconnect s e r target parent (.records selectors)) fun _ T' =>
      ∃ found : List (Option Row),
        List.Forall₂ (s.Picks (s.Shifts e r target) T [] T' target) selectors found ∧
        s.Regroups e r target key T (target.foundKeys found) ∅ [] T' := by
  refine .ite (fun _ => .throw) fun _ => ?_
  refine .mono (leaves_selectors hs hkey key (D := fun _ => True) (fun x => target.foundKeys [x])
    (fun _ => ∅) (by simp) (fun selector T hT => ?_) selectors hT) fun _ _ h => ?_
  · refine .after (still_look s _) fun found hfound => ?_
    obtain ⟨tx, hfound⟩ := hfound
    split
    · refine .pure ⟨none, tx, hfound, trivial, ?_⟩
      rw [target.foundKeys_none]
      exact .refl hT
    · next child =>
      have hchild : T.Has target.name child := by
        have hgives := (View.gives_has s T tx).findUnique target selector
        rw [hfound] at hgives
        exact hgives child rfl
      refine .ite (fun hrelated => ?_) fun hrelated => .pure ?_
      · rw [hparent, Key.equiv_iff] at hrelated
        refine .mono (leaves_unlink hs hkey hfits hpresent hT hchild hrelated) fun _ T' h => ?_
        exact ⟨some child, tx, hfound, trivial, by rwa [target.foundKeys_some]⟩
      · rw [hparent, Key.equiv_iff] at hrelated
        have hnot : target.keyOf child ∉ T.linked r target key := by
          intro hlinked
          obtain ⟨y, hy, heq, href⟩ := hlinked
          obtain rfl := hT.children.eq_of_keyOf hy hchild (by
            rw [heq]
            exact Std.ReflOrd.compare_self)
          exact hrelated href
        refine ⟨some child, tx, hfound, trivial, { Schema.Regroups.refl hT with own := ?_ }⟩
        rw [target.foundKeys_some, Set.sdiff_singleton_eq_self hnot, Set.union_empty]
  · obtain ⟨found, hfound, h⟩ := h
    exact ⟨found, hfound.imp fun _ _ hpick => hpick.1, by simpa [target.foundKeys_each] using h⟩

end

end Operation

end RelationalStore

import RelationalStore.Engine.Delete
import RelationalStore.Proofs.DeletionState

/- The deletion of a row keeps the tables underway and has begun, and so has that of every row that
   is deleted with it. Deletions are nested, and each one that is opened is of a row whose deletion
   had not begun; so there are always fewer rows left to begin with (`waiting`) than deletions may
   still be nested, and none is cut off (`ends_deleteWithin`). -/
namespace RelationalStore
open SortedMap

/-! ### A relation that leads to an entity -/

namespace Schema.Separate
variable {s : Schema} {κ : String → String → NumberClass} {tables : Tables} {e c : Entity}
  {r : Relation} {x y z : Row}
variable (hsep : s.Separate) (hs : s.Resolved) (he : s.entity? e.name = some e)
  (hc : s.entity? c.name = some c) (hr : r ∈ c.owningRelations) (htarget : r.target = e.name)
include hsep hs he hc hr htarget

theorem far_eq : r.far = e.idFields :=
  hsep.references c (hs.mem_values hc) r hr e (by rw [htarget, he]; rfl)

/-- Rows with one key are referenced alike. -/
theorem references_eq (hsame : e.keyOf y = e.keyOf x) :
    Key.ofRow (c.dependentOf r).references y = e.keyOf x := by
  rw [← hsame]
  show Key.ofRow r.far y = e.keyOf y
  rw [hsep.far_eq hs he hc hr htarget]
  rfl

theorem refers_iff : r.Refers z x ↔ compare (Key.ofRow r.near z) (e.keyOf x) = .eq := by
  rw [Relation.Refers, hsep.far_eq hs he hc hr htarget]
  rfl

/-- The key of a row keeps to the classes of what references it. -/
theorem fits_key (hkinds : s.KeysOfKinds) (h : s.Holds κ tables) (hx : x.Within (κ e.name)) :
    (e.keyOf x).Fits (κ c.name) r.near := by
  have hfits := h.fits_link hs hkinds hc hr (x := x) (by rwa [htarget])
  rwa [hsep.far_eq hs he hc hr htarget] at hfits

end Schema.Separate

namespace Operation
variable {α β : Type} {w : Work} {e : Entity} {key : Key} {row : Row}

/-- Whether the deletion of the row with a key has begun. -/
def hasBegun (begun : List (String × Key)) (n : String) (key : Key) : Bool :=
  begun.any fun (name, k) => name == n && k.equiv key

/-! ### Operations from one state -/

/-- What the operation ends with from one state, unless it fails. -/
abbrev Ends (w : Work) (op : Operation α) (Q : α → Work → Prop) : Prop :=
  Triple (· = w) op Q fun _ _ => True

namespace Ends
variable {Q : α → Work → Prop} {R : β → Work → Prop}

theorem pure {a : α} (h : Q a w) : Ends w (Pure.pure a) Q := by
  refine Triple.pure fun w' hw => ?_
  subst hw
  exact h

theorem bind {x : Operation β} {f : β → Operation α} (hx : Ends w x R)
    (hf : ∀ b w', R b w' → Ends w' (f b) Q) : Ends w (x >>= f) Q :=
  Triple.bind hx fun b => Triple.of_eq (hf b)

theorem mono {op : Operation α} {Q' : α → Work → Prop} (h : Ends w op Q')
    (hQ : ∀ a w', Q' a w' → Q a w') : Ends w op Q :=
  Triple.mono h (fun _ h => h) hQ fun _ _ h => h

theorem discard {x : Operation β} (hx : Ends w x R) :
    Ends w (Functor.discard x) fun _ w' => ∃ b, R b w' :=
  hx.bind fun b _ hb => pure ⟨b, hb⟩

end Ends

/-- What is kept from every state is kept from one. -/
theorem Keeps.ends {op : Operation α} {P : α → Prop} {E : Error → Prop} (h : Keeps (· = w) op P E) :
    Ends w op fun a w' => w' = w ∧ P a :=
  Triple.mono h (fun _ h => h) (fun _ _ h => h) fun _ _ _ => trivial

theorem ends_ofExcept (r : Except Error α) :
    Ends w (MonadExcept.ofExcept r) fun a w' => w' = w ∧ r = .ok a :=
  Triple.ofExcept fun _ hw => .of_ok (fun _ ha => ⟨hw, ha⟩) fun _ _ => trivial

theorem ends_look (s : Schema) (reading : View → Read α) :
    Ends w (look s reading) fun a w' => w' = w ∧ reading ⟨s, w.tables, w.transaction⟩ = .ok a := by
  refine Triple.look fun w' hw => ?_
  subst hw
  exact .of_ok (fun _ ha => ⟨rfl, ha⟩) fun _ _ => trivial

theorem ends_settle (outcome : Except Error (α × Transaction × Tables)) :
    Ends w (settle outcome) fun a w' => outcome = .ok (a, w'.transaction, w'.tables) ∧
      w'.deleting = w.deleting ∧ w'.supply = w.supply :=
  Triple.settle (.of_ok (fun _ hr => ⟨hr, rfl, rfl⟩) fun _ _ => trivial)

theorem ends_note (e : Entity) (kind : ChangeKind) (key : Key) :
    Ends w (note e kind key) fun _ w' =>
      w'.tables = w.tables ∧ w'.deleting = w.deleting ∧ w'.supply = w.supply := by
  refine Triple.modify fun w' hw => ?_
  subst hw
  exact ⟨rfl, rfl, rfl⟩

theorem ends_putRow (e : Entity) (row : Row) :
    Ends w (putRow e row) fun key w' =>
      w.transaction.put w.tables e.name row = .ok (key, w'.transaction, w'.tables) ∧
        w'.deleting = w.deleting ∧ w'.supply = w.supply := by
  refine Triple.get fun w' hw => ?_
  subst hw
  exact ends_settle _

theorem ends_deleteRow (e : Entity) (key : Key) :
    Ends w (deleteRow e key) fun _ w' =>
      (∃ old tx, w.transaction.delete w.tables e.name key = .ok (old, tx, w'.tables)) ∧
        w'.deleting = w.deleting ∧ w'.supply = w.supply := by
  refine Triple.get fun w' hw => ?_
  subst hw
  refine Ends.bind (ends_settle _).discard fun _ w₁ hsettle =>
    Ends.mono (ends_note e .delete key) fun _ w₂ hnote => ?_
  obtain ⟨old, hsettle, hkept⟩ := hsettle
  rw [hnote.1, hnote.2.1, hnote.2.2]
  exact ⟨⟨old, _, hsettle⟩, hkept⟩

/-- The clock is looked at once, and nothing can fail. -/
theorem ends_touch {E : Error → Work → Prop} (e : Entity) (row : Row) :
    Triple (· = w) (touch e row) (fun row' w' =>
      row' = (e.fields.filter (·.updatedAt)).foldl
        (fun row f => row.insert f.name (.datetime w.supply.now.1)) row ∧
        w' = { w with supply := w.supply.now.2 }) E := by
  intro w' hw
  subst hw
  exact ⟨rfl, rfl⟩

/-- A deletion begins or has begun, and nothing can fail. -/
theorem ends_beginDelete {E : Error → Work → Prop} (e : Entity) (key : Key) :
    Triple (· = w) (beginDelete e key) (fun fresh w' => hasBegun w.deleting e.name key = !fresh ∧
      w' = if fresh then { w with deleting := (e.name, key) :: w.deleting } else w) E := by
  refine Triple.get fun w' hw => Triple.ite (fun h => ?_) fun h => ?_
  · subst hw
    exact Triple.pure fun w₁ hw₁ => ⟨h, hw₁⟩
  · subst hw
    have hnew : hasBegun w'.deleting e.name key = false := by
      rw [← Bool.not_eq_true]
      exact h
    intro w₁ hw₁
    subst hw₁
    exact ⟨hnew, rfl⟩

/-! ### Tables underway -/

/-- The work is on tables that are underway. -/
abbrev During (s : Schema) (κ : String → String → NumberClass) (first : Tables) (n : String)
    (rows : List Row) (opened : List (String × Key)) (w : Work) : Prop :=
  s.Underway κ first n rows opened w.tables w.deleting

/-- The work has gone on. -/
abbrev Onward (s : Schema) (w w' : Work) : Prop := s.Later w.tables w.deleting w'.tables w'.deleting

theorem Onward.refl {s : Schema} (w : Work) : Onward s w w := Schema.Later.refl fun _ hp => hp

variable {s : Schema} {κ : String → String → NumberClass} {first : Tables} {n : String}
  {rows : List Row} {opened : List (String × Key)} {c : Entity} {r : Relation} {x y : Row}

/-- How many of some rows are such that their deletion has not begun. -/
def waiting (all : List (String × Key)) (begun : List (String × Key)) : Nat :=
  all.countP fun p => !hasBegun begun p.1 p.2

theorem hasBegun_mono {begun begun' : List (String × Key)} (h : ∀ p ∈ begun, p ∈ begun') {m : String}
    (hbegun : hasBegun begun m key = true) : hasBegun begun' m key = true := by
  obtain ⟨p, hp, heq⟩ := List.any_eq_true.1 hbegun
  exact List.any_eq_true.2 ⟨p, h p hp, heq⟩

theorem waiting_mono {all begun begun' : List (String × Key)} (h : ∀ p ∈ begun, p ∈ begun') :
    waiting all begun' ≤ waiting all begun := by
  refine List.countP_mono_left fun p _ hp => ?_
  rw [Bool.not_eq_true'] at hp ⊢
  rw [← Bool.not_eq_true] at hp ⊢
  exact fun hbegun => hp (hasBegun_mono h hbegun)

/-- When the deletion of one of the rows begins, one less waits. -/
theorem waiting_cons {all begun : List (String × Key)} {m : String} (hmem : (m, key) ∈ all)
    (hnew : hasBegun begun m key = false) : waiting all ((m, key) :: begun) < waiting all begun := by
  obtain ⟨before, after, rfl⟩ := List.append_of_mem hmem
  have hmono (l : List (String × Key)) : waiting l ((m, key) :: begun) ≤ waiting l begun :=
    waiting_mono fun p hp => List.mem_cons_of_mem _ hp
  have hbefore := hmono before
  have hafter := hmono after
  have hnow : hasBegun ((m, key) :: begun) m key = true := by
    simp [hasBegun, Key.equiv, Std.ReflOrd.compare_self]
  simp only [waiting, List.countP_append, List.countP_cons, hnow, hnew] at hbefore hafter ⊢
  simp
  omega

/-- Every row of an entity is among these. -/
def Covers (s : Schema) (all : List (String × Key)) (tables : Tables) : Prop :=
  ∀ c, s.entity? c.name = some c → ∀ z, tables.Has c.name z → (c.name, c.keyOf z) ∈ all

theorem Covers.later {all : List (String × Key)} {w' : Work} (h : Covers s all w.tables)
    (hon : Onward s w w') : Covers s all w'.tables := by
  intro c hc z' hz'
  obtain ⟨z, hz, hkey, -⟩ := hon.rows c hc z' hz'
  rw [← hkey]
  exact h c hc z hz

/-- The keys of all rows. -/
def rowKeys (tables : Tables) : List (String × Key) :=
  tables.values.flatMap fun t => t.toList.map fun row => (t.name, t.keyOf row)

/-- There is room for each row, and for each value of a row. -/
theorem extent_eq (tables : Tables) :
    tables.extent = (rowKeys tables).length +
      ((tables.values.flatMap Table.toList).flatMap SortedMap.values).length := by
  have hkeys : (rowKeys tables).length = (tables.values.flatMap Table.toList).length := by
    simp [rowKeys, List.length_flatMap]
  rw [hkeys, Tables.extent]

theorem covers_rowKeys (h : s.Holds κ w.tables) : Covers s (rowKeys w.tables) w.tables := by
  intro c hc z hz
  obtain ⟨t, ht, hrow⟩ := hz
  obtain ⟨p, hp, rfl⟩ := Option.map_eq_some_iff.1 ht
  have hvalue : p.2 ∈ w.tables.values := List.mem_map_of_mem (mem_of_entryAt? hp).1
  refine List.mem_flatMap.2 ⟨p.2, hvalue, List.mem_map.2 ⟨z, hrow, ?_⟩⟩
  rw [h.proper.name ht, h.tableDef hc ht]

/-! ### Rows that depend on a deleted one -/

/-- A loop over rows that were there at its start, of which some may have changed or gone by then. -/
theorem ends_forEachPresent {present : List Row} {f : Row → Operation Unit} {D : Row → Work → Prop}
    (hc : s.entity? c.name = some c) (hpresent : ∀ row ∈ present, w.tables.Has c.name row)
    (hstable : ∀ row w₁ w₂, Onward s w₁ w₂ → D row w₁ → D row w₂)
    (habsent : ∀ row ∈ present, ∀ w₁, During s κ first n rows opened w₁ →
      (∀ z, w₁.tables.Has c.name z → compare (c.keyOf row) (c.keyOf z) ≠ .eq) → D row w₁)
    (hthere : ∀ row ∈ present, ∀ w₁, During s κ first n rows opened w₁ → Onward s w w₁ →
      ∀ z, w₁.tables.Has c.name z → compare (c.keyOf row) (c.keyOf z) = .eq →
        Ends w₁ (f z) fun _ w₂ => During s κ first n rows opened w₂ ∧ Onward s w₁ w₂ ∧ D row w₂)
    (h : During s κ first n rows opened w) :
    Ends w (forEachPresent s c present f) fun _ w' =>
      During s κ first n rows opened w' ∧ Onward s w w' ∧ ∀ row ∈ present, D row w' := by
  refine Triple.forM_each (R := Onward s) Onward.refl (fun _ _ _ => Schema.Later.trans) hstable
    (fun row hrow w₁ h₁ hon => ?_) h
  have hkey : (c.keyOf row).Fits (κ c.name) c.idFields := (h.holds.within (hpresent row hrow)).fits.key
  refine Ends.bind (ends_look s _) fun found w₂ hfound => ?_
  obtain ⟨rfl, hfound⟩ := hfound
  have hiff (z : Row) := h₁.holds.row?_iff hc (x := z) hfound hkey
  cases found with
  | some z =>
    obtain ⟨hz, heq⟩ := (hiff z).1 rfl
    exact hthere row hrow w₂ h₁ hon z hz heq
  | none =>
    refine Ends.pure ⟨h₁, Onward.refl w₂, habsent row hrow w₂ h₁ fun z hz heq => ?_⟩
    exact nomatch (hiff z).2 ⟨hz, heq⟩

section
variable (hs : s.Resolved) (hsep : s.Separate) (hfirst : s.Holds κ first)
include hs hsep hfirst

theorem ends_clearKey (h : During s κ first n rows opened w) (hc : s.entity? c.name = some c)
    (hr : r ∈ c.owningRelations) (hy : w.tables.Has c.name y)
    (hcut : ∀ x, first.Has c.name x → c.keyOf y = c.keyOf x → s.Severed first n rows x r) :
    Ends w (clearKey (c.dependentOf r) c y) fun _ w' =>
      During s κ first n rows opened w' ∧ Onward s w w' ∧
        ∀ z, w'.tables.Has c.name z → compare (c.keyOf z) (c.keyOf y) = .eq →
          (Key.ofRow r.near z).hasNull = true := by
  unfold clearKey
  refine Ends.bind (ends_touch c _) fun z w₁ htouch => ?_
  obtain ⟨hz, rfl⟩ := htouch
  refine Ends.bind (ends_putRow c z).discard fun _ w₂ hput =>
    Ends.mono (ends_note c .update (c.keyOf y)) fun _ w₃ hnote => ?_
  obtain ⟨key, hput, hdeleting, -⟩ := hput
  obtain ⟨t, hw, rfl, -⟩ := Transaction.put_ok hput
  rw [During, Onward, hnote.1, hnote.2.1, hdeleting]
  exact h.clear hs hsep hfirst hc hr hy hcut hz hw

/-- The rows that reference a key are deleted. -/
theorem ends_cascade (hdo : r.onDelete = .cascade) (h : During s κ first n rows opened w)
    (hc : s.entity? c.name = some c) (hr : r ∈ c.owningRelations) (hnull : key.hasNull = false)
    {present : List Row} (hpresent : ∀ z, z ∈ present ↔
      w.tables.Has c.name z ∧ compare (Key.ofRow r.near z) key = .eq)
    {f : Row → Operation Unit}
    (hdelete : ∀ w₁, During s κ first n rows opened w₁ → Onward s w w₁ →
      ∀ z x, w₁.tables.Has c.name z → first.Has c.name x → c.keyOf z = c.keyOf x →
        compare (Key.ofRow r.near x) key = .eq →
          Ends w₁ (f z) fun _ w₂ => During s κ first n rows opened w₂ ∧
            Onward s w₁ w₂ ∧ (c.name, c.keyOf x) ∈ w₂.deleting) :
    Ends w (forEachPresent s c present f) fun _ w' =>
      During s κ first n rows opened w' ∧ Onward s w w' ∧
        Schema.Handled c r key w'.tables w'.deleting := by
  have hsource {z : Row} (hz : z ∈ present) : ∃ x, first.Has c.name x ∧ c.keyOf z = c.keyOf x ∧
      compare (Key.ofRow r.near x) key = .eq := by
    obtain ⟨hhas, href⟩ := (hpresent z).1 hz
    exact h.source_refers hs hsep hc hr hnull hhas href
  refine Ends.mono (ends_forEachPresent (D := fun z w' => (c.name, c.keyOf z) ∈ w'.deleting) hc
    (fun z hz => ((hpresent z).1 hz).1) (fun z _ _ hon hz => hon.begun _ hz) ?_ ?_ h) ?_
  · intro z hz w₁ h₁ hnone
    obtain ⟨x, hx, hkey, -⟩ := hsource hz
    -- A row that has gone was deleted on the way.
    by_contra hnew
    rw [hkey] at hnew hnone
    obtain ⟨z', hz', hkey'⟩ := h₁.there c hc x hx hnew
    apply hnone z' hz'
    rw [hkey']
    exact Std.ReflOrd.compare_self
  · intro z hz w₁ h₁ hon z' hz' heq
    obtain ⟨x, hx, hkey, href⟩ := hsource hz
    rw [hkey] at heq ⊢
    exact hdelete w₁ h₁ hon z' x hz' hx (h₁.keyOf_eq hs hsep hfirst hc hx hz' heq) href
  · intro _ w' hafter
    obtain ⟨h', hon, hall⟩ := hafter
    refine ⟨h', hon, fun _ z' hz' href => ⟨hdo, ?_⟩⟩
    obtain ⟨z, hz, hkey, href⟩ := hon.referred hc hr hnull hz' href
    rw [← hkey]
    exact hall z ((hpresent z).2 ⟨hz, href⟩)

/-- The rows that reference a key have theirs cleared. -/
theorem ends_setNull (h : During s κ first n rows opened w) (hc : s.entity? c.name = some c)
    (hr : r ∈ c.owningRelations) (hnull : key.hasNull = false)
    {present : List Row} (hpresent : ∀ z, z ∈ present ↔
      w.tables.Has c.name z ∧ compare (Key.ofRow r.near z) key = .eq)
    (hcut : ∀ x, compare (Key.ofRow r.near x) key = .eq → s.Severed first n rows x r) :
    Ends w (forEachPresent s c present (clearKey (c.dependentOf r) c)) fun _ w' =>
      During s κ first n rows opened w' ∧ Onward s w w' ∧
        Schema.Handled c r key w'.tables w'.deleting := by
  refine Ends.mono (ends_forEachPresent (D := fun z w' => ∀ z', w'.tables.Has c.name z' →
    compare (c.keyOf z') (c.keyOf z) = .eq → (Key.ofRow r.near z').hasNull = true) hc
    (fun z hz => ((hpresent z).1 hz).1) ?_ ?_ ?_ h) ?_
  · -- A key that is cleared stays so.
    intro z w₁ w₂ hon hz z' hz' heq
    obtain ⟨z₁, hz₁, hkey, hlinks⟩ := hon.rows c hc z' hz'
    by_contra hlinked
    rw [Bool.not_eq_true] at hlinked
    rw [← hlinks r hr hlinked, hz z₁ hz₁ (by rw [hkey]; exact heq)] at hlinked
    cases hlinked
  · intro z hz w₁ h₁ hnone z' hz' heq
    exact absurd (Std.OrientedCmp.eq_symm heq) (hnone z' hz')
  · intro z hz w₁ h₁ hon z' hz' heq
    obtain ⟨hhas, href⟩ := (hpresent z).1 hz
    obtain ⟨x, hx, hkey, href⟩ := h.source_refers hs hsep hc hr hnull hhas href
    rw [hkey] at heq ⊢
    have hkey' := h₁.keyOf_eq hs hsep hfirst hc hx hz' heq
    rw [← hkey']
    refine ends_clearKey hs hsep hfirst h₁ hc hr hz' fun x₁ hx₁ hkey₁ => ?_
    rw [hkey'] at hkey₁
    cases hfirst.eq_of_keyOf hc hx hx₁ (by rw [hkey₁]; exact Std.ReflOrd.compare_self)
    exact hcut x href
  · intro _ w' hafter
    obtain ⟨h', hon, hall⟩ := hafter
    refine ⟨h', hon, fun _ z' hz' href => ?_⟩
    obtain ⟨z, hz, hkey, href'⟩ := hon.referred hc hr hnull hz' href
    have hcleared := hall z ((hpresent z).2 ⟨hz, href'⟩) z' hz' (by
      rw [hkey]
      exact Std.ReflOrd.compare_self)
    rw [Key.hasNull_eq_of_compare href, hnull] at hcleared
    cases hcleared

/-- What the deletion of a row does to those that depend on it through one relation. -/
theorem ends_settleDependents (hkinds : s.KeysOfKinds) (h : During s κ first n rows opened w)
    (he : s.entity? e.name = some e) (hx : first.Has e.name x)
    (hdoomed : s.Doomed first n rows e.name x) (hsame : e.keyOf y = e.keyOf x)
    (hc : s.entity? c.name = some c) (hr : r ∈ c.owningRelations) (htarget : r.target = e.name)
    {deleteChild : Entity → Row → Operation Unit}
    (hdelete : ∀ w₁, During s κ first n rows opened w₁ → Onward s w w₁ →
      ∀ z x', w₁.tables.Has c.name z → first.Has c.name x' → c.keyOf z = c.keyOf x' →
        s.Doomed first n rows c.name x' →
        Ends w₁ (deleteChild c z) fun _ w₂ => During s κ first n rows opened w₂ ∧
          Onward s w₁ w₂ ∧ (c.name, c.keyOf x') ∈ w₂.deleting) :
    Ends w (settleDependents s e y deleteChild (c.dependentOf r)) fun _ w' =>
      During s κ first n rows opened w' ∧ Onward s w w' ∧
        Schema.Handled c r (e.keyOf x) w'.tables w'.deleting := by
  have hlink := hsep.references_eq hs he hc hr htarget hsame
  have hnull := hfirst.keyOf_nonnull he hx
  have hparent : s.Doomed first n rows r.target x := by rwa [htarget]
  have hrefers {x' : Row} := (hsep.refers_iff (x := x) (z := x') hs he hc hr htarget).2
  unfold settleDependents
  simp only [hlink, hnull, Bool.or_false, decide_eq_true_eq]
  refine Triple.ite (fun hact => Ends.pure ⟨h, Onward.refl w, fun hne => absurd hact hne⟩)
    fun hact => ?_
  refine Ends.bind (ends_ofExcept _) fun c' w₁ hrequire => ?_
  obtain ⟨rfl, hrequire⟩ := hrequire
  have hc' := Option.elim_ok_eq_ok.1 hrequire
  rw [show (c.dependentOf r).entity = c.name from rfl, hc] at hc'
  cases hc'
  refine Ends.bind (ends_look s _) fun present w₂ hpresent => ?_
  obtain ⟨rfl, hpresent⟩ := hpresent
  have hmem (z : Row) : z ∈ present ↔
      w₂.tables.Has c.name z ∧ compare (Key.ofRow r.near z) (e.keyOf x) = .eq :=
    h.holds.mem_rowsWhere hc (.inr (hsep.indexes c (hs.mem_values hc))) hpresent
      (hsep.fits_key hs he hc hr htarget hkinds h.holds (hfirst.within hx)) hnull
  have haction : (c.dependentOf r).onDelete = r.onDelete := rfl
  rw [haction] at hact ⊢
  cases hdo : r.onDelete with
  | noAction => exact absurd hdo hact
  | restrict =>
    refine Triple.ite (fun _ => Triple.throw fun _ _ => trivial) fun hempty => ?_
    refine Ends.pure ⟨h, Onward.refl w₂, ?_⟩
    intro _ z hz href
    have hmem := (hmem z).2 ⟨hz, href⟩
    simp only [Bool.not_eq_true', Bool.not_eq_false, List.isEmpty_iff] at hempty
    rw [hempty] at hmem
    cases hmem
  | cascade =>
    refine ends_cascade hs hsep hfirst hdo h hc hr hnull hmem fun w₁ h₁ hon z x' hz hx' hkey href => ?_
    exact hdelete w₁ h₁ hon z x' hz hx' hkey (.cascade hparent hc hr hdo hx' (hrefers href))
  | setNull =>
    exact ends_setNull hs hsep hfirst h hc hr hnull hmem fun _ href => ⟨hdo, x, hparent, hrefers href⟩

/-- What the deletion of a row does to all that depend on it. -/
theorem ends_settleAll (hkinds : s.KeysOfKinds) (h : During s κ first n rows opened w)
    (he : s.entity? e.name = some e) (hx : first.Has e.name x)
    (hdoomed : s.Doomed first n rows e.name x) (hsame : e.keyOf y = e.keyOf x)
    {deleteChild : Entity → Row → Operation Unit}
    (hdelete : ∀ w₁, During s κ first n rows opened w₁ → Onward s w w₁ →
      ∀ c, s.entity? c.name = some c → ∀ z x', w₁.tables.Has c.name z → first.Has c.name x' →
        c.keyOf z = c.keyOf x' → s.Doomed first n rows c.name x' →
          Ends w₁ (deleteChild c z) fun _ w₂ => During s κ first n rows opened w₂ ∧
            Onward s w₁ w₂ ∧ (c.name, c.keyOf x') ∈ w₂.deleting) :
    Ends w (e.dependents.forM (settleDependents s e y deleteChild)) fun _ w' =>
      During s κ first n rows opened w' ∧ Onward s w w' ∧
        ∀ c, s.entity? c.name = some c → ∀ r ∈ c.owningRelations, r.target = e.name →
          Schema.Handled c r (e.keyOf x) w'.tables w'.deleting := by
  have hnull := hfirst.keyOf_nonnull he hx
  refine Ends.mono (Triple.forM_each (R := Onward s)
    (D := fun d w => ∀ c, s.entity? c.name = some c → ∀ r ∈ c.owningRelations,
      d = c.dependentOf r → Schema.Handled c r (e.keyOf x) w.tables w.deleting)
    Onward.refl (fun _ _ _ => Schema.Later.trans) ?_ ?_ h) ?_
  · intro d w₁ w₂ hon hd c hc r hr heq
    exact (hd c hc r hr heq).later hon hc hr hnull
  · intro d hd w₁ h₁ hon₁
    obtain ⟨c, hc, r, hr, htarget, rfl⟩ := (hs.dependents he d).1 hd
    refine Ends.mono (ends_settleDependents hs hsep hfirst hkinds h₁ he hx hdoomed hsame hc hr
      htarget fun w₂ h₂ hon₂ => hdelete w₂ h₂ (hon₁.trans hon₂) c hc) fun _ w₂ hafter => ?_
    refine ⟨hafter.1, hafter.2.1, fun c' hc' r' _ heq => ?_⟩
    cases Schema.entity_inj hc' hc (congrArg Dependent.entity heq).symm
    exact hafter.2.2.congr heq
  · intro _ w' hafter
    obtain ⟨h', hon, hhandled⟩ := hafter
    refine ⟨h', hon, fun c hc r hr htarget => ?_⟩
    have hdependent := (hs.dependents he _).2 ⟨c, hc, r, hr, htarget, rfl⟩
    exact hhandled _ hdependent c hc r hr rfl

/-! ### Nested deletions -/

omit hs hsep in
/-- A deletion that is begun is opened, unless it has begun before. -/
theorem ends_begin (h : During s κ first n rows opened w) (he : s.entity? e.name = some e)
    (hx : first.Has e.name x) (hdoomed : s.Doomed first n rows e.name x) :
    Ends w (beginDelete e (e.keyOf x)) fun fresh w' =>
      Onward s w w' ∧ (e.name, e.keyOf x) ∈ w'.deleting ∧
        if fresh then
          During s κ first n rows ((e.name, e.keyOf x) :: opened) w' ∧
            hasBegun w.deleting e.name (e.keyOf x) = false ∧
              w'.deleting = (e.name, e.keyOf x) :: w.deleting
        else During s κ first n rows opened w' := by
  refine Ends.mono (ends_beginDelete e (e.keyOf x)) fun fresh w' hbegin => ?_
  obtain ⟨hfresh, rfl⟩ := hbegin
  cases fresh with
  | false =>
    obtain ⟨p, hp, heq⟩ := List.any_eq_true.1 hfresh
    obtain ⟨hname, heq⟩ := Bool.and_eq_true_iff.1 heq
    rw [show p = (e.name, p.2) from Prod.ext (eq_of_beq hname) rfl] at hp
    exact ⟨Onward.refl w, h.mem_begun hfirst he hx hp (Key.equiv_iff.1 heq), h⟩
  | true =>
    refine ⟨Schema.Later.refl fun p hp => List.mem_cons_of_mem _ hp, List.mem_cons_self, ?_, hfresh, rfl⟩
    exact h.begin hfirst he hx hdoomed

omit hs hsep in
/-- The deletion of a row ends with the removal of the row when all that depend on it are settled. -/
theorem ends_finish (h : During s κ first n rows ((e.name, e.keyOf x) :: opened) w)
    (he : s.entity? e.name = some e) (hx : first.Has e.name x)
    (hbegun : (e.name, e.keyOf x) ∈ w.deleting)
    (hhandled : ∀ c, s.entity? c.name = some c → ∀ r ∈ c.owningRelations, r.target = e.name →
      Schema.Handled c r (e.keyOf x) w.tables w.deleting) :
    Ends w (deleteRow e (e.keyOf x)) fun _ w' => During s κ first n rows opened w' ∧
      Onward s w w' ∧ (e.name, e.keyOf x) ∈ w'.deleting := by
  refine Ends.mono (ends_deleteRow e (e.keyOf x)) fun _ w' hdelete => ?_
  obtain ⟨⟨old, tx, hdelete⟩, hdeleting, -⟩ := hdelete
  obtain ⟨h', hlater, hgone⟩ := h.remove hfirst he hx hbegun hdelete
  have hsettled : s.Settled e.name (e.keyOf x) w'.tables w.deleting := by
    refine ⟨fun e' he' hname => ?_, fun c hc r hr htarget => ?_⟩
    · cases Schema.entity_inj he' he hname
      exact hgone
    · exact (hhandled c hc r hr htarget).later hlater hc hr (hfirst.keyOf_nonnull he hx)
  rw [During, Onward, hdeleting]
  exact ⟨h'.finish hsettled, hlater, hbegun⟩

/-- By induction on how deep deletions may still be nested: there is room for those that wait. -/
theorem ends_deleteWithin (hkinds : s.KeysOfKinds) {all : List (String × Key)} (depth : Nat) :
    ∀ {opened : List (String × Key)} {w : Work} {e : Entity} {x y : Row},
      During s κ first n rows opened w → Covers s all w.tables → waiting all w.deleting < depth →
        s.entity? e.name = some e → w.tables.Has e.name y → first.Has e.name x →
          e.keyOf y = e.keyOf x → s.Doomed first n rows e.name x →
            Ends w (deleteWithin s depth e y) fun _ w' => During s κ first n rows opened w' ∧
              Onward s w w' ∧ (e.name, e.keyOf x) ∈ w'.deleting := by
  induction depth with
  | zero =>
    intro _ _ _ _ _ _ _ hdepth
    exact absurd hdepth (Nat.not_lt_zero _)
  | succ depth ih =>
    intro opened w e x y h hcovers hdepth he hy hx hsame hdoomed
    unfold deleteWithin
    simp only [hsame]
    refine Ends.bind (ends_begin hfirst h he hx hdoomed) fun fresh w₁ hbegin => ?_
    obtain ⟨hon₁, hbegun₁, hbegin⟩ := hbegin
    cases fresh with
    | false =>
      simp only [Bool.false_eq_true, if_false] at hbegin ⊢
      exact Ends.pure ⟨hbegin, hon₁, hbegun₁⟩
    | true =>
      simp only [if_true] at hbegin ⊢
      obtain ⟨h₁, hnew, hdeleting⟩ := hbegin
      have hdepth₁ : waiting all w₁.deleting < depth := by
        have hmem : (e.name, e.keyOf x) ∈ all := by
          rw [← hsame]
          exact hcovers e he y hy
        have hless := waiting_cons hmem hnew
        rw [hdeleting]
        calc waiting all ((e.name, e.keyOf x) :: w.deleting) < waiting all w.deleting := hless
          _ ≤ depth := Nat.le_of_lt_succ hdepth
      refine Ends.bind (ends_settleAll hs hsep hfirst hkinds h₁ he hx hdoomed hsame ?_) ?_
      · intro w₂ h₂ hon₂ c hc z x' hz hx' hkey hdoomed'
        refine ih h₂ (hcovers.later (hon₁.trans hon₂)) ?_ hc hz hx' hkey hdoomed'
        exact Nat.lt_of_le_of_lt (waiting_mono hon₂.begun) hdepth₁
      · intro _ w₂ hsettled
        obtain ⟨h₂, hon₂, hhandled⟩ := hsettled
        apply Ends.mono (ends_finish hfirst h₂ he hx (hon₂.begun _ hbegun₁) hhandled)
        intro _ w₃ hfinish
        obtain ⟨h₃, hon₃, hbegun₃⟩ := hfinish
        exact ⟨h₃, (hon₁.trans hon₂).trans hon₃, hbegun₃⟩

/-! ### Deletions -/

/-- The deletion of one row. -/
theorem ends_delete (hkinds : s.KeysOfKinds) (h : During s κ first n rows opened w)
    (he : s.entity? e.name = some e) (hy : w.tables.Has e.name y) (hx : first.Has e.name x)
    (hsame : e.keyOf y = e.keyOf x) (hdoomed : s.Doomed first n rows e.name x) :
    Ends w (delete s e y) fun _ w' => During s κ first n rows opened w' ∧ Onward s w w' ∧
      (e.name, e.keyOf x) ∈ w'.deleting := by
  refine Triple.get fun w' hw => ?_
  subst hw
  refine ends_deleteWithin hs hsep hfirst hkinds _ h (covers_rowKeys h.holds) ?_ he hy hx hsame hdoomed
  have hroom := extent_eq w'.tables
  have hle : waiting (rowKeys w'.tables) w'.deleting ≤ (rowKeys w'.tables).length :=
    List.countP_le_length
  omega

end

end Operation

end RelationalStore

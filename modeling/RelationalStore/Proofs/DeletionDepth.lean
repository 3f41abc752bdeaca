import RelationalStore.Proofs.DeletionRuns
import RelationalStore.Proofs.RenewedRows

/- Deletions come to an end. A deletion is the recursion `Operation.deletion`, in which what deletes
   the rows that depend on one is left open; to some depth that is the deletion itself, and deeper
   there may stand anything, since nothing is deleted there (`Operation.coincides_deletion`). The
   measure is the room that is left (`Operation.Room`): for each key that was there at first or is
   of a time that was stored at first, until the deletion of its row has begun, and for each such
   time that is still to come. A row under any other key is one that clearing stored anew, and the
   deletion of such a row goes on to no row but itself. -/
namespace RelationalStore
open SortedMap

namespace Operation

/-! ### The recursion -/

/-- The deletion of a row, with something that deletes the rows that depend on it. -/
def deletion (s : Schema) (inner : Entity → Row → Operation Unit) (e : Entity) (row : Row) :
    Operation Unit := do
  let key := e.keyOf row
  if ← beginDelete e key then
    e.dependents.forM (settleDependents s e row inner)
    deleteRow e key

theorem deleteWithin_eq (s : Schema) (depth : Nat) :
    deleteWithin s depth = (deletion s)^[depth] fun _ _ => pure () := by
  induction depth with
  | zero => rfl
  | succ depth ih =>
    rw [Function.iterate_succ_apply', ← ih]
    rfl

theorem run_delete (s : Schema) (e : Entity) (row : Row) (w : Work) : (delete s e row).run w =
    ((deletion s)^[w.tables.extent + 2] (fun _ _ => Pure.pure ()) e row).run w := by
  rw [← deleteWithin_eq, delete, EStateM.run_bind, EStateM.run_get]

/-! ### Single steps -/

section Steps
variable {s : Schema} {κ : String → String → NumberClass} {w : Work} {e c : Entity} {r : Relation}
  {key : Key} {row : Row}

/-- Clearing the key of a row that is there stores it anew. -/
theorem ends_clearing (hindexed : s.Indexed κ w.tables) (hc : s.entity? c.name = some c)
    (hrow : w.tables.Has c.name row) (d : Dependent) :
    Ends w (clearKey d c row) fun _ w' =>
      (∃ z, s.Renewal κ c d.fields w.supply.time row z w.tables w'.tables) ∧
        w'.supply.time = w.supply.time + Supply.tick ∧ w'.deleting = w.deleting := by
  refine Ends.bind (ends_touch c _) fun z w₁ htouch => ?_
  obtain ⟨rfl, rfl⟩ := htouch
  refine Ends.bind (ends_putRow c _).discard fun _ w₂ hput =>
    Ends.mono (ends_note c .update (c.keyOf row)) fun _ w₃ hnote => ?_
  obtain ⟨key, hput, hdeleting, hsupply⟩ := hput
  obtain ⟨htables, hdeleting', hsupply'⟩ := hnote
  rw [htables, hdeleting', hsupply', hdeleting, hsupply]
  exact ⟨⟨_, hindexed.renewal hc hrow (c.renews_touched d.fields _ row) hput⟩, rfl, rfl⟩

end Steps

/-! ### The room that is left -/

/-- There is room for that many deletions in one another: the rows have keys of a list, of which the
deletions of some have not begun, or they are stored anew, and of the old instants some are to come. -/
structure Room (s : Schema) (κ : String → String → NumberClass) (old : List Int) (m : Nat) (w : Work) :
    Prop where
  indexed : s.Indexed κ w.tables
  dated : s.Dated old w.tables w.supply.time
  covers : ∃ all : List (String × Key),
    (∀ {e row}, s.entity? e.name = some e → w.tables.Has e.name row →
      (e.name, e.keyOf row) ∈ all ∨ e.Renewed old row) ∧
    waiting all w.deleting + old.countP (fun i => decide ((w.supply.time : Int) ≤ i)) ≤ m

namespace Room
variable {s : Schema} {κ : String → String → NumberClass} {old : List Int} {m : Nat} {w w' : Work}
  {e c : Entity} {row y z : Row} {fields : List String}

theorem mono {m' : Nat} (h : Room s κ old m w) (hm : m ≤ m') : Room s κ old m' w := by
  obtain ⟨all, hall, hroom⟩ := h.covers
  exact ⟨h.indexed, h.dated, all, hall, hroom.trans hm⟩

/-- A deletion that begins takes its place, unless it is of a row that is stored anew. -/
theorem begin (h : Room s κ old m w) (he : s.entity? e.name = some e) (hrow : w.tables.Has e.name row)
    (hnew : hasBegun w.deleting e.name (e.keyOf row) = false) :
    (∃ m', m = m' + 1 ∧
      Room s κ old m' { w with deleting := (e.name, e.keyOf row) :: w.deleting }) ∨
    e.Renewed old row ∧
      Room s κ old m { w with deleting := (e.name, e.keyOf row) :: w.deleting } := by
  obtain ⟨all, hall, hroom⟩ := h.covers
  rcases hall he hrow with hmem | hrenewed
  · have hless := waiting_cons hmem hnew
    refine .inl ⟨m - 1, by omega, h.indexed, h.dated, all, hall, ?_⟩
    show waiting all ((e.name, e.keyOf row) :: w.deleting) +
      old.countP (fun i => decide ((w.supply.time : Int) ≤ i)) ≤ m - 1
    omega
  · refine .inr ⟨hrenewed, h.indexed, h.dated, all, hall, ?_⟩
    have hle : waiting all ((e.name, e.keyOf row) :: w.deleting) ≤ waiting all w.deleting :=
      waiting_mono fun p hp => List.mem_cons_of_mem _ hp
    exact (Nat.add_le_add_right hle _).trans hroom

theorem fewer (h : Room s κ old m w) (hindexed : s.Indexed κ w'.tables)
    (hhas : ∀ {n z}, w'.tables.Has n z → w.tables.Has n z) (hsupply : w'.supply = w.supply)
    (hdeleting : w'.deleting = w.deleting) : Room s κ old m w' := by
  obtain ⟨all, hall, hroom⟩ := h.covers
  refine ⟨hindexed, h.dated.weaken (by rw [hsupply]) hhas, all, fun he hrow => hall he (hhas hrow), ?_⟩
  rwa [hsupply, hdeleting]

/-- A row that is stored anew at an old instant takes the place of that instant. -/
theorem renewal (h : Room s κ old m w) (hfree : ∀ f ∈ fields, f ∉ e.idFields)
    (hr : s.Renewal κ e fields w.supply.time y z w.tables w'.tables)
    (hsupply : w'.supply.time = w.supply.time + Supply.tick) (hdeleting : w'.deleting = w.deleting) :
    Room s κ old m w' := by
  obtain ⟨all, hall, hroom⟩ := h.covers
  have hdated := h.dated.renewal hr
  rw [← hsupply] at hdated
  have hlater (l : List Int) : l.countP (fun i => decide ((w'.supply.time : Int) ≤ i)) ≤
      l.countP fun i => decide ((w.supply.time : Int) ≤ i) := by
    refine List.countP_mono_left fun i _ hi => ?_
    rw [decide_eq_true_eq] at hi ⊢
    omega
  by_cases hstamped : ∃ f ∈ e.idFields, f ∈ e.stamps
  · by_cases htime : (w.supply.time : Int) ∈ old
    · refine ⟨hr.indexed, hdated, (e.name, e.keyOf z) :: all, fun {c x} hc hx => ?_, ?_⟩
      · rcases hr.has hx with ⟨hname, rfl⟩ | hx
        · cases Schema.entity_inj hc hr.entity hname
          exact .inl List.mem_cons_self
        · exact (hall hc hx).imp_left (List.mem_cons_of_mem _)
      · have hless : old.countP (fun i => decide ((w'.supply.time : Int) ≤ i)) <
            old.countP fun i => decide ((w.supply.time : Int) ≤ i) := by
          obtain ⟨before, after, hold⟩ := List.append_of_mem htime
          have hpast : ¬ (w'.supply.time : Int) ≤ w.supply.time := by
            rw [hsupply, Supply.tick]
            omega
          have hbefore := hlater before
          have hafter := hlater after
          simp only [hold, List.countP_append, List.countP_cons, hpast, decide_false, decide_true,
            le_refl, Bool.false_eq_true, if_false, if_true]
          omega
        have hmore : waiting ((e.name, e.keyOf z) :: all) w'.deleting ≤ waiting all w.deleting + 1 := by
          rw [hdeleting, waiting, waiting, List.countP_cons]
          split <;> omega
        omega
    · refine ⟨hr.indexed, hdated, all, fun {c x} hc hx => ?_, ?_⟩
      · rcases hr.has hx with ⟨hname, rfl⟩ | hx
        · cases Schema.entity_inj hc hr.entity hname
          refine .inr ⟨hstamped, _, htime, fun f hf => ?_⟩
          rw [hr.renews f, if_pos hf]
          rfl
        · exact hall hc hx
      · rw [hdeleting]
        exact (Nat.add_le_add_left (hlater old) _).trans hroom
  · refine ⟨hr.indexed, hdated, all, fun {c x} hc hx => ?_, ?_⟩
    · rcases hr.has hx with ⟨hname, rfl⟩ | hx
      · cases Schema.entity_inj hc hr.entity hname
        -- Without a time in it the key is the one that the row had.
        have hsame : e.keyOf x = e.keyOf y := by
          refine hr.renews.ofRow_eq (fun f hf hstamp => hstamped ⟨f, hf, hstamp⟩) fun f hf hclear => ?_
          exact hfree f hclear hf
        rw [hsame]
        refine .inl ((hall hc hr.row).resolve_right fun hrenewed => hstamped hrenewed.1)
      · exact hall hc hx
    · rw [hdeleting]
      exact (Nat.add_le_add_left (hlater old) _).trans hroom

end Room

/-! ### Dependents -/

section
variable {defs : List EntityDef} {s : Schema} {κ : String → String → NumberClass} {old : List Int}
  {m : Nat} {w : Work} {e c : Entity} {row : Row} {key : Key} {I : Work → Prop}

/-- Each of the rows is done in both the same way, as it is found by then. -/
theorem coincides_forEachPresent (hI : ∀ w, I w → s.Indexed κ w.tables)
    (hc : s.entity? c.name = some c) {rows : List Row}
    (hrows : ∀ row ∈ rows, (c.keyOf row).Fits (κ c.name) c.idFields) {f g : Row → Operation Unit}
    (hf : ∀ row ∈ rows, ∀ current, compare (c.keyOf row) (c.keyOf current) = .eq →
      Coincides (fun w => I w ∧ w.tables.Has c.name current) (f current) (g current) fun _ => I) :
    Coincides I (forEachPresent s c rows f) (forEachPresent s c rows g) fun _ => I := by
  refine Coincides.forM fun row hrow => Coincides.bind (R := fun found w => I w ∧ ∀ current ∈ found,
    w.tables.Has c.name current ∧ compare (c.keyOf row) (c.keyOf current) = .eq) (.refl ?_)
    fun found => ?_
  · refine Triple.look fun w hw => .of_ok (fun found hfound => ⟨hw, fun current hcurrent => ?_⟩)
      fun _ _ => trivial
    cases hcurrent
    exact (hI w hw).of_row? hc (hrows row hrow) hfound
  · cases found with
    | none => exact .pure fun _ h => h.1
    | some current =>
      refine Coincides.of_eq fun w hw => ?_
      obtain ⟨hhas, hsame⟩ := hw.2 current rfl
      exact (hf row hrow current hsame).mono (fun w' h => h ▸ ⟨hw.1, hhas⟩) fun _ _ h => h

/-- The rows that depend on one are settled in both the same way, if those that are deleted are. -/
theorem coincides_settleDependents (hs : s.Resolved) (hI : ∀ w, I w → s.Indexed κ w.tables)
    (he : s.entity? e.name = some e)
    (hclear : ∀ c, s.entity? c.name = some c → ∀ r ∈ c.owningRelations, r.onDelete = .setNull → ∀ z,
      Triple (fun w => I w ∧ w.tables.Has c.name z) (clearKey (c.dependentOf r) c z) (fun _ => I)
        fun _ _ => True)
    {f g : Entity → Row → Operation Unit}
    (hdelete : ∀ c, s.entity? c.name = some c → ∀ r ∈ c.owningRelations, r.target = e.name →
      (Key.ofRow r.far row).hasNull = false → ∀ w, I w → ∀ rows : List Row,
        (∀ z ∈ rows, w.tables.Has c.name z ∧ ∃ columns,
          (Key.ofRow columns z).instants = (Key.ofRow r.far row).instants) →
        Coincides I (forEachPresent s c rows (f c)) (forEachPresent s c rows (g c)) fun _ => I)
    {d : Dependent} (hd : d ∈ e.dependents) :
    Coincides I (settleDependents s e row f d) (settleDependents s e row g d) fun _ => I := by
  obtain ⟨c, hc, r, hr, htarget, rfl⟩ := (hs.dependents he d).1 hd
  have hlink : (c.dependentOf r).references = r.far := rfl
  unfold settleDependents
  simp only [hlink]
  refine Coincides.ite (fun _ => .pure fun _ h => h) fun hact => ?_
  have hnull : (Key.ofRow r.far row).hasNull = false := by
    rw [Bool.or_eq_true, not_or, Bool.not_eq_true, Bool.not_eq_true] at hact
    exact hact.2
  refine Coincides.bind (R := fun child w => I w ∧ child = c) (.refl ?_) fun child => ?_
  · refine Triple.ofExcept fun w hw => .of_ok (fun child hchild => ⟨hw, ?_⟩) fun _ _ => trivial
    have hchild := Option.elim_ok_eq_ok.1 hchild
    exact Option.some.inj (hchild.symm.trans hc)
  refine Coincides.of_eq fun w₀ h₀ => ?_
  obtain ⟨h₀, rfl⟩ := h₀
  refine Coincides.bind (R := fun rows w => I w ∧ ∀ z ∈ rows, w.tables.Has child.name z ∧
    ∃ columns, (Key.ofRow columns z).instants = (Key.ofRow r.far row).instants) (.refl ?_)
    fun rows => Coincides.of_eq fun w hw => ?_
  · refine Triple.look fun w hw => ?_
    subst hw
    exact .of_ok (fun rows hrows => ⟨h₀, (hI _ h₀).rowsWhere_instants hc hrows⟩) fun _ _ => trivial
  · obtain ⟨hw, hrows⟩ := hw
    have hat {x y : Operation Unit} (h : Coincides I x y fun _ => I) :
        Coincides (· = w) x y fun _ => I :=
      h.mono (fun _ h => h ▸ hw) fun _ _ h => h
    have haction : (child.dependentOf r).onDelete = r.onDelete := rfl
    rw [haction]
    cases hdo : r.onDelete with
    | noAction => exact hat (.pure fun _ h => h)
    | restrict => exact hat (.ite (fun _ => .refl (Triple.throw fun _ _ => trivial)) fun _ => .pure fun _ h => h)
    | cascade => exact hat (hdelete child hc r hr htarget hnull w hw rows hrows)
    | setNull =>
      refine hat (coincides_forEachPresent hI hc (fun z hz => ?_) fun z hz current _ => .refl ?_)
      · exact (hI w hw).fits_keyOf hc (hrows z hz).1
      · exact hclear child hc r hr hdo current

/-- A row that is there makes room when it is taken out. -/
theorem room_deleteRow (he : s.entity? e.name = some e) (hkey : key.Fits (κ e.name) e.idFields) :
    Triple (Room s κ old m) (deleteRow e key) (fun _ => Room s κ old m) fun _ _ => True := by
  refine Triple.of_eq fun w hw => ?_
  refine Ends.mono (ends_deleteRow e key) fun _ w' h => ?_
  obtain ⟨⟨_, _, hdelete⟩, hdeleting, hsupply⟩ := h
  obtain ⟨t, -, -, ⟨-, -, htables⟩ | ⟨-, hwrote⟩⟩ := Transaction.delete_ok hdelete
  · exact hw.fewer (htables ▸ hw.indexed) (fun h => htables ▸ h) hsupply hdeleting
  · refine hw.fewer (hw.indexed.wrote he hwrote (TableDef.accepts_none hkey)) (fun hz => ?_)
      hsupply hdeleting
    exact ((hw.indexed.has_wrote he hwrote hkey).1 hz).elim (fun h => nomatch h.2) And.left

/-- Clearing a key that is not a part of the primary key leaves as much room. -/
theorem room_clearKey (hs : s.Resolved) (hc : s.entity? c.name = some c) {r : Relation}
    (hr : r ∈ c.owningRelations) (hdo : r.onDelete = .setNull) (row : Row) :
    Triple (fun w => Room s κ old m w ∧ w.tables.Has c.name row) (clearKey (c.dependentOf r) c row)
      (fun _ => Room s κ old m) fun _ _ => True := by
  refine Triple.of_eq fun w hw => ?_
  refine Ends.mono (ends_clearing hw.1.indexed hc hw.2 _) fun _ w' h => ?_
  obtain ⟨⟨z, hrenewal⟩, hsupply, hdeleting⟩ := h
  exact hw.1.renewal (fun f hf => hs.near_of_setNull hc hr hdo hf) hrenewal hsupply hdeleting

/-! ### Deletions in one another -/

/-- Nothing is done to a row whose deletion has begun. -/
def PassesBegun (f : Entity → Row → Operation Unit) : Prop :=
  ∀ e row w, hasBegun w.deleting e.name (e.keyOf row) = true → (f e row).run w = .ok () w

theorem passesBegun_deletion (s : Schema) (f : Entity → Row → Operation Unit) :
    PassesBegun (deletion s f) := by
  intro e row w hbegun
  have hbegin : (beginDelete e (e.keyOf row)).run w = .ok false w := by
    show (if hasBegun w.deleting e.name (e.keyOf row) = true then (Pure.pure false : Operation Bool)
      else set { w with deleting := (e.name, e.keyOf row) :: w.deleting } >>= fun _ => Pure.pure true) w = _
    rw [if_pos hbegun]
    rfl
  rw [deletion, EStateM.run_bind, hbegin]
  rfl

theorem passesBegun_delete (s : Schema) : PassesBegun (delete s) := by
  intro e row w hbegun
  rw [run_delete, Function.iterate_succ_apply']
  exact passesBegun_deletion s _ e row w hbegun

theorem coincides_begun {f g : Entity → Row → Operation Unit} (hf : PassesBegun f) (hg : PassesBegun g)
    (hI : ∀ w, I w → hasBegun w.deleting e.name (e.keyOf row) = true) :
    Coincides I (f e row) (g e row) fun _ => I where
  same w hw := (hf e row w (hI w hw)).trans (hg e row w (hI w hw)).symm
  ends w hw := by
    rw [hf e row w (hI w hw)]
    exact hw

/-- The deletion of a row that is stored anew has begun, and no other row has the time of that. -/
structure Lone (s : Schema) (κ : String → String → NumberClass) (old : List Int) (m : Nat) (e : Entity)
    (key : Key) (i : Int) (w : Work) : Prop where
  room : Room s κ old m w
  begun : (e.name, key) ∈ w.deleting
  past : i < w.supply.time
  alone : s.AloneWith e key i w.tables

theorem lone_clearKey {i : Int} (hs : s.Resolved) (hi : i ∉ old) (hc : s.entity? c.name = some c)
    {r : Relation} (hr : r ∈ c.owningRelations) (hdo : r.onDelete = .setNull) (row : Row) :
    Triple (fun w => Lone s κ old m e key i w ∧ w.tables.Has c.name row)
      (clearKey (c.dependentOf r) c row) (fun _ => Lone s κ old m e key i) fun _ _ => True := by
  refine Triple.of_eq fun w hw => ?_
  obtain ⟨hlone, hrow⟩ := hw
  refine Ends.mono (ends_clearing hlone.room.indexed hc hrow _) fun _ w' h => ?_
  obtain ⟨⟨z, hrenewal⟩, hsupply, hdeleting⟩ := h
  have hpast := hlone.past
  refine ⟨?_, by rw [hdeleting]; exact hlone.begun, by rw [hsupply, Supply.tick]; omega, ?_⟩
  · exact hlone.room.renewal (fun f hf => hs.near_of_setNull hc hr hdo hf) hrenewal hsupply hdeleting
  · exact Schema.AloneWith.renewal hlone.alone hi hpast hlone.room.dated hrenewal

/-- What references a row that is stored anew has its time, so that is the row itself. -/
theorem bears_of_link {i : Int} (hdefs : Schema.ofDefs defs = .ok s) (hc : s.entity? c.name = some c)
    {r : Relation} (hr : r ∈ c.owningRelations) (he : s.entity? e.name = some e)
    (htarget : r.target = e.name) (hdated : s.Dated old w.tables w.supply.time)
    (hrow : w.tables.Has e.name row) (hrenewed : e.Renewed old row)
    (hall : ∀ f ∈ e.stamps, (row.value f).instant? = some i)
    (hnull : (Key.ofRow r.far row).hasNull = false) {columns : List String} {z : Row}
    (hz : (Key.ofRow columns z).instants = (Key.ofRow r.far row).instants) : z.Bears i := by
  have hstamp : ∃ f ∈ r.far, f ∈ e.stamps := by
    obtain ⟨t, ht, -, hunique⟩ := Schema.unique_far_ofDefs hdefs hc hr
    rw [htarget, he] at ht
    cases ht
    rcases List.mem_cons.1 hunique with hid | hgroup
    · rw [hid]
      exact hrenewed.1
    · by_contra hfree
      have hfree : ∀ f ∈ r.far, f ∉ e.stamps := fun f hf hstamp => hfree ⟨f, hf, hstamp⟩
      have hnull' := hdated.unshared he hrow hrenewed r.far hgroup hfree
      rw [hnull] at hnull'
      cases hnull'
  obtain ⟨f, hf, hstamp⟩ := hstamp
  exact Row.bears_of_instants hz hf (hall f hstamp)

section
variable (hs : s.Resolved) (hdefs : Schema.ofDefs defs = .ok s) {f g : Entity → Row → Operation Unit}
include hs hdefs

/-- The deletion of a row that is stored anew deletes nothing else. -/
theorem coincides_lone (hf : PassesBegun f) (hg : PassesBegun g) {i : Int}
    (he : s.entity? e.name = some e) (hdated : s.Dated old w.tables w.supply.time)
    (hrow : w.tables.Has e.name row) (hrenewed : e.Renewed old row) (hi : i ∉ old)
    (hall : ∀ f ∈ e.stamps, (row.value f).instant? = some i)
    (hkey : (e.keyOf row).Fits (κ e.name) e.idFields) :
    Coincides (Lone s κ old m e (e.keyOf row) i)
      (e.dependents.forM (settleDependents s e row f)) (e.dependents.forM (settleDependents s e row g))
      fun _ => Lone s κ old m e (e.keyOf row) i := by
  have hI (w : Work) (h : Lone s κ old m e (e.keyOf row) i w) := h.room.indexed
  refine Coincides.forM fun d hd => coincides_settleDependents hs hI he
    (fun c hc r hr hdo z => lone_clearKey hs hi hc hr hdo z) ?_ hd
  intro c hc r hr htarget hnull w₁ h₁ rows hrows
  refine coincides_forEachPresent hI hc (fun z hz => (hI w₁ h₁).fits_keyOf hc (hrows z hz).1) ?_
  intro z hz current hsame
  obtain ⟨hhas, columns, hinstants⟩ := hrows z hz
  have hbears := bears_of_link hdefs hc hr he htarget hdated hrow hrenewed hall hnull hinstants
  obtain ⟨hname, hself⟩ := h₁.alone hc hhas hbears
  cases Schema.entity_inj hc he hname
  refine (coincides_begun hf hg fun w' h' => List.any_eq_true.2 ⟨_, h'.1.begun, ?_⟩).mono
    (fun _ h => h) fun _ _ h => h.1
  refine Bool.and_eq_true_iff.2 ⟨beq_self_eq_true _, Key.equiv_iff.2 ?_⟩
  exact (Key.compare_isLE_trans (κ e.name) e.idFields).eq_trans hkey ((hI w₁ h₁).fits_keyOf hc hhas)
    ((hI w' h'.1).fits_keyOf hc h'.2) hself hsame

/-- Deletions do the same if those in them do, where there is less room. -/
theorem coincides_deletion (hf : PassesBegun f) (hg : PassesBegun g)
    (hinner : ∀ m', m = m' + 1 → ∀ {c row}, s.entity? c.name = some c →
      Coincides (fun w => Room s κ old m' w ∧ w.tables.Has c.name row) (f c row) (g c row)
        fun _ => Room s κ old m')
    (he : s.entity? e.name = some e) :
    Coincides (fun w => Room s κ old m w ∧ w.tables.Has e.name row) (deletion s f e row)
      (deletion s g e row) fun _ => Room s κ old m := by
  refine Coincides.of_eq fun w hw => ?_
  obtain ⟨hroom, hrow⟩ := hw
  have hkey := hroom.indexed.fits_keyOf he hrow
  refine Coincides.bind (.refl (ends_beginDelete e (e.keyOf row))) fun fresh => ?_
  cases fresh with
  | false => exact .pure fun w' h => by rw [h.2]; exact hroom
  | true =>
    refine Coincides.of_eq fun w₁ hbegin => ?_
    obtain ⟨hnew, rfl⟩ := hbegin
    rcases hroom.begin he hrow hnew with ⟨m', rfl, hroom'⟩ | ⟨hrenewed, hroom'⟩
    · -- The deletion takes a place, and for those in it there is one less.
      refine (Coincides.bind (R := fun _ => Room s κ old m') (Coincides.forM fun d hd => ?_)
        fun _ => .refl (room_deleteRow he hkey)).mono (fun w h => h ▸ hroom')
        fun _ _ h => Room.mono h (Nat.le_succ m')
      refine coincides_settleDependents hs (fun _ h => h.indexed) he
        (fun c hc r hr hdo z => room_clearKey hs hc hr hdo z) ?_ hd
      intro c hc r _ _ _ w₁ h₁ rows hrows
      refine coincides_forEachPresent (fun _ h => h.indexed) hc
        (fun z hz => h₁.indexed.fits_keyOf hc (hrows z hz).1) fun z _ current _ => ?_
      exact hinner m' rfl hc
    · -- The row is stored anew, so it is the only one that is deleted.
      have hstored := hrenewed
      obtain ⟨⟨c, -, hstamp⟩, i, hi, hall⟩ := hstored
      have hbears : row.Bears i := ⟨c, hall c hstamp⟩
      have hlone : Lone s κ old m e (e.keyOf row) i
          { w with deleting := (e.name, e.keyOf row) :: w.deleting } :=
        ⟨hroom', List.mem_cons_self, hroom.dated.bears he hrow hi hbears, fun hc hz hz' => by
          obtain ⟨hname, hsame⟩ := hroom.dated.alone he hrow hc hz hi hbears hz'
          exact ⟨hname.symm, hsame⟩⟩
      refine (Coincides.bind
        (coincides_lone hs hdefs hf hg he hroom.dated hrow hrenewed hi hall hkey) fun _ =>
          (Coincides.refl (room_deleteRow he hkey)).mono (fun _ h => h.room) fun _ _ h => h).mono
        (fun w h => h ▸ hlone) fun _ _ h => h

/-- By induction on the room: where deletions are opened deeper than that, it makes no difference what
stands where they are opened no more. -/
theorem coincides_iterate (f g : Entity → Row → Operation Unit) (m : Nat) :
    ∀ {n : Nat} {e : Entity} {row : Row}, m + 2 ≤ n → s.entity? e.name = some e →
      Coincides (fun w => Room s κ old m w ∧ w.tables.Has e.name row)
        ((deletion s)^[n] f e row) ((deletion s)^[n] g e row) fun _ => Room s κ old m := by
  induction m with
  | zero =>
    intro n e row hdepth he
    obtain ⟨n, rfl⟩ : ∃ k, n = k + 2 := ⟨n - 2, by omega⟩
    simp only [Function.iterate_succ_apply']
    exact coincides_deletion hs hdefs (passesBegun_deletion s _) (passesBegun_deletion s _)
      (fun m' hm => absurd hm (Nat.succ_ne_zero m').symm) he
  | succ m ih =>
    intro n e row hdepth he
    obtain ⟨n, rfl⟩ : ∃ k, n = k + 2 := ⟨n - 2, by omega⟩
    have hpasses (f : Entity → Row → Operation Unit) : PassesBegun ((deletion s)^[n + 1] f) := by
      rw [Function.iterate_succ_apply']
      exact passesBegun_deletion s _
    rw [Function.iterate_succ_apply' _ (n + 1) f, Function.iterate_succ_apply' _ (n + 1) g]
    refine coincides_deletion hs hdefs (hpasses f) (hpasses g) (fun m' hm c row hc => ?_) he
    obtain rfl : m = m' := Nat.succ.inj hm
    exact ih (by omega) hc

end

/-! ### Deletions that begin -/

/-- The instants that are stored. -/
def storedInstants (tables : Tables) : List Int :=
  ((tables.values.flatMap Table.toList).flatMap SortedMap.values).filterMap Value.instant?

theorem mem_storedInstants {tables : Tables} {n : String} {i : Int} (hrow : tables.Has n row)
    (hi : row.Bears i) : i ∈ storedInstants tables := by
  obtain ⟨t, ht, hrow⟩ := hrow
  obtain ⟨c, hc⟩ := hi
  obtain ⟨p, hp, rfl⟩ := Option.map_eq_some_iff.1 ht
  refine List.mem_filterMap.2 ⟨row.value c, List.mem_flatMap.2 ⟨row, ?_, ?_⟩, hc⟩
  · exact List.mem_flatMap.2 ⟨p.2, List.mem_map_of_mem (mem_of_entryAt? hp).1, hrow⟩
  · cases hget : row.get? c with
    | none =>
      rw [Row.value, hget] at hc
      cases hc
    | some v =>
      obtain ⟨q, hq, rfl⟩ := Option.map_eq_some_iff.1 hget
      rw [Row.value, hget]
      exact List.mem_map_of_mem (mem_of_entryAt? hq).1

/-- At first there is room for a deletion of each row and for one at each instant. -/
theorem Room.start (h : s.Indexed κ w.tables) :
    Room s κ (storedInstants w.tables) w.tables.extent w where
  indexed := h
  dated :=
    { instants := fun _ hrow hi => .inl (mem_storedInstants hrow ⟨_, hi⟩)
      alone := fun _ hrow _ _ hi hbears => absurd (mem_storedInstants hrow hbears) hi
      unshared := fun _ hrow hrenewed => by
        obtain ⟨⟨c, -, hstamp⟩, i, hi, hall⟩ := hrenewed
        exact absurd (mem_storedInstants hrow ⟨c, hall c hstamp⟩) hi }
  covers := by
    refine ⟨rowKeys w.tables, fun {e row} he hrow => .inl ?_, ?_⟩
    · obtain ⟨t, ht, hrow⟩ := hrow
      obtain ⟨p, hp, rfl⟩ := Option.map_eq_some_iff.1 ht
      refine List.mem_flatMap.2 ⟨p.2, List.mem_map_of_mem (mem_of_entryAt? hp).1, ?_⟩
      refine List.mem_map.2 ⟨row, hrow, ?_⟩
      rw [h.keyOf he ht, Table.name, h.definition he ht]
      rfl
    · rw [extent_eq]
      refine Nat.add_le_add List.countP_le_length (List.countP_le_length.trans ?_)
      exact List.length_filterMap_le _ _


/-- However much deeper deletions are opened, and whatever stands below, that is the deletion. -/
theorem delete_eq (hs : s.Resolved) (hdefs : Schema.ofDefs defs = .ok s) (hroom : Room s κ old m w)
    (he : s.entity? e.name = some e) (hrow : w.tables.Has e.name row) {n : Nat} (hdepth : m + 2 ≤ n)
    (f : Entity → Row → Operation Unit) :
    ((deletion s)^[n] f e row).run w = (delete s e row).run w := by
  have hstart := Room.start hroom.indexed
  -- Deep enough for both.
  have hdeeper (g : Entity → Row → Operation Unit) := (coincides_iterate hs hdefs g
    ((deletion s)^[w.tables.extent + 2] fun _ _ => Pure.pure ()) m hdepth he).same w ⟨hroom, hrow⟩
  rw [run_delete, hdeeper f, ← Function.iterate_add_apply, Nat.add_comm, Function.iterate_add_apply]
  exact (coincides_iterate hs hdefs _ _ _ le_rfl he).same w ⟨hstart, hrow⟩

/-- The deletion of a row is the recursion in which those of others are deletions again. -/
theorem delete_recursion (hs : s.Resolved) (hdefs : Schema.ofDefs defs = .ok s)
    (hindexed : s.Indexed κ w.tables) (he : s.entity? e.name = some e) (hrow : w.tables.Has e.name row) :
    (delete s e row).run w = (deletion s (delete s) e row).run w := by
  have hstart := Room.start hindexed
  generalize w.tables.extent = m at hstart
  let bottom : Entity → Row → Operation Unit := (deletion s)^[m + 1] fun _ _ => Pure.pure ()
  have hpasses : PassesBegun bottom := by
    show PassesBegun ((deletion s)^[m + 1] _)
    rw [Function.iterate_succ_apply']
    exact passesBegun_deletion s _
  have hstep := (coincides_deletion hs hdefs (passesBegun_delete s) hpasses
    (fun m' hm c z hc => ?_) he).same w ⟨hstart, hrow⟩
  · rw [hstep, ← delete_eq hs hdefs hstart he hrow le_rfl fun _ _ => Pure.pure (),
      Function.iterate_succ_apply']
  · subst hm
    exact ⟨fun w' h => (delete_eq hs hdefs h.1 hc h.2 le_rfl _).symm, fun w' h => by
      rw [← delete_eq hs hdefs h.1 hc h.2 le_rfl fun _ _ => Pure.pure ()]
      exact (coincides_iterate hs hdefs _ (fun _ _ => Pure.pure ()) m' le_rfl hc).ends w' h⟩

end

end Operation

end RelationalStore

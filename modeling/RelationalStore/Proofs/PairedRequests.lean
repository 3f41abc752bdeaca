import RelationalStore.Proofs.PairedWrites

/- From twins each request gives the same answer (`Request.Offered.mirrors`). Updates, deletions and
   requests are put together from what the functions they call do; what a deletion looks for is the
   key of the deleted row, which is in order with the foreign keys because these have the declared
   kinds. -/
namespace RelationalStore
open SortedMap Read

variable {s : Schema} {κ : String → String → NumberClass} {J : Tables → Transaction → Prop}
  {e : Entity} (hg : s.Governs κ J)

namespace Operation

/-! ### Updates -/

section
variable (he : s.entity? e.name = some e)
include hg he

omit he in
theorem mirrors_reviseOwner (r : Relation) (v : Revision) (write : NestedWrite) :
    Mirrors s κ J (reviseOwner s e r v write) := by
  refine .ite (fun _ => .throw _) fun _ => ?_
  split
  · exact .ofExcept _
  · exact .throw _
  · refine .ite (fun _ => .pure _) fun _ => ?_
    exact .andThen (mirrors_resolveParent hg r write) fun _ => .pure _

omit he in
theorem mirrors_revise (v : Revision) (entry : String × FieldWrite) :
    Mirrors s κ J (revise s e v entry) := by
  unfold revise
  split
  · exact .ofExcept _
  · refine .andThen (mirrors_requireRelation e entry.1) fun r => ?_
    split
    · exact .ite (fun _ => mirrors_reviseOwner hg r v _) fun _ => .pure _
    · exact .throw _

omit hg he in
theorem mirrors_stamp (v : Revision) : Mirrors s κ J (stamp e v) :=
  (mirrors_touch _).andThen fun _ => .pure _

theorem mirrors_update (data : WriteData) {row : Row} (hrow : row.Obeys (s.Sorted κ) e.name) :
    Mirrors s κ J (update s e data row) := by
  have hs := hg.apt.resolved
  have hV := hg.admits
  have hJ := hg.upholds
  refine .bind (.foldlM (fun v entry _ => mirrors_revise hg v entry) _)
    (Keeps.foldlM (Q := fun v : Revision => v.row.Obeys (s.Sorted κ) e.name) hrow
      fun v hv entry _ => upholds_revise hs hV hJ he hv entry) fun v hv => ?_
  refine .andThen (mirrors_checkForeignKeys hg he hv.within _) fun _ => ?_
  refine .bind (mirrors_stamp v) (upholds_stamp hV he hv) fun next hnext => ?_
  refine .andThen (mirrors_putRow hg he hnext).discard fun _ => ?_
  refine .andThen (mirrors_note .update _) fun _ => ?_
  refine .andThen (mirrors_createChildren hg he hnext data.fields) fun _ => ?_
  exact mirrors_reread hg he hrow.within

end

/-! ### Deletions -/

section
include hg

theorem mirrors_clearKey {child : Entity} (hchild : s.entity? child.name = some child)
    (d : Dependent) {row : Row} (hrow : row.Obeys (s.Sorted κ) child.name) :
    Mirrors s κ J (clearKey d child row) := by
  have hV := hg.admits
  refine .bind (mirrors_touch _) (upholds_touch hV hchild ?_) fun row hrow => ?_
  · exact hrow.foldl fun _ hrow _ _ => hrow.insert (hV.null _ _)
  · exact (mirrors_putRow hg hchild hrow).discard.andThen fun _ => mirrors_note .update _

theorem mirrors_forEachPresent (he : s.entity? e.name = some e) {rows : List Row}
    (hrows : ∀ row ∈ rows, row.Within (κ e.name)) {f : Row → Operation Unit}
    (hf : ∀ row : Row, row.Obeys (s.Sorted κ) e.name → Mirrors s κ J (f row)) :
    Mirrors s κ J (forEachPresent s e rows f) := by
  refine .forM fun row hrow => .bind (mirrors_row? hg he (hrows row hrow))
    (upholds_look hg.upholds fun v _ hv => hv.row? e _) fun found hfound => ?_
  split
  · next current => exact hf current (hfound current rfl)
  · exact .pure _

theorem mirrors_settleDependents (he : s.entity? e.name = some e) {row : Row}
    (hrow : row.Within (κ e.name)) {f : Entity → Row → Operation Unit}
    (hf : ∀ child : Entity, s.entity? child.name = some child → ∀ row : Row,
      row.Obeys (s.Sorted κ) child.name → Mirrors s κ J (f child row)) {d : Dependent}
    (hd : d ∈ e.dependents) : Mirrors s κ J (settleDependents s e row f d) := by
  have hs := hg.apt.resolved
  obtain ⟨c, hc, r, hr, hreferences, rfl⟩ := (hs.dependents he d).1 hd
  unfold settleDependents
  refine .ite (fun _ => .pure _) fun hkey => ?_
  simp only [Bool.or_eq_true, not_or, Bool.not_eq_true] at hkey
  refine .bind (.ofExcept _) (upholds_require hs _) fun child hchild => ?_
  have hname : child.name = c.name := hchild.2
  obtain rfl : child = c := by
    have heq : s.entity? child.name = some c := hname ▸ hc
    exact Option.some.inj (hchild.1.symm.trans heq)
  have hrows : Upholds J (look s fun v => v.rowsWhere child r.near (Key.ofRow r.far row))
      fun rows => ∀ row ∈ rows, row.Obeys (s.Sorted κ) child.name :=
    upholds_look hg.upholds fun v _ hv => hv.rowsWhere child _ _
  refine .bind (.look hg fun v v' hv => ?_) hrows fun rows hrows => ?_
  · refine hv.rowsWhere_eq hg.apt hchild.1 ?_ hkey.2
    exact hv.holds.fits_link hs hg.apt.kinds hchild.1 hr (by rwa [hreferences])
  have hwithin : ∀ row ∈ rows, row.Within (κ child.name) := fun row hrow => (hrows row hrow).within
  split
  · exact .pure _
  · exact .ite (fun _ => .throw _) fun _ => .pure _
  · exact mirrors_forEachPresent hg hchild.1 hwithin fun row hrow => hf child hchild.1 row hrow
  · exact mirrors_forEachPresent hg hchild.1 hwithin fun row hrow =>
      mirrors_clearKey hg hchild.1 _ hrow

theorem mirrors_deleteWithin (depth : Nat) {e : Entity} (he : s.entity? e.name = some e) {row : Row}
    (hrow : row.Obeys (s.Sorted κ) e.name) : Mirrors s κ J (deleteWithin s depth e row) := by
  induction depth generalizing e row with
  | zero => exact .pure _
  | succ depth ih =>
    refine .andThen (mirrors_beginDelete _) fun _ => .ite (fun _ => ?_) fun _ => .pure _
    refine .andThen (.forM fun d hd => ?_) fun _ => mirrors_deleteRow hg he hrow
    exact mirrors_settleDependents hg he hrow.within (fun child hchild row hrow => ih hchild hrow) hd

/-- The tables have the same rows, so deletions may be nested equally deep. -/
theorem mirrors_delete (he : s.entity? e.name = some e) {row : Row}
    (hrow : row.Obeys (s.Sorted κ) e.name) : Mirrors s κ J (delete s e row) := by
  refine .get fun w w' hw => ⟨?_, mirrors_deleteWithin hg _ he hrow⟩
  have hrows : w'.tables.values.flatMap Table.toList = w.tables.values.flatMap Table.toList :=
    congrArg List.flatten hw.tables.toList_eq.symm
  have hextent : w'.tables.extent = w.tables.extent := by
    rw [Tables.extent, Tables.extent, hrows]
  show deleteWithin s (w'.tables.extent + 2) e row = deleteWithin s (w.tables.extent + 2) e row
  rw [hextent]

end

end Operation

/-! ### Requests -/

namespace Request
variable {q : Query} {α : Type} {r : Request α} (he : s.entity? e.name = some e)
include hg he

open Operation

theorem Looks.mirrors (h : r.Looks q) : Mirrors s κ J (r.operation s e) := by
  have hmany (q : Query) : Mirrors s κ J ((Request.findMany q).operation s e) :=
    .look hg fun _ _ hv => hv.findMany_eq hg.apt he q
  have hunique : Mirrors s κ J ((Request.findUnique q).operation s e) := by
    simp only [Request.findUnique]
    refine .look hg fun v v' hv => ?_
    refine bind_eq rfl .any fun selector _ => ?_
    refine bind_eq (hv.findUnique_eq hg.apt he selector) (hv.gives_within.findUnique e selector)
      fun found hfound => ?_
    rw [hv.attach_eq hg.apt he (fun x hx => hfound x (by simpa using hx)) q]
  cases h with
  | findMany => exact hmany q
  | findFirst => exact (hmany _).andThen fun _ => .pure _
  | findFirstOrThrow => exact ((hmany _).andThen fun _ => .pure _).andThen fun _ => .ofExcept _
  | findUnique => exact hunique
  | findUniqueOrThrow => exact hunique.andThen fun _ => .ofExcept _
  | count => exact .look hg fun _ _ hv => hv.count_eq hg.apt he q

theorem mirrors_insertBatch (q : Query) : Mirrors s κ J (insertBatch s e q) := by
  unfold insertBatch
  have hcreate (data : WriteData) : Mirrors s κ J (Operation.create s e ∅ data) :=
    mirrors_create hg he .empty data
  cases q.data with
  | none => exact Mirrors.andThen (.throw _) fun _ => (Mirrors.mapM fun data _ =>
      .ite (fun _ => .throw _) fun _ => mirrors_skipDuplicate _ (hcreate data)).andThen fun _ => .pure _
  | some data =>
    refine (Mirrors.pure _).andThen fun batch => .andThen (.mapM fun data _ => ?_) fun _ => .pure _
    exact .ite (fun _ => .throw _) fun _ => mirrors_skipDuplicate _ (hcreate data)

theorem Writes.mirrors (h : r.Writes q) : Mirrors s κ J (r.operation s e) := by
  have hs := hg.apt.resolved
  have hV := hg.admits
  have hJ := hg.upholds
  have hrecord {row : Row} (hrow : row.Obeys (s.Sorted κ) e.name) :
      Mirrors s κ J (look s fun v => v.record e q row) :=
    .look hg fun _ _ hv => hv.record_eq hg.apt he q hrow.within
  have hselect (selector : Filter) : Mirrors s κ J
      (look s fun v => v.findUnique e selector >>= fun found => requireFound e found) :=
    .look hg fun _ _ hv => by rw [hv.findUnique_eq hg.apt he selector]
  have hfound (selector : Filter) : Upholds J
      (look s fun v => v.findUnique e selector >>= fun found => requireFound e found)
      fun row => row.Obeys (s.Sorted κ) e.name := by
    refine upholds_look hJ fun v _ hv => .bind (hv.findUnique e selector) fun found hfound => ?_
    exact .elim (.error trivial) hfound
  have hmatching : Mirrors s κ J (look s fun v => v.matching e q.filter) :=
    .look hg fun _ _ hv => hv.matching_eq hg.apt he q.filter
  have hmatched : Upholds J (look s fun v => v.matching e q.filter)
      fun rows => ∀ row ∈ rows, row.Obeys (s.Sorted κ) e.name :=
    upholds_look hJ fun v _ hv => hv.matching e q.filter
  cases h with
  | create =>
    refine .andThen (.ofExcept _) fun data => .andThen (.ofExcept _) fun _ => ?_
    exact .bind (mirrors_create hg he .empty data) (upholds_create hs hV hJ he .empty data)
      fun row hrow => hrecord hrow
  | createMany => exact (mirrors_insertBatch hg he q).andThen fun _ => .pure _
  | createManyAndReturn =>
    refine .bind (mirrors_insertBatch hg he q) (Keeps.insertBatch (fun _ => trivial) fun data _ =>
      upholds_create hs hV hJ he .empty data) fun rows hrows => ?_
    exact .look hg fun _ _ hv => hv.attach_eq hg.apt he (fun x hx => (hrows x hx).within) q
  | update =>
    refine .andThen (.ofExcept _) fun selector => .andThen (.ofExcept _) fun data =>
      .andThen (.ofExcept _) fun _ => ?_
    refine .bind (hselect selector) (hfound selector) fun row hrow => ?_
    exact .bind (mirrors_update hg he data hrow) (upholds_update hs hV hJ he data hrow)
      fun row hrow => hrecord hrow
  | updateMany =>
    refine .andThen (.ofExcept _) fun data => .ite (fun _ => .throw _) fun _ => ?_
    refine .bind hmatching hmatched fun rows hrows => .andThen (.forM fun row hrow => ?_) fun _ => .pure _
    exact (mirrors_update hg he data (hrows row hrow)).discard
  | delete =>
    refine .andThen (.ofExcept _) fun selector =>
      .bind (hselect selector) (hfound selector) fun row hrow => ?_
    refine .andThen (hrecord hrow) fun record => ?_
    exact (mirrors_delete hg he hrow).andThen fun _ => .pure _
  | deleteMany =>
    refine .bind hmatching hmatched fun rows hrows => .foldlM (fun n row hrow => ?_) _
    refine .bind (mirrors_row? hg he (hrows row hrow).within)
      (upholds_look hJ fun v _ hv => hv.row? e _) fun found hfound => ?_
    split
    · next current => exact (mirrors_delete hg he (hfound current rfl)).andThen fun _ => .pure _
    · exact .pure _

theorem Offered.mirrors (h : r.Offered) : Mirrors s κ J (r.operation s e) := by
  obtain ⟨q, hwrites | hlooks⟩ := h
  · exact hwrites.mirrors hg he
  · exact hlooks.mirrors hg he

end Request

end RelationalStore

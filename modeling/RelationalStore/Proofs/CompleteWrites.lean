import RelationalStore.Proofs.CompleteRows

/- The engine's writes keep every row complete. A creation is given by `fillDefaults` what it needs,
   so nothing is asked of the values that were written or linked; an update and a deletion start at
   complete rows and keep them so, field by field. -/
namespace RelationalStore
open SortedMap Read

namespace Operation
variable {s : Schema} (hs : s.Resolved) (hfit : s.Fitting)

/-! ### Creation -/

section Creation
include hs hfit

set_option linter.unusedSectionVars false in
mutual

theorem completing_create {e : Entity} (he : s.entity? e.name = some e) (link : Row) :
    ∀ d : WriteData, Completing s (create s e link d) fun row => s.Complete e.name row
  | ⟨fields⟩ => by
    rw [create]
    refine Keeps.andThen (completing_createFields e ∅ fields) fun row => ?_
    refine Keeps.andThen (completing_checkForeignKeys hs e _ _) fun _ => ?_
    refine Keeps.bind (completing_fillDefaults hs hfit he _) fun row hrow => ?_
    refine Keeps.bind (completing_addRow hs he hrow) fun key hrow => ?_
    refine Keeps.andThen (completing_createChildren he hrow fields) fun _ => ?_
    exact completing_reread e key

theorem completing_createFields (e : Entity) (row : Row) :
    ∀ fields : List (String × FieldWrite), Completing s (createFields s e row fields) fun _ => True
  | [] => by
    rw [createFields]
    exact Keeps.pure trivial
  | (name, write) :: rest => by
    rw [createFields]
    refine Keeps.andThen (completing_createField e row name write) fun row => ?_
    exact completing_createFields e row rest

theorem completing_createField (e : Entity) (row : Row) (name : String) : ∀ write : FieldWrite,
    Completing s (createField s e row name write) fun _ => True
  | .literal literal => by
    rw [createField]
    exact completing_writeLiteral e row name literal
  | .update op => by
    rw [createField]
    exact completing_writeUpdate e row name op
  | .relation write => by
    rw [createField]
    refine Keeps.bind (carries_relationToWrite e name) fun r hr => ?_
    refine Triple.ite (fun howning => ?_) fun _ => Keeps.pure trivial
    refine Triple.ite (fun _ => Keeps.throw trivial) fun _ => ?_
    exact Keeps.bind (completing_resolveParent r write) fun _ _ => Keeps.pure trivial

theorem completing_resolveParent (r : Relation) : ∀ write : NestedWrite,
    Completing s (resolveParent s r write) fun row => s.Complete r.target row
  | ⟨[data], [], _, _, _⟩ => by
    rw [resolveParent]
    refine Keeps.bind (completing_require hs r.target) fun target htarget => ?_
    rw [← htarget.2]
    exact completing_create htarget.1 ∅ data
  | ⟨[], [selector], _, _, _⟩ => by
    rw [resolveParent]
    refine Keeps.bind (completing_require hs r.target) fun target htarget => ?_
    rw [← htarget.2]
    exact completing_findToConnect r target selector
  | ⟨[], [], _, _, _⟩ | ⟨[], _ :: _ :: _, _, _, _⟩ | ⟨[_], _ :: _, _, _, _⟩
  | ⟨_ :: _ :: _, _, _, _, _⟩ => by
    rw [resolveParent] <;> try simp
    refine Keeps.andThen (Keeps.discard (completing_require hs r.target)) fun _ => ?_
    exact Keeps.throw trivial

theorem completing_createChildren {e : Entity} (he : s.entity? e.name = some e) {parent : Row}
    (hparent : s.Complete e.name parent) : ∀ fields : List (String × FieldWrite),
    Completing s (createChildren s e parent fields) fun _ => True
  | [] => by
    rw [createChildren]
    exact Keeps.pure trivial
  | (name, write) :: rest => by
    rw [createChildren]
    refine Keeps.andThen (completing_createChild he hparent name write) fun _ => ?_
    exact completing_createChildren he hparent rest

theorem completing_createChild {e : Entity} (he : s.entity? e.name = some e) {parent : Row}
    (hparent : s.Complete e.name parent) (name : String) : ∀ write : FieldWrite,
    Completing s (createChild s e parent name write) fun _ => True
  | .literal _ => by
    rw [createChild]
    exact Keeps.pure trivial
  | .update _ => by
    rw [createChild]
    exact Keeps.pure trivial
  | .relation write => by
    rw [createChild]
    refine Keeps.bind (carries_relationToWrite e name) fun r hr => ?_
    refine Triple.ite (fun howning => ?_) fun _ => Keeps.pure trivial
    exact completing_writeChildren he hr (by simpa using howning) hparent write

theorem completing_writeChildren {e : Entity} (he : s.entity? e.name = some e) {r : Relation}
    (hr : r ∈ e.relations) (howning : r.isOwning = false) {parent : Row}
    (hparent : s.Complete e.name parent) : ∀ write : NestedWrite,
    Completing s (writeChildren s e r parent write) fun _ => True
  | ⟨created, connected, _, batch, released⟩ => by
    rw [writeChildren]
    refine Keeps.bind (completing_require hs r.target) fun target htarget => ?_
    refine Triple.ite (fun _ => Keeps.throw trivial) fun _ => ?_
    have hrest : Completing s (do
        createAll s target (r.childLink parent) created
        connected.forM (connect s r target parent)
        writeBatch s e r target parent batch) fun _ => True := by
      refine Keeps.andThen (completing_createAll htarget.1 _ created) fun _ => ?_
      refine Keeps.andThen (Keeps.forM fun selector _ => ?_) fun _ => ?_
      · exact completing_connect hs htarget.1 he hr howning htarget.2 hfit hparent selector
      · exact completing_writeBatch htarget.1 e r parent batch
    cases released with
    | none => exact hrest
    | some released =>
      exact Keeps.andThen (completing_disconnect hs htarget.1 he hr howning htarget.2 parent
        released) fun _ => hrest

theorem completing_createAll {e : Entity} (he : s.entity? e.name = some e) (link : Row) :
    ∀ rows : List WriteData, Completing s (createAll s e link rows) fun _ => True
  | [] => by
    rw [createAll]
    exact Keeps.pure trivial
  | data :: rest => by
    rw [createAll]
    refine Keeps.andThen (Keeps.discard (completing_create he link data)) fun _ => ?_
    exact completing_createAll he link rest

theorem completing_writeBatch {target : Entity} (ht : s.entity? target.name = some target)
    (e : Entity) (r : Relation) (parent : Row) : ∀ batch : Option CreateMany,
    Completing s (writeBatch s e r target parent batch) fun _ => True
  | none => by
    rw [writeBatch]
    exact Keeps.pure trivial
  | some batch => by
    rw [writeBatch]
    exact completing_writeMany ht e r parent batch

theorem completing_writeMany {target : Entity} (ht : s.entity? target.name = some target)
    (e : Entity) (r : Relation) (parent : Row) : ∀ batch : CreateMany,
    Completing s (writeMany s e r target parent batch) fun _ => True
  | ⟨rows, skip⟩ => by
    rw [writeMany]
    refine Triple.ite (fun _ => Keeps.throw trivial) fun _ => ?_
    exact completing_createBatch ht _ skip rows

theorem completing_createBatch {e : Entity} (he : s.entity? e.name = some e) (link : Row)
    (skip : Bool) : ∀ rows : List WriteData,
    Completing s (createBatch s e link skip rows) fun _ => True
  | [] => by
    rw [createBatch]
    exact Keeps.pure trivial
  | data :: rest => by
    rw [createBatch]
    refine Triple.ite (fun _ => Keeps.throw trivial) fun _ => ?_
    refine Keeps.andThen (Keeps.discard (carries_skipDuplicate skip
      (completing_create he link data))) fun _ => ?_
    exact completing_createBatch he link skip rest

end

end Creation

/-! ### Updates -/

section Updates
variable {e : Entity} (he : s.entity? e.name = some e)
include hs he

/-- Only a value that may stand in the field is set. -/
theorem reviseField_fills {f : FieldDef} (hf : f ∈ e.fields) {v : Revision} (hv : e.Fills v.row)
    (write : FieldWrite) :
    Yields (reviseField e f v write) (fun v => e.Fills v.row) fun _ => True := by
  refine .ite (fun _ => .throw trivial) fun _ => .andThen .any fun value => ?_
  refine .ite (fun _ => .throw trivial) fun h => .pure ?_
  refine hv.insert (hs.field he) ⟨f, hs.field he f hf, fun hrequired => ?_⟩
  simpa [hrequired] using h

theorem release_fills {r : Relation} (hr : r ∈ e.owningRelations) {v : Revision}
    (hv : e.Fills v.row) :
    Yields (release e r v) (fun v => e.Fills v.row) fun _ => True := by
  unfold release
  split
  · exact .error trivial
  · next hnone =>
    have hbears : ∀ name ∈ r.near, e.Bears name .null := by
      intro name hname
      obtain ⟨f, hf⟩ := Option.isSome_iff_exists.1 ((hs.key he r hr).2.2 name hname)
      have hnot := List.find?_eq_none.1 hnone name hname
      exact ⟨f, hf, fun hrequired => by simp [hf, hrequired] at hnot⟩
    refine .ok ?_
    show e.Fills (r.near.foldl (fun v name => v.set name .null) v).row
    generalize r.near = names at hbears ⊢
    induction names generalizing v with
    | nil => exact hv
    | cons name rest ih =>
      have hnull := hbears name List.mem_cons_self
      refine ih (v := v.set name .null) (hv.insert (hs.field he) hnull) fun name' hname' => ?_
      exact hbears name' (List.mem_cons_of_mem name hname')

include hfit

theorem completing_reviseOwner {r : Relation} (hr : r ∈ e.owningRelations) {v : Revision}
    (hv : e.Fills v.row) (write : NestedWrite) :
    Completing s (reviseOwner s e r v write) fun v => e.Fills v.row := by
  refine Triple.ite (fun _ => Keeps.throw trivial) fun _ => ?_
  split
  · exact Keeps.ofExcept (release_fills hs he hr hv)
  · exact Keeps.throw trivial
  · refine Triple.ite (fun _ => Keeps.pure hv) fun _ => ?_
    refine Keeps.bind (completing_resolveParent hs hfit r write) fun parent hparent => ?_
    exact Keeps.pure (Schema.fills_linkTo hs he hfit hr hparent hv)

theorem completing_revise {v : Revision} (hv : e.Fills v.row) (entry : String × FieldWrite) :
    Completing s (revise s e v entry) fun v => e.Fills v.row := by
  unfold revise
  split
  · next f hf => exact Keeps.ofExcept (reviseField_fills hs he (List.mem_of_find?_eq_some hf) hv _)
  · refine Keeps.bind (upholds_requireRelation e entry.1) fun r hr => ?_
    split
    · refine Triple.ite (fun howning => ?_) fun _ => Keeps.pure hv
      exact completing_reviseOwner hs hfit he (List.mem_filter.2 ⟨hr, howning⟩) hv _
    · exact Keeps.throw trivial

omit hfit in
theorem completing_stamp {v : Revision} (hv : e.Fills v.row) :
    Completing s (stamp e v) fun row => e.Fills row := by
  refine Keeps.bind (completing_touch hs he hv) fun row hrow => Keeps.pure ?_
  refine hrow.foldl fun row hrow f hf => ?_
  have hf := (List.mem_filter.1 hf).1
  exact hrow.insert (hs.field he) ⟨f, hs.field he f hf, hv.required f hf⟩

theorem completing_update (data : WriteData) {row : Row} (hrow : s.Complete e.name row) :
    Completing s (update s e data row) fun _ => True := by
  refine Keeps.bind (Keeps.foldlM (Q := fun v : Revision => e.Fills v.row)
    ((Schema.complete_iff he).1 hrow).toFills fun v hv entry _ =>
      completing_revise hs hfit he hv entry) fun v hv => ?_
  refine Keeps.andThen (completing_checkForeignKeys hs e _ _) fun _ => ?_
  refine Keeps.bind (completing_stamp hs he hv) fun next hnext => ?_
  have hput := completing_putRow hs he hnext
  refine Keeps.bind (R := fun _ => s.Complete e.name next)
    (Keeps.bind hput fun _ hnext => Keeps.pure hnext) fun _ hnext => ?_
  refine Keeps.andThen (completing_note e .update _) fun _ => ?_
  refine Keeps.andThen (completing_createChildren hs hfit he hnext data.fields) fun _ => ?_
  exact (completing_reread e _).mono (fun _ _ => trivial) fun _ h => h

end Updates

/-! ### Deletions -/

section Deletions
include hs

/-- The schema lets a deletion clear only keys that may be null. -/
theorem completing_clearKey {e child : Entity} (he : s.entity? e.name = some e) {d : Dependent}
    (hd : d ∈ e.dependents) (hnull : d.onDelete = .setNull)
    (hchild : s.entity? child.name = some child) (hname : child.name = d.entity) {row : Row}
    (hrow : s.Complete child.name row) : Completing s (clearKey d child row) fun _ => True := by
  obtain ⟨c, hc, r, hr, -, rfl⟩ := (hs.dependents he d).1 hd
  rw [← hname, hchild] at hc
  cases hc
  have hnullable := hs.nullable he _ hd hnull
  refine Keeps.bind (completing_touch hs hchild ?_) fun row hrow => ?_
  · refine ((Schema.complete_iff hchild).1 hrow).toFills.foldl fun _ hrow name hmem => ?_
    obtain ⟨f, hf⟩ := Option.isSome_iff_exists.1 ((hs.key hchild r hr).2.2 name hmem)
    refine hrow.insert (hs.field hchild) ⟨f, hf, fun hrequired => ?_⟩
    have hfree := List.all_eq_true.1 hnullable f (List.mem_filterMap.2 ⟨name, hmem, hf⟩)
    simp [hrequired] at hfree
  · exact Keeps.andThen (Keeps.discard (completing_putRow hs hchild hrow)) fun _ =>
      completing_note child .update _

omit hs in
theorem completing_forEachPresent (e : Entity) (rows : List Row) {f : Row → Operation Unit}
    (hf : ∀ row : Row, s.Complete e.name row → Completing s (f row) fun _ => True) :
    Completing s (forEachPresent s e rows f) fun _ => True := by
  refine Keeps.forM fun row _ => ?_
  refine Keeps.bind (keepsRows_look fun v _ hv => hv.row? e _) fun found hfound => ?_
  split
  · next current => exact hf current (hfound current rfl)
  · exact Keeps.pure trivial

theorem completing_settleDependents {e : Entity} (he : s.entity? e.name = some e) (row : Row)
    {f : Entity → Row → Operation Unit}
    (hf : ∀ child : Entity, s.entity? child.name = some child → ∀ row : Row,
      s.Complete child.name row → Completing s (f child row) fun _ => True)
    {d : Dependent} (hd : d ∈ e.dependents) :
    Completing s (settleDependents s e row f d) fun _ => True := by
  unfold settleDependents
  refine Triple.ite (fun _ => Keeps.pure trivial) fun _ => ?_
  refine Keeps.bind (completing_require hs d.entity) fun child hchild => ?_
  refine Keeps.andThen completing_any fun rows => ?_
  split
  · exact Keeps.pure trivial
  · exact Triple.ite (fun _ => Keeps.throw trivial) fun _ => Keeps.pure trivial
  · exact completing_forEachPresent child rows fun row hrow => hf child hchild.1 row hrow
  · next hnull =>
    exact completing_forEachPresent child rows fun row hrow =>
      completing_clearKey hs he hd hnull hchild.1 hchild.2 hrow

theorem completing_deleteWithin (depth : Nat) {e : Entity} (he : s.entity? e.name = some e)
    (row : Row) : Completing s (deleteWithin s depth e row) fun _ => True := by
  induction depth generalizing e row with
  | zero => exact Keeps.pure trivial
  | succ depth ih =>
    refine Keeps.andThen (upholds_beginDelete (J := s.Keeps s.Complete) _) fun _ => ?_
    refine Triple.ite (fun _ => ?_) fun _ => Keeps.pure trivial
    refine Keeps.andThen (Keeps.forM fun d hd => ?_) fun _ => keepsRows_deleteRow e _
    exact completing_settleDependents hs he row (fun child hchild row _ => ih hchild row) hd

theorem completing_delete {e : Entity} (he : s.entity? e.name = some e) (row : Row) :
    Completing s (delete s e row) fun _ => True :=
  Triple.get fun _ hw w' hw' => by
    subst hw'
    exact completing_deleteWithin hs _ he row _ hw

end Deletions

end Operation

/-! ### Requests -/

namespace Request
variable {s : Schema} {q : Query} {α : Type} {r : Request α}

open Operation

variable {e : Entity} (hs : s.Resolved) (hfit : s.Fitting) (he : s.entity? e.name = some e)
include hs hfit he

theorem completing_insertBatch (q : Query) : Completing s (insertBatch s e q) fun _ => True :=
  (Keeps.insertBatch (fun _ => trivial) fun data _ => completing_create hs hfit he ∅ data).mono
    (fun _ _ => trivial) fun _ h => h

theorem Writes.completing (h : r.Writes q) : Completing s (r.operation s e) fun _ => True := by
  have hfound (selector : Filter) : Completing s
      (look s fun v => v.findUnique e selector >>= fun found => requireFound e found)
      fun row => s.Complete e.name row := by
    refine keepsRows_look fun v _ hv => .bind (hv.findUnique e selector) fun found hfound => ?_
    exact .elim (.error trivial) hfound
  cases h with
  | create =>
    refine Keeps.andThen (Keeps.ofExcept .any) fun data => ?_
    refine Keeps.andThen (Keeps.ofExcept .any) fun _ => ?_
    exact Keeps.bind (completing_create hs hfit he ∅ data) fun _ _ => completing_any
  | createMany => exact Keeps.andThen (completing_insertBatch hs hfit he q) fun _ => Keeps.pure trivial
  | createManyAndReturn =>
    exact Keeps.andThen (completing_insertBatch hs hfit he q) fun _ => completing_any
  | update =>
    refine Keeps.andThen (Keeps.ofExcept .any) fun selector => ?_
    refine Keeps.andThen (Keeps.ofExcept .any) fun data => ?_
    refine Keeps.andThen (Keeps.ofExcept .any) fun _ => ?_
    refine Keeps.bind (hfound selector) fun row hrow => ?_
    exact Keeps.andThen (completing_update hs hfit he data hrow) fun _ => completing_any
  | updateMany =>
    refine Keeps.andThen (Keeps.ofExcept .any) fun data => ?_
    refine Triple.ite (fun _ => Keeps.throw trivial) fun _ => ?_
    refine Keeps.bind (keepsRows_look fun v _ hv => hv.matching e q.filter) fun rows hrows => ?_
    refine Keeps.andThen (Keeps.forM fun row hrow => ?_) fun _ => Keeps.pure trivial
    exact Keeps.discard (completing_update hs hfit he data (hrows row hrow))
  | delete =>
    refine Keeps.andThen (Keeps.ofExcept .any) fun selector => ?_
    refine Keeps.bind (hfound selector) fun row hrow => ?_
    refine Keeps.andThen completing_any fun record => ?_
    exact Keeps.andThen (completing_delete hs he row) fun _ => Keeps.pure trivial
  | deleteMany =>
    refine Keeps.andThen completing_any fun rows => Keeps.foldlM trivial fun n _ row _ => ?_
    refine Keeps.andThen completing_any fun found => ?_
    split
    · exact Keeps.andThen (completing_delete hs he _) fun _ => Keeps.pure trivial
    · exact Keeps.pure trivial

theorem Offered.completing (h : r.Offered) : Completing s (r.operation s e) fun _ => True := by
  obtain ⟨q, hwrites | hlooks⟩ := h
  · exact hwrites.completing hs hfit he
  · exact hlooks.upholds (s.Keeps s.Complete) s e

end Request

end RelationalStore

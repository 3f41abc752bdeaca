import RelationalStore.Proofs.NestedWrites

/- Updates, deletions and whole requests keep an invariant that single writes keep, each from what
   it is made of. Every request that there is to be put to an entity (`Request.Offered`) keeps it. -/
namespace RelationalStore
open SortedMap Read

variable {s : Schema} {V : String → String → Value → Prop} {J : Tables → Transaction → Prop}
  {I : Work → Prop} {e : Entity}

namespace Operation
variable (hs : s.Resolved) (hV : s.Admits V) (hJ : s.Upholds V J)

/-! ### Updates -/

section
variable (he : s.entity? e.name = some e)
include hV he

theorem newValue_obeys {f : FieldDef} (hf : f ∈ e.fields) {current : Value}
    (hcurrent : V e.name f.name current) (write : FieldWrite) :
    Yields (newValue e f current write) (V e.name f.name) fun _ => True := by
  cases write with
  | literal literal => exact .of_ok (fun v hv => hV.coerce he f hf hv) fun _ _ => trivial
  | update op => exact .of_ok (fun v hv => hV.change he f hf hcurrent hv) fun _ _ => trivial
  | relation write => exact .error trivial

theorem reviseField_obeys {f : FieldDef} (hf : f ∈ e.fields) {v : Revision}
    (hv : v.row.Obeys V e.name) (write : FieldWrite) :
    Yields (reviseField e f v write) (fun v => v.row.Obeys V e.name) fun _ => True := by
  refine .ite (fun _ => .throw trivial) fun _ => ?_
  refine .bind (newValue_obeys hV he hf (hv f.name) write) fun value hvalue => ?_
  exact .ite (fun _ => .throw trivial) fun _ => .pure (hv.insert hvalue)

omit he in
theorem release_obeys (e : Entity) (r : Relation) {v : Revision} (hv : v.row.Obeys V e.name) :
    Yields (release e r v) (fun v => v.row.Obeys V e.name) fun _ => True := by
  unfold release
  split
  · exact .error trivial
  · refine .ok ?_
    show Row.Obeys V e.name (r.near.foldl (fun v name => v.set name .null) v).row
    induction r.near generalizing v with
    | nil => exact hv
    | cons name rest ih => exact ih (v := v.set name .null) (hv.insert (hV.null _ _))

include hs

theorem carries_reviseOwner (hI : s.Sustains V I) {r : Relation} (hr : r ∈ e.owningRelations)
    {v : Revision} (hv : v.row.Obeys V e.name) (write : NestedWrite) :
    Carries I (reviseOwner s e r v write) fun v => v.row.Obeys V e.name := by
  refine Triple.ite (fun _ => Keeps.throw trivial) fun _ => ?_
  split
  · exact Keeps.ofExcept (release_obeys hV e r hv)
  · exact Keeps.throw trivial
  · refine Triple.ite (fun _ => Keeps.pure hv) fun _ => ?_
    refine Keeps.bind (carries_resolveParent hs hV hI r write) fun parent hparent => ?_
    exact Keeps.pure (Relation.obeys_linkTo hV he hr hparent hv)

theorem carries_revise (hI : s.Sustains V I) {v : Revision} (hv : v.row.Obeys V e.name)
    (entry : String × FieldWrite) :
    Carries I (revise s e v entry) fun v => v.row.Obeys V e.name := by
  unfold revise
  split
  · next f hf => exact Keeps.ofExcept (reviseField_obeys hV he (List.mem_of_find?_eq_some hf) hv _)
  · refine Keeps.bind (carries_requireRelation e entry.1) fun r hr => ?_
    split
    · refine Triple.ite (fun howning => ?_) fun _ => Keeps.pure hv
      exact carries_reviseOwner hs hV he hI (List.mem_filter.2 ⟨hr, howning⟩) hv _
    · exact Keeps.throw trivial

omit hs in
theorem carries_stamp (hI : Work.Supplied I) {v : Revision} (hv : v.row.Obeys V e.name) :
    Carries I (stamp e v) fun row => row.Obeys V e.name := by
  refine Keeps.bind (carries_touch hV hI he hv) fun row hrow => Keeps.pure ?_
  exact hrow.foldl fun _ hrow f _ => hrow.insert (hv f.name)

include hJ

theorem upholds_revise {v : Revision} (hv : v.row.Obeys V e.name) (entry : String × FieldWrite) :
    Upholds J (revise s e v entry) fun v => v.row.Obeys V e.name :=
  carries_revise hs hV he (sustains_upholds hs hV hJ) hv entry

omit hs hJ in
theorem upholds_stamp {v : Revision} (hv : v.row.Obeys V e.name) :
    Upholds J (stamp e v) fun row => row.Obeys V e.name :=
  carries_stamp hV he (supplied_upholds J) hv

theorem upholds_update (data : WriteData) {row : Row} (hrow : row.Obeys V e.name) :
    Upholds J (update s e data row) fun row => row.Obeys V e.name := by
  refine Keeps.bind (Keeps.foldlM (Q := fun v : Revision => v.row.Obeys V e.name) hrow
    fun v hv entry _ => upholds_revise hs hV hJ he hv entry) fun v hv => ?_
  refine Keeps.andThen (upholds_checkForeignKeys hs hJ e _ _) fun _ => ?_
  refine Keeps.bind (upholds_stamp hV he hv) fun next hnext => ?_
  refine Keeps.andThen (Keeps.discard (upholds_putRow hJ he hnext)) fun _ => ?_
  refine Keeps.andThen (upholds_note .update _) fun _ => ?_
  refine Keeps.andThen (upholds_createChildren hs hV hJ he hnext data.fields) fun _ => ?_
  exact upholds_reread hJ e _

end

/-! ### Deletions -/

section
include hV hJ

theorem upholds_clearKey {child : Entity} (hchild : s.entity? child.name = some child)
    (d : Dependent) {row : Row} (hrow : row.Obeys V child.name) :
    Upholds J (clearKey d child row) fun _ => True := by
  refine Keeps.bind (upholds_touch hV hchild ?_) fun row hrow => ?_
  · exact hrow.foldl fun _ hrow _ _ => hrow.insert (hV.null _ _)
  · exact Keeps.andThen (Keeps.discard (upholds_putRow hJ hchild hrow)) fun _ =>
      upholds_note .update _

omit hV in
theorem upholds_forEachPresent (e : Entity) (rows : List Row) {f : Row → Operation Unit}
    (hf : ∀ row : Row, row.Obeys V e.name → Upholds J (f row) fun _ => True) :
    Upholds J (forEachPresent s e rows f) fun _ => True := by
  refine Keeps.forM fun row _ => ?_
  refine Keeps.bind (upholds_look hJ fun v _ hv => hv.row? e _) fun found hfound => ?_
  split
  · next current => exact hf current (hfound current rfl)
  · exact Keeps.pure trivial

include hs

theorem upholds_settleDependents (e : Entity) (row : Row) {f : Entity → Row → Operation Unit}
    (hf : ∀ child : Entity, s.entity? child.name = some child → ∀ row : Row,
      row.Obeys V child.name → Upholds J (f child row) fun _ => True) (d : Dependent) :
    Upholds J (settleDependents s e row f d) fun _ => True := by
  unfold settleDependents
  refine Triple.ite (fun _ => Keeps.pure trivial) fun _ => ?_
  refine Keeps.bind (upholds_require hs d.entity) fun child hchild => ?_
  refine Keeps.andThen (upholds_look hJ fun v _ _ => .any) fun rows => ?_
  split
  · exact Keeps.pure trivial
  · exact Triple.ite (fun _ => Keeps.throw trivial) fun _ => Keeps.pure trivial
  · exact upholds_forEachPresent hJ child rows fun row hrow => hf child hchild.1 row hrow
  · exact upholds_forEachPresent hJ child rows fun row hrow =>
      upholds_clearKey hV hJ hchild.1 d hrow

theorem upholds_deleteWithin (depth : Nat) {e : Entity} (he : s.entity? e.name = some e) {row : Row}
    (hrow : row.Obeys V e.name) : Upholds J (deleteWithin s depth e row) fun _ => True := by
  induction depth generalizing e row with
  | zero => exact Keeps.pure trivial
  | succ depth ih =>
    refine Keeps.andThen (upholds_beginDelete _) fun _ => ?_
    refine Triple.ite (fun _ => ?_) fun _ => Keeps.pure trivial
    refine Keeps.andThen (Keeps.forM fun d _ => ?_) fun _ => upholds_deleteRow hJ he hrow
    exact upholds_settleDependents hs hV hJ e row (fun child hchild row hrow => ih hchild hrow) d

theorem upholds_delete (he : s.entity? e.name = some e) {row : Row} (hrow : row.Obeys V e.name) :
    Upholds J (delete s e row) fun _ => True :=
  Triple.get fun _ hw w' hw' => by
    subst hw'
    exact upholds_deleteWithin hs hV hJ _ he hrow _ hw

end

end Operation

/-! ### Requests -/

/-- A batch keeps what each of its creations keeps. -/
theorem Operation.Keeps.insertBatch {I : Work → Prop} {Q : Row → Prop} {E : Error → Prop}
    {q : Query} (hE : ∀ fault, E (.invalidQuery fault))
    (h : ∀ data ∈ q.data.elim [] Data.rows, Keeps I (Operation.create s e ∅ data) Q E) :
    Keeps I (Operation.insertBatch s e q) (fun rows => ∀ row ∈ rows, Q row) E := by
  unfold Operation.insertBatch
  cases hd : q.data with
  | none => exact Keeps.bind (R := fun _ => False) (Keeps.throw (hE _)) fun _ h => h.elim
  | some data =>
    rw [hd] at h
    refine Keeps.bind (R := fun batch => batch = data.rows) (Keeps.pure rfl) fun batch hbatch => ?_
    subst hbatch
    refine Keeps.bind (Keeps.mapM (Q := fun created : Option Row => ∀ row ∈ created, Q row)
      fun data hdata => ?_) fun created hcreated => Keeps.pure fun row hrow => ?_
    · refine Triple.ite (fun _ => Keeps.throw (hE _)) fun _ => ?_
      exact Triple.skipDuplicate _ (h data hdata)
        (fun _ _ hrow => ⟨hrow.1, by simpa using hrow.2⟩) fun _ _ _ _ herror => ⟨herror.1, by simp⟩
    · obtain ⟨found, hfound, rfl⟩ := List.mem_filterMap.1 hrow
      exact hcreated _ hfound row rfl

/-- The requests that write what a query asks for. -/
inductive Request.Writes (q : Query) : {α : Type} → Request α → Prop
  | create : Writes q (.create q)
  | createMany : Writes q (.createMany q)
  | createManyAndReturn : Writes q (.createManyAndReturn q)
  | update : Writes q (.update q)
  | updateMany : Writes q (.updateMany q)
  | delete : Writes q (.delete q)
  | deleteMany : Writes q (.deleteMany q)

/-- The requests that read what a query asks for. -/
inductive Request.Looks (q : Query) : {α : Type} → Request α → Prop
  | findMany : Looks q (.findMany q)
  | findFirst : Looks q (.findFirst q)
  | findFirstOrThrow : Looks q (.orThrow (.findFirst q))
  | findUnique : Looks q (.findUnique q)
  | findUniqueOrThrow : Looks q (.orThrow (.findUnique q))
  | count : Looks q (.count q)

namespace Request
variable {q : Query} {α : Type} {r : Request α}

/-- The requests that can be put to an entity. -/
def Offered (r : Request α) : Prop := ∃ q : Query, r.Writes q ∨ r.Looks q

open Operation

/-- A reading changes nothing, so it keeps anything. -/
theorem Looks.upholds (h : r.Looks q) (J : Tables → Transaction → Prop) (s : Schema) (e : Entity) :
    Upholds J (r.operation s e) fun _ => True := by
  have hlook {β : Type} (reading : View → Read β) : Upholds J (look s reading) fun _ => True :=
    Keeps.look fun _ _ => .any
  have hmany (q : Query) : Upholds J ((Request.findMany q).operation s e) fun _ => True := hlook fun v =>
    v.findMany e q
  have hunique : Upholds J ((Request.findUnique q).operation s e) fun _ => True := by
    simp only [Request.findUnique]
    exact hlook _
  cases h with
  | findMany => exact hmany q
  | findFirst => exact Keeps.andThen (hmany _) fun _ => Keeps.pure trivial
  | findFirstOrThrow =>
    refine Keeps.andThen (Keeps.andThen (hmany _) fun _ => Keeps.pure trivial) fun _ => ?_
    exact Keeps.ofExcept .any
  | findUnique => exact hunique
  | findUniqueOrThrow => exact Keeps.andThen hunique fun _ => Keeps.ofExcept .any
  | count => exact hlook fun v => v.count e q

section
variable (hs : s.Resolved) (hV : s.Admits V) (hJ : s.Upholds V J) (he : s.entity? e.name = some e)
include hs hV hJ he

theorem upholds_insertBatch (q : Query) : Upholds J (insertBatch s e q) fun _ => True :=
  (Keeps.insertBatch (fun _ => trivial) fun data _ => upholds_create hs hV hJ he .empty data).mono
    (fun _ _ => trivial) fun _ h => h

theorem Writes.upholds (h : r.Writes q) : Upholds J (r.operation s e) fun _ => True := by
  have hlook {β : Type} (reading : View → Read β) : Upholds J (look s reading) fun _ => True :=
    upholds_look hJ fun _ _ _ => .any
  have hfound (selector : Filter) : Upholds J
      (look s fun v => v.findUnique e selector >>= fun found => requireFound e found)
      fun row => row.Obeys V e.name := by
    refine upholds_look hJ fun v _ hv => .bind (hv.findUnique e selector) fun found hfound => ?_
    exact .elim (.error trivial) hfound
  cases h with
  | create =>
    refine Keeps.andThen (Keeps.ofExcept .any) fun data => ?_
    refine Keeps.andThen (Keeps.ofExcept .any) fun _ => ?_
    refine Keeps.andThen ((upholds_create hs hV hJ he .empty data).mono (fun _ _ => trivial)
      fun _ h => h) fun _ => hlook _
  | createMany => exact Keeps.andThen (upholds_insertBatch hs hV hJ he q) fun _ => Keeps.pure trivial
  | createManyAndReturn => exact Keeps.andThen (upholds_insertBatch hs hV hJ he q) fun _ => hlook _
  | update =>
    refine Keeps.andThen (Keeps.ofExcept .any) fun selector => ?_
    refine Keeps.andThen (Keeps.ofExcept .any) fun data => ?_
    refine Keeps.andThen (Keeps.ofExcept .any) fun _ => ?_
    refine Keeps.bind (hfound selector) fun row hrow => ?_
    refine Keeps.andThen ((upholds_update hs hV hJ he data hrow).mono (fun _ _ => trivial)
      fun _ h => h) fun _ => hlook _
  | updateMany =>
    refine Keeps.andThen (Keeps.ofExcept .any) fun data => ?_
    refine Triple.ite (fun _ => Keeps.throw trivial) fun _ => ?_
    refine Keeps.bind (upholds_look hJ fun v _ hv => hv.matching e q.filter) fun rows hrows => ?_
    refine Keeps.andThen (Keeps.forM fun row hrow => ?_) fun _ => Keeps.pure trivial
    exact Keeps.discard (upholds_update hs hV hJ he data (hrows row hrow))
  | delete =>
    refine Keeps.andThen (Keeps.ofExcept .any) fun selector => ?_
    refine Keeps.bind (hfound selector) fun row hrow => ?_
    refine Keeps.andThen (hlook _) fun record => ?_
    exact Keeps.andThen (upholds_delete hs hV hJ he hrow) fun _ => Keeps.pure trivial
  | deleteMany =>
    -- Each row is read again, since the deletion of another one may have taken or changed it.
    refine Keeps.andThen (hlook _) fun rows => Keeps.foldlM trivial fun n _ row _ => ?_
    refine Keeps.bind (upholds_look hJ fun v _ hv => hv.row? e _) fun found hfound => ?_
    split
    · next current =>
      exact Keeps.andThen (upholds_delete hs hV hJ he (hfound current rfl)) fun _ =>
        Keeps.pure trivial
    · exact Keeps.pure trivial

theorem Offered.upholds (h : r.Offered) : Upholds J (r.operation s e) fun _ => True := by
  obtain ⟨q, hwrites | hlooks⟩ := h
  · exact hwrites.upholds hs hV hJ he
  · exact hlooks.upholds J s e

end

end Request

end RelationalStore

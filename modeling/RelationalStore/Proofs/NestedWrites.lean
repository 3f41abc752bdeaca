import RelationalStore.Engine.Create
import RelationalStore.Proofs.WriteInvariants

/- Creating rows with all that is written through their relations keeps an invariant that single
   writes keep. The proof has one lemma for each function and follows the nesting of the write data;
   of each row that is linked to another it shows that the key it gets may stand in its columns. -/
namespace RelationalStore
open SortedMap Read

variable {s : Schema} {V : String → String → Value → Prop} {J : Tables → Transaction → Prop}
  {I : Work → Prop} {e target : Entity}

/-! ### Links between rows -/

namespace Relation
variable {r : Relation} {parent row : Row}

theorem obeys_linkTo (hV : s.Admits V) (he : s.entity? e.name = some e)
    (hr : r ∈ e.owningRelations) (hparent : parent.Obeys V r.target) (hrow : row.Obeys V e.name) :
    (r.linkTo parent row).Obeys V e.name :=
  hrow.foldl fun _ hrow p hp => hrow.insert (hV.link he r hr p hp (hparent p.2))

/-- The key of a parent goes the same way through the relation that is mirrored. -/
theorem lists_childLink (hs : s.Resolved) (hV : s.Admits V) (he : s.entity? e.name = some e)
    (hr : r ∈ e.relations) (howning : r.isOwning = false) (hparent : parent.Obeys V e.name) :
    (r.childLink parent).Lists V r.target := by
  obtain ⟨t, ht, o, ho, htarget, hnear, hfar⟩ := hs.mirrored he r hr howning
  have hname := hs.name ht
  refine .ofList fun p hp => ?_
  obtain ⟨⟨far, near⟩, hzip, rfl⟩ := List.mem_map.1 hp
  rw [← hnear, ← hfar] at hzip
  rw [← hname]
  apply hV.link (by rw [hname, ht]) o ho (far, near) hzip
  rw [htarget]
  exact hparent near

end Relation

namespace Operation

/-! ### Reading rows -/

section
variable (hs : s.Resolved) (hI : s.Sees V I)
include hs hI

theorem carries_checkForeignKeys (e : Entity) (row : Row) (written : List String) :
    Carries I (checkForeignKeys s e row written) fun _ => True := by
  refine Keeps.forM fun r _ => Triple.ite (fun _ => ?_) fun _ => Keeps.pure trivial
  refine Keeps.andThen ((carries_require hs r.target).mono (fun _ _ => trivial) fun _ h => h)
    fun target => ?_
  refine Keeps.andThen (carries_look hI fun v _ _ => .any) fun rows => ?_
  exact Triple.ite (fun _ => Keeps.throw trivial) fun _ => Keeps.pure trivial

theorem carries_relatedRows (r : Relation) (row : Row) :
    Carries I (look s fun v => v.relatedRows r row) fun rows => ∀ row ∈ rows, row.Obeys V r.target :=
  carries_look hI fun v hv hgives => by
    subst hv
    exact hgives.relatedRows hs r row

omit hs in
theorem carries_reread (e : Entity) (key : Key) :
    Carries I (reread s e key) fun row => row.Obeys V e.name := by
  refine Keeps.bind (carries_look hI fun v _ hv => hv.row? e key) fun found hfound => ?_
  split
  · exact Keeps.pure (hfound _ rfl)
  · exact Keeps.throw trivial

omit hs in
theorem carries_findToConnect (r : Relation) (target : Entity) (selector : Filter) :
    Carries I (findToConnect s r target selector) fun row => row.Obeys V target.name := by
  refine Keeps.bind (carries_look hI fun v _ hv => hv.findUnique target selector) fun found hfound => ?_
  split
  · exact Keeps.pure (hfound _ rfl)
  · exact Keeps.throw trivial

end

section
variable (hs : s.Resolved) (hV : s.Admits V) (hJ : s.Upholds V J)
include hJ

theorem upholds_reread (e : Entity) (key : Key) :
    Upholds J (reread s e key) fun row => row.Obeys V e.name :=
  carries_reread (sees_upholds hJ) e key

theorem upholds_findToConnect (r : Relation) (target : Entity) (selector : Filter) :
    Upholds J (findToConnect s r target selector) fun row => row.Obeys V target.name :=
  carries_findToConnect (sees_upholds hJ) r target selector

include hs

theorem upholds_checkForeignKeys (e : Entity) (row : Row) (written : List String) :
    Upholds J (checkForeignKeys s e row written) fun _ => True :=
  carries_checkForeignKeys hs (sees_upholds hJ) e row written

theorem upholds_relatedRows (r : Relation) (row : Row) :
    Upholds J (look s fun v => v.relatedRows r row) fun rows => ∀ row ∈ rows, row.Obeys V r.target :=
  carries_relatedRows hs (sees_upholds hJ) r row

/-! ### Rows that reference a parent -/

include hV

omit hs in
theorem upholds_unlink (ht : s.entity? target.name = some target) (r : Relation) {child : Row}
    (hchild : child.Obeys V target.name) : Upholds J (unlink r target child) fun _ => True := by
  simp only [unlink]
  split
  · exact Keeps.throw trivial
  · refine Keeps.bind (upholds_touch hV ht ?_) fun row hrow => upholds_changeRow hJ ht hrow
    exact hchild.foldl fun _ hrow _ _ => hrow.insert (hV.null _ _)

theorem upholds_disconnect (ht : s.entity? target.name = some target) {r : Relation}
    (hr : target.name = r.target) (e : Entity) (parent : Row) (d : Disconnect) :
    Upholds J (disconnect s e r target parent d) fun _ => True := by
  cases d with
  | flag on =>
    cases on with
    | false => exact Keeps.pure trivial
    | true =>
      refine Triple.ite (fun _ => Keeps.throw trivial) fun _ => ?_
      refine Keeps.bind (upholds_relatedRows hs hJ r parent) fun rows hrows => ?_
      refine Keeps.forM fun row hrow => upholds_unlink hV hJ ht r ?_
      rw [hr]
      exact hrows row hrow
  | records selectors =>
    refine Triple.ite (fun _ => Keeps.throw trivial) fun _ => Keeps.forM fun selector _ => ?_
    refine Keeps.bind (upholds_look hJ fun v _ hv => hv.findUnique target selector)
      fun found hfound => ?_
    split
    · exact Keeps.pure trivial
    · refine Triple.ite (fun _ => ?_) fun _ => Keeps.pure trivial
      exact upholds_unlink hV hJ ht r (hfound _ rfl)

theorem upholds_connect (he : s.entity? e.name = some e) (ht : s.entity? target.name = some target)
    {r : Relation} (hr : r ∈ e.relations) (howning : r.isOwning = false)
    (htarget : target.name = r.target) {parent : Row} (hparent : parent.Obeys V e.name)
    (selector : Filter) : Upholds J (connect s r target parent selector) fun _ => True := by
  -- The child gets the parent's values, which obey `V` in its own columns as they do in the parent's.
  have hlink := Relation.lists_childLink hs hV he hr howning hparent
  rw [← htarget] at hlink
  refine Keeps.bind (upholds_findToConnect hJ r target selector) fun child hchild => ?_
  have hwrite : Upholds J (touch target (child.insertAll (r.childLink parent)) >>= changeRow target)
      fun _ => True :=
    Keeps.bind (upholds_touch hV ht (hchild.insertAll hlink)) fun row hrow =>
      upholds_changeRow hJ ht hrow
  refine Triple.ite (fun _ => ?_) fun _ => hwrite
  refine Keeps.bind (upholds_relatedRows hs hJ r parent) fun rows hrows => ?_
  refine Keeps.andThen (Keeps.forM fun row hrow => ?_) fun _ => hwrite
  refine Triple.ite (fun _ => upholds_unlink hV hJ ht r ?_) fun _ => Keeps.pure trivial
  rw [htarget]
  exact hrows row hrow

end

end Operation

/-! ### Creation -/

open Operation

/-- Adding rows that obey `V` keeps `I`, and so does letting go and connecting rows that are there. -/
structure Schema.Sustains (s : Schema) (V : String → String → Value → Prop) (I : Work → Prop) : Prop
    extends s.Sees V I where
  addRow : ∀ {e}, s.entity? e.name = some e → ∀ {row : Row}, row.Obeys V e.name →
    Carries I (addRow e row) fun _ => True
  disconnect : ∀ {e target}, s.entity? e.name = some e → s.entity? target.name = some target →
    ∀ {r}, r ∈ e.relations → r.isOwning = false → target.name = r.target → ∀ parent d,
      Carries I (disconnect s e r target parent d) fun _ => True
  connect : ∀ {e target}, s.entity? e.name = some e → s.entity? target.name = some target →
    ∀ {r}, r ∈ e.relations → r.isOwning = false → target.name = r.target → ∀ {parent : Row},
      parent.Obeys V e.name → ∀ selector,
        Carries I (connect s r target parent selector) fun _ => True

namespace Operation

theorem carries_writeLiteral (hV : s.Supplies V) (he : s.entity? e.name = some e) {row : Row}
    (hrow : row.Obeys V e.name) (name : String) (literal : Json) :
    Carries I (writeLiteral e row name literal) fun row => row.Obeys V e.name := by
  unfold writeLiteral
  split
  · next f hf =>
    have hname : f.name = name := by simpa using List.find?_some hf
    refine Keeps.bind (R := V e.name name) (Keeps.ofExcept (.of_ok ?_ fun _ _ => trivial))
      fun v hv => Keeps.pure (hrow.insert hv)
    intro v hv
    rw [← hname]
    exact hV.coerce he f (List.mem_of_find?_eq_some hf) hv
  · refine Keeps.andThen (Keeps.discard (R := fun _ => True) (Keeps.ofExcept .any)) fun _ => ?_
    exact Keeps.throw trivial

theorem carries_writeUpdate (hV : s.Supplies V) (he : s.entity? e.name = some e) {row : Row}
    (hrow : row.Obeys V e.name) (name : String) (op : UpdateOp) :
    Carries I (writeUpdate e row name op) fun row => row.Obeys V e.name := by
  unfold writeUpdate
  split
  · exact carries_writeLiteral hV he hrow name _
  · exact Keeps.throw trivial
  · refine Keeps.andThen (Keeps.discard (R := fun _ => True) (Keeps.ofExcept .any)) fun _ => ?_
    exact Keeps.throw trivial

theorem carries_relationToWrite (e : Entity) (name : String) :
    Carries I (relationToWrite e name) fun r => r ∈ e.relations :=
  Triple.ite (fun _ => Keeps.throw trivial) fun _ => carries_requireRelation e name

/-- Only the violation of a unique constraint is caught; what was done by then stays done. -/
theorem run_skipDuplicate (skip : Bool) (creation : Operation Row) (w : Work) :
    (skipDuplicate skip creation).run w =
      match creation.run w with
      | .ok row w' => .ok (some row) w'
      | .error (.uniqueViolation entity fields) w' =>
        if skip then .ok none w' else .error (.uniqueViolation entity fields) w'
      | .error e w' => .error e w' := by
  simp only [EStateM.run]
  unfold skipDuplicate
  simp only [bind, EStateM.bind, tryCatch, tryCatchThe, MonadExceptOf.tryCatch, EStateM.tryCatch]
  cases creation w with
  | ok row w' => rfl
  | error e w' =>
    cases e with
    | uniqueViolation entity fields => cases skip <;> rfl
    | _ => rfl

/-- No rule of triples is about catching an error, so the run itself is looked at. -/
theorem Triple.skipDuplicate {P : Work → Prop} {Q : Row → Work → Prop}
    {Q' : Option Row → Work → Prop} {E : Error → Work → Prop} (skip : Bool)
    {creation : Operation Row} (h : Triple P creation Q E)
    (hcreated : ∀ row w, Q row w → Q' (some row) w)
    (hskipped : skip = true → ∀ entity fields w, E (.uniqueViolation entity fields) w →
      Q' none w) :
    Triple P (skipDuplicate skip creation) Q' E := by
  intro w hw
  have hrun := h w hw
  rw [run_skipDuplicate]
  cases hc : creation.run w with
  | ok row w' =>
    rw [hc] at hrun
    exact hcreated row w' hrun
  | error e w' =>
    rw [hc] at hrun
    cases e with
    | uniqueViolation entity fields =>
      cases skip with
      | false => exact hrun
      | true => exact hskipped rfl entity fields w' hrun
    | _ => exact hrun

theorem carries_skipDuplicate (skip : Bool) {creation : Operation Row} {Q : Row → Prop}
    (h : Carries I creation Q) :
    Carries I (skipDuplicate skip creation) fun created => ∀ row ∈ created, Q row :=
  Triple.skipDuplicate skip h (fun _ _ hrow => ⟨hrow.1, by simpa using hrow.2⟩)
    fun _ _ _ _ herror => ⟨herror.1, by simp⟩

section
variable (hs : s.Resolved) (hV : s.Admits V) (hI : s.Sustains V I)
include hs hV hI

set_option linter.unusedSectionVars false in
mutual

theorem carries_create {e : Entity} (he : s.entity? e.name = some e) {link : Row}
    (hlink : link.Lists V e.name) : ∀ d : WriteData,
    Carries I (create s e link d) fun row => row.Obeys V e.name
  | ⟨fields⟩ => by
    rw [create]
    refine Keeps.bind (carries_createFields he (.empty hV.null) fields) fun row hrow => ?_
    refine Keeps.andThen (carries_checkForeignKeys hs hI.toSees e _ _) fun _ => ?_
    refine Keeps.bind (carries_fillDefaults hV.toSupplies hI.supplied he (hrow.insertAll hlink)) fun row hrow => ?_
    refine Keeps.andThen (hI.addRow he hrow) fun key => ?_
    refine Keeps.andThen (carries_createChildren he hrow fields) fun _ => ?_
    exact carries_reread hI.toSees e key

theorem carries_createFields {e : Entity} (he : s.entity? e.name = some e) {row : Row}
    (hrow : row.Obeys V e.name) : ∀ fields : List (String × FieldWrite),
    Carries I (createFields s e row fields) fun row => row.Obeys V e.name
  | [] => by
    rw [createFields]
    exact Keeps.pure hrow
  | (name, write) :: rest => by
    rw [createFields]
    refine Keeps.bind (carries_createField he hrow name write) fun row hrow => ?_
    exact carries_createFields he hrow rest

theorem carries_createField {e : Entity} (he : s.entity? e.name = some e) {row : Row}
    (hrow : row.Obeys V e.name) (name : String) : ∀ write : FieldWrite,
    Carries I (createField s e row name write) fun row => row.Obeys V e.name
  | .literal literal => by
    rw [createField]
    exact carries_writeLiteral hV.toSupplies he hrow name literal
  | .update op => by
    rw [createField]
    exact carries_writeUpdate hV.toSupplies he hrow name op
  | .relation write => by
    rw [createField]
    refine Keeps.bind (carries_relationToWrite e name) fun r hr => ?_
    refine Triple.ite (fun howning => ?_) fun _ => Keeps.pure hrow
    refine Triple.ite (fun _ => Keeps.throw trivial) fun _ => ?_
    refine Keeps.bind (carries_resolveParent r write) fun parent hparent => Keeps.pure ?_
    exact Relation.obeys_linkTo hV he (List.mem_filter.2 ⟨hr, howning⟩) hparent hrow

theorem carries_resolveParent (r : Relation) : ∀ write : NestedWrite,
    Carries I (resolveParent s r write) fun row => row.Obeys V r.target
  | ⟨[data], [], _, _, _⟩ => by
    rw [resolveParent]
    refine Keeps.bind (carries_require hs r.target) fun target htarget => ?_
    rw [← htarget.2]
    exact carries_create htarget.1 .empty data
  | ⟨[], [selector], _, _, _⟩ => by
    rw [resolveParent]
    refine Keeps.bind (carries_require hs r.target) fun target htarget => ?_
    rw [← htarget.2]
    exact carries_findToConnect hI.toSees r target selector
  | ⟨[], [], _, _, _⟩ | ⟨[], _ :: _ :: _, _, _, _⟩ | ⟨[_], _ :: _, _, _, _⟩
  | ⟨_ :: _ :: _, _, _, _, _⟩ => by
    rw [resolveParent] <;> try simp
    refine Keeps.andThen (Keeps.discard (carries_require hs r.target)) fun _ => ?_
    exact Keeps.throw trivial

theorem carries_createChildren {e : Entity} (he : s.entity? e.name = some e) {parent : Row}
    (hparent : parent.Obeys V e.name) : ∀ fields : List (String × FieldWrite),
    Carries I (createChildren s e parent fields) fun _ => True
  | [] => by
    rw [createChildren]
    exact Keeps.pure trivial
  | (name, write) :: rest => by
    rw [createChildren]
    refine Keeps.andThen (carries_createChild he hparent name write) fun _ => ?_
    exact carries_createChildren he hparent rest

theorem carries_createChild {e : Entity} (he : s.entity? e.name = some e) {parent : Row}
    (hparent : parent.Obeys V e.name) (name : String) : ∀ write : FieldWrite,
    Carries I (createChild s e parent name write) fun _ => True
  | .literal _ => by
    rw [createChild]
    exact Keeps.pure trivial
  | .update _ => by
    rw [createChild]
    exact Keeps.pure trivial
  | .relation write => by
    rw [createChild]
    refine Keeps.bind (carries_relationToWrite e name) fun r hr => ?_
    refine Triple.ite (fun howning => ?_) fun _ => Keeps.pure trivial
    exact carries_writeChildren he hr (by simpa using howning) hparent write

theorem carries_writeChildren {e : Entity} (he : s.entity? e.name = some e) {r : Relation}
    (hr : r ∈ e.relations) (howning : r.isOwning = false) {parent : Row}
    (hparent : parent.Obeys V e.name) : ∀ write : NestedWrite,
    Carries I (writeChildren s e r parent write) fun _ => True
  | ⟨created, connected, _, batch, released⟩ => by
    rw [writeChildren]
    refine Keeps.bind (carries_require hs r.target) fun target htarget => ?_
    have hlink := Relation.lists_childLink hs hV he hr howning hparent
    rw [← htarget.2] at hlink
    refine Triple.ite (fun _ => Keeps.throw trivial) fun _ => ?_
    have hrest : Carries I (do
        createAll s target (r.childLink parent) created
        connected.forM (connect s r target parent)
        writeBatch s e r target parent batch) fun _ => True := by
      refine Keeps.andThen (carries_createAll htarget.1 hlink created) fun _ => ?_
      refine Keeps.andThen (Keeps.forM fun selector _ => ?_) fun _ => ?_
      · exact hI.connect he htarget.1 hr howning htarget.2 hparent selector
      · exact carries_writeBatch htarget.1 hlink e batch
    cases released with
    | none => exact hrest
    | some released =>
      exact Keeps.andThen (hI.disconnect he htarget.1 hr howning htarget.2 parent released)
        fun _ => hrest

theorem carries_createAll {e : Entity} (he : s.entity? e.name = some e) {link : Row}
    (hlink : link.Lists V e.name) : ∀ rows : List WriteData,
    Carries I (createAll s e link rows) fun _ => True
  | [] => by
    rw [createAll]
    exact Keeps.pure trivial
  | data :: rest => by
    rw [createAll]
    refine Keeps.andThen (Keeps.discard (carries_create he hlink data)) fun _ => ?_
    exact carries_createAll he hlink rest

theorem carries_writeBatch {target : Entity} (ht : s.entity? target.name = some target)
    {r : Relation} {parent : Row} (hlink : (r.childLink parent).Lists V target.name) (e : Entity) :
    ∀ batch : Option CreateMany, Carries I (writeBatch s e r target parent batch) fun _ => True
  | none => by
    rw [writeBatch]
    exact Keeps.pure trivial
  | some batch => by
    rw [writeBatch]
    exact carries_writeMany ht hlink e batch

theorem carries_writeMany {target : Entity} (ht : s.entity? target.name = some target)
    {r : Relation} {parent : Row} (hlink : (r.childLink parent).Lists V target.name) (e : Entity) :
    ∀ batch : CreateMany, Carries I (writeMany s e r target parent batch) fun _ => True
  | ⟨rows, skip⟩ => by
    rw [writeMany]
    refine Triple.ite (fun _ => Keeps.throw trivial) fun _ => ?_
    exact carries_createBatch ht hlink skip rows

theorem carries_createBatch {e : Entity} (he : s.entity? e.name = some e) {link : Row}
    (hlink : link.Lists V e.name) (skip : Bool) : ∀ rows : List WriteData,
    Carries I (createBatch s e link skip rows) fun _ => True
  | [] => by
    rw [createBatch]
    exact Keeps.pure trivial
  | data :: rest => by
    rw [createBatch]
    refine Triple.ite (fun _ => Keeps.throw trivial) fun _ => ?_
    refine Keeps.andThen (Keeps.discard (carries_skipDuplicate skip (carries_create he hlink data)))
      fun _ => ?_
    exact carries_createBatch he hlink skip rest

end

end

section
variable (hs : s.Resolved) (hV : s.Admits V) (hJ : s.Upholds V J)
include hs hV hJ

theorem sustains_upholds : s.Sustains V fun w => J w.tables w.transaction where
  toSees := sees_upholds hJ
  addRow he _ hrow := upholds_addRow hJ he hrow
  disconnect {e _} _ ht _ _ _ htarget parent d := upholds_disconnect hs hV hJ ht htarget e parent d
  connect he ht _ hr howning htarget _ hparent selector :=
    upholds_connect hs hV hJ he ht hr howning htarget hparent selector

theorem upholds_create (he : s.entity? e.name = some e) {link : Row}
    (hlink : link.Lists V e.name) (d : WriteData) :
    Upholds J (create s e link d) fun row => row.Obeys V e.name :=
  carries_create hs hV (sustains_upholds hs hV hJ) he hlink d

theorem upholds_createFields (he : s.entity? e.name = some e) {row : Row}
    (hrow : row.Obeys V e.name) (fields : List (String × FieldWrite)) :
    Upholds J (createFields s e row fields) fun row => row.Obeys V e.name :=
  carries_createFields hs hV (sustains_upholds hs hV hJ) he hrow fields

theorem upholds_createField (he : s.entity? e.name = some e) {row : Row}
    (hrow : row.Obeys V e.name) (name : String) (write : FieldWrite) :
    Upholds J (createField s e row name write) fun row => row.Obeys V e.name :=
  carries_createField hs hV (sustains_upholds hs hV hJ) he hrow name write

theorem upholds_createChildren (he : s.entity? e.name = some e) {parent : Row}
    (hparent : parent.Obeys V e.name) (fields : List (String × FieldWrite)) :
    Upholds J (createChildren s e parent fields) fun _ => True :=
  carries_createChildren hs hV (sustains_upholds hs hV hJ) he hparent fields

end

end Operation

end RelationalStore

import RelationalStore.Proofs.FailedRequests
import RelationalStore.Proofs.PayloadParts
import RelationalStore.Proofs.ScopedRequests

/- Writes stay in scope where no field belongs to foreign keys of two entities. The walk of
   `Engine.Scope` finds the tables that a written name leads to, and a write looks into the tables
   of all foreign keys that have a written field. Some fields are written without being named: those
   that a link to a parent or a connected row fills. Each of these belongs to the foreign key of
   that relation, whose table the walk has found, so what is carried along is that every foreign key
   with a written field references a table in scope (`Entity.References`). -/
namespace RelationalStore
open SortedMap Read

/-! ### Foreign keys with a field in common -/

/-- Foreign keys of one entity that have a field in common reference the same entity. -/
def Schema.Undivided (s : Schema) : Prop :=
  ∀ e ∈ s.entities.values, ∀ r ∈ e.owningRelations, ∀ o ∈ e.owningRelations,
    ∀ f ∈ r.near, f ∈ o.near → o.target = r.target

instance (s : Schema) : Decidable s.Undivided := by
  unfold Schema.Undivided
  infer_instance

namespace Entity
variable {e : Entity} {scope names more : List String}

/-- Every foreign key with one of the fields references an entity of the scope. -/
def References (e : Entity) (scope names : List String) : Prop :=
  ∀ f ∈ names, ∀ r ∈ e.owningRelations, f ∈ r.near → r.target ∈ scope

theorem References.nil : e.References scope [] := by
  intro f hf
  cases hf

theorem References.append (h : e.References scope names) (hmore : e.References scope more) :
    e.References scope (names ++ more) := by
  intro f hf
  rcases List.mem_append.1 hf with hf | hf
  · exact h f hf
  · exact hmore f hf

theorem References.mono (h : e.References scope names) (hsub : ∀ f ∈ more, f ∈ names) :
    e.References scope more :=
  fun f hf => h f (hsub f hf)

/-- What the walk finds for a name that is written. -/
theorem references_of_referencedTables {name : String}
    (h : ∀ n ∈ Schema.referencedTables e name, n ∈ scope) : e.References scope [name] := by
  intro f hf r hr hnear
  obtain rfl := List.mem_singleton.1 hf
  refine h r.target (List.mem_map_of_mem (List.mem_filter.2 ⟨hr, ?_⟩))
  exact List.contains_iff_mem.2 hnear

end Entity

namespace Schema
variable {s : Schema} {e : Entity} {scope : List String}

theorem references_near (hs : s.Resolved) (hkeys : s.Undivided) (he : s.entity? e.name = some e)
    {r : Relation} (hr : r ∈ e.owningRelations) (hscope : r.target ∈ scope) :
    e.References scope r.near := by
  intro f hf o ho hnear
  rw [hkeys e (hs.mem_values he) r hr o ho f hf hnear]
  exact hscope

/-- A link to a parent fills the foreign key that the relation of the parent mirrors. -/
theorem references_childLink (hs : s.Resolved) (hkeys : s.Undivided)
    (he : s.entity? e.name = some e) (hscope : e.name ∈ scope) {r : Relation}
    (hr : r ∈ e.relations) (howning : r.isOwning = false) {t : Entity}
    (ht : s.entity? t.name = some t) (htarget : t.name = r.target) (parent : Row) :
    t.References scope (r.childLink parent).keys := by
  obtain ⟨t', ht', o, ho, hback, hnear, -⟩ := hs.mirrored he r hr howning
  obtain rfl : t = t' := Option.some.inj (ht.symm.trans (htarget ▸ ht'))
  have hfilled : t.References scope r.far := by
    rw [← hnear]
    exact references_near hs hkeys ht ho (by rw [hback]; exact hscope)
  refine hfilled.mono fun f hf => ?_
  have hlisted := isSome_get?_ofList.1 ((ordered_ofList _).mem_keys_iff.1 hf)
  rw [List.map_map] at hlisted
  obtain ⟨⟨far, near⟩, hzip, rfl⟩ := List.mem_map.1 hlisted
  exact (List.of_mem_zip hzip).1

/-- The walk goes on at the other end of a relation. -/
theorem mem_fieldTables (hs : s.Resolved) (he : s.entity? e.name = some e) {name : String}
    {r : Relation} (hr : e.relation? name = some r) {write : NestedWrite}
    (h : ∀ n ∈ s.fieldTables e name (.relation write), n ∈ scope) :
    r.target ∈ scope ∧ ∀ t, s.entity? r.target = some t →
      ∀ n ∈ s.nestedTables t write, n ∈ scope := by
  obtain ⟨t, ht⟩ := hs.target he r (List.mem_of_find?_eq_some hr)
  rw [fieldTables, View.target?_of_relation? hr, ht, List.forall_mem_cons] at h
  refine ⟨hs.name ht ▸ h.1, fun t' ht' => ?_⟩
  cases ht.symm.trans ht'
  exact h.2

theorem mem_fieldsTables {fields : List (String × FieldWrite)} {entry : String × FieldWrite}
    (hentry : entry ∈ fields) {n : String} (hn : n ∈ s.fieldTables e entry.1 entry.2) :
    n ∈ s.fieldsTables e fields := by
  induction fields with
  | nil => cases hentry
  | cons first rest ih =>
    rw [fieldsTables, List.mem_append]
    rcases List.mem_cons.1 hentry with rfl | hrest
    · exact .inl hn
    · exact .inr (ih hrest)

end Schema

namespace Transaction

theorem add_inScope {tx : Transaction} {tables : Tables} {name : String}
    (h : tx.Sees tables name) (row : Row) :
    Yields (tx.add tables name row) (fun r => tx.Goes tables r.2) Error.InScope := by
  refine .andThen (tableToWrite_inScope h) fun t => ?_
  have hadd : Yields (t.add row) (fun _ => True) Error.InScope := by
    refine .andThen (requireKey_inScope t row) fun key => ?_
    refine .ite (fun _ => .error nofun) fun _ => ?_
    exact .andThen (checkUnique_inScope t key row) fun _ => .pure trivial
  exact .andThen hadd fun _ => .pure (goes_insert _ _)

end Transaction

namespace Operation
variable {scope : List String} {s : Schema} {e target : Entity}

/-! ### Complete rows -/

theorem scoped_addRow (h : e.name ∈ scope) (row : Row) : Scoped scope (addRow e row) := by
  refine Triple.get fun w hw => Triple.bind (R := fun _ w => w.Covers scope)
    (scoped_settle hw (Transaction.add_inScope (sees_of_covers hw h) row)) fun key => ?_
  exact Keeps.andThen (scoped_note .create key) fun _ => Keeps.pure trivial

theorem scoped_now : Scoped scope now :=
  Triple.get fun _ hw _ _ => ⟨⟨hw.same, hw.exist⟩, trivial⟩

theorem scoped_token : Scoped scope token :=
  Triple.get fun _ hw _ _ => ⟨⟨hw.same, hw.exist⟩, trivial⟩

theorem scoped_requireKind (f : FieldDef) (kind : ScalarKind) (call : String) :
    Scoped scope (requireKind e f kind call) :=
  Triple.ite (fun _ => Keeps.throw nofun) fun _ => Keeps.pure trivial

theorem scoped_nextIncrement (h : e.name ∈ scope) (f : FieldDef) :
    Scoped scope (nextIncrement s e f) := by
  refine Keeps.andThen (scoped_look fun v _ hv => View.scoped_table (hv _ h)) fun t => ?_
  exact Triple.ite (fun _ => Keeps.pure trivial) fun _ => Keeps.throw nofun

theorem scoped_generate (h : e.name ∈ scope) (f : FieldDef) (time : DateTime) (d : DefaultValue) :
    Scoped scope (generate s e f time d) := by
  cases d with
  | autoIncrement => exact scoped_nextIncrement h f
  | uuid =>
    refine Keeps.andThen (scoped_requireKind f .string _) fun _ => ?_
    exact Keeps.andThen scoped_token fun _ => Keeps.pure trivial
  | cuid =>
    refine Keeps.andThen (scoped_requireKind f .string _) fun _ => ?_
    exact Keeps.andThen scoped_token fun _ => Keeps.pure trivial
  | now => exact Keeps.andThen (scoped_requireKind f .datetime _) fun _ => Keeps.pure trivial
  | literal literal => exact scoped_ofExcept (e.scoped_coerce f literal)

theorem scoped_complete (h : e.name ∈ scope) (f : FieldDef) (time : DateTime)
    (written : Option Value) : Scoped scope (complete s e f time written) := by
  unfold complete absent
  split
  · refine Triple.ite (fun _ => Keeps.pure trivial) fun _ => ?_
    split
    · exact scoped_generate h f time _
    · refine Triple.ite (fun _ => Keeps.pure trivial) fun _ => ?_
      exact Triple.ite (fun _ => Keeps.throw nofun) fun _ => Keeps.pure trivial
  · refine Triple.ite (fun _ => Keeps.pure trivial) fun _ => ?_
    refine Triple.ite (fun _ => Keeps.throw nofun) fun _ => ?_
    exact Triple.ite (fun _ => Keeps.pure trivial) fun _ => Keeps.pure trivial

theorem scoped_fillDefaults (h : e.name ∈ scope) (written : Row) :
    Scoped scope (fillDefaults s e written) := by
  refine Keeps.andThen scoped_now fun time => ?_
  refine Keeps.bind (Keeps.mapM (Q := fun _ => True) fun f _ => ?_) fun values _ => ?_
  · exact Keeps.andThen (scoped_complete h f time _) fun _ => Keeps.pure trivial
  · split
    · exact Keeps.throw nofun
    · exact Keeps.pure trivial

/-! ### Foreign keys -/

/-- Only foreign keys with a written field are looked up. -/
theorem scoped_checkForeignKeys (hs : s.Resolved) {written : List String}
    (h : e.References scope written) (row : Row) :
    Scoped scope (checkForeignKeys s e row written) := by
  refine Keeps.forM fun r hr => Triple.ite (fun hwritten => ?_) fun _ => Keeps.pure trivial
  have hscope : r.target ∈ scope := by
    obtain ⟨f, hnear, hf⟩ := List.any_eq_true.1 (Bool.and_eq_true_iff.1 hwritten).1
    exact h f (List.contains_iff_mem.1 hf) r hr hnear
  refine Keeps.bind (scoped_require r.target) fun target ht => ?_
  refine Keeps.andThen (scoped_look fun v _ hv => ?_) fun rows => ?_
  · exact View.scoped_rowsWhere (hv _ (hs.name ht ▸ hscope)) _ _
  · exact Triple.ite (fun _ => Keeps.throw nofun) fun _ => Keeps.pure trivial

theorem scoped_reread (h : e.name ∈ scope) (key : Key) : Scoped scope (reread s e key) := by
  refine Keeps.andThen (scoped_look fun v _ hv => View.scoped_row? (hv _ h) key) fun found => ?_
  split
  · exact Keeps.pure trivial
  · exact Keeps.throw nofun

theorem scoped_findToConnect (r : Relation) (ht : target.name ∈ scope) {selector : Filter}
    (h : ∀ n ∈ s.filterTables target selector, n ∈ scope) :
    Scoped scope (findToConnect s r target selector) := by
  refine Keeps.andThen (scoped_look fun v hv hsees => ?_) fun found => ?_
  · subst hv
    exact View.scoped_findUnique (hsees _ ht) fun n hn => hsees n (h n hn)
  · split
    · exact Keeps.pure trivial
    · exact Keeps.throw nofun

theorem scoped_relatedRows (hs : s.Resolved) {r : Relation} (hr : r.target ∈ scope) (row : Row) :
    Scoped scope (look s fun v => v.relatedRows r row) := by
  refine scoped_look fun v hv hsees => View.scoped_relatedRows (fun t ht => ?_) row
  subst hv
  exact hsees _ (hs.name ht ▸ hr)

/-! ### Rows that reference a parent -/

theorem scoped_changeRow (h : e.name ∈ scope) (row : Row) : Scoped scope (changeRow e row) :=
  Keeps.andThen (scoped_putRow h row) fun key => scoped_note .update key

theorem scoped_unlink (r : Relation) (ht : target.name ∈ scope) (child : Row) :
    Scoped scope (unlink r target child) := by
  simp only [unlink]
  split
  · refine Keeps.throw fun table h => ?_
    cases h
  · exact Keeps.andThen (scoped_touch _) fun row => scoped_changeRow ht row

section
variable (hs : s.Resolved) {r : Relation} (htarget : target.name = r.target)
  (ht : target.name ∈ scope) (parent : Row)
include hs htarget ht

theorem scoped_disconnect {d : Disconnect}
    (h : ∀ n ∈ s.disconnectTables target (some d), n ∈ scope) :
    Scoped scope (disconnect s e r target parent d) := by
  cases d with
  | flag on =>
    cases on with
    | false => exact Keeps.pure trivial
    | true =>
      refine Triple.ite (fun _ => Keeps.throw nofun) fun _ => ?_
      refine Keeps.andThen (scoped_relatedRows hs (htarget ▸ ht) parent) fun rows => ?_
      exact Keeps.forM fun row _ => scoped_unlink r ht row
  | records selectors =>
    refine Triple.ite (fun _ => Keeps.throw nofun) fun _ => Keeps.forM fun selector hselector => ?_
    refine Keeps.andThen (scoped_look fun v hv hsees => ?_) fun found => ?_
    · subst hv
      refine View.scoped_findUnique (hsees _ ht) fun n hn => hsees n (h n ?_)
      exact List.mem_flatMap.2 ⟨selector, hselector, hn⟩
    · split
      · exact Keeps.pure trivial
      · exact Triple.ite (fun _ => scoped_unlink r ht _) fun _ => Keeps.pure trivial

theorem scoped_connect {selector : Filter}
    (h : ∀ n ∈ s.filterTables target selector, n ∈ scope) :
    Scoped scope (connect s r target parent selector) := by
  refine Keeps.andThen (scoped_findToConnect r ht h) fun child => ?_
  have hwrite : Scoped scope
      (touch target (child.insertAll (r.childLink parent)) >>= changeRow target) :=
    Keeps.andThen (scoped_touch _) fun row => scoped_changeRow ht row
  refine Triple.ite (fun _ => ?_) fun _ => hwrite
  refine Keeps.andThen (scoped_relatedRows hs (htarget ▸ ht) parent) fun rows => ?_
  refine Keeps.andThen (Keeps.forM fun row _ => ?_) fun _ => hwrite
  exact Triple.ite (fun _ => scoped_unlink r ht row) fun _ => Keeps.pure trivial

end

/-! ### Creation -/

theorem scoped_skipDuplicate (skip : Bool) {creation : Operation Row}
    (h : Scoped scope creation) : Scoped scope (skipDuplicate skip creation) :=
  Triple.skipDuplicate skip h (fun _ _ hrow => hrow) fun _ _ _ _ herror => ⟨herror.1, trivial⟩

theorem scoped_writeLiteral (row : Row) (name : String) (literal : Json) :
    Scoped scope (writeLiteral e row name literal) := by
  unfold writeLiteral
  split
  · next f _ =>
    exact Keeps.andThen (scoped_ofExcept (e.scoped_coerce f literal)) fun _ => Keeps.pure trivial
  · refine Keeps.andThen (Keeps.discard (Keeps.ofExcept (e.scoped_requireRelation name))) fun _ => ?_
    exact Keeps.throw nofun

theorem scoped_writeUpdate (row : Row) (name : String) (op : UpdateOp) :
    Scoped scope (writeUpdate e row name op) := by
  unfold writeUpdate
  split
  · exact scoped_writeLiteral row name _
  · exact Keeps.throw nofun
  · refine Keeps.andThen (Keeps.discard (Keeps.ofExcept (e.scoped_requireRelation name))) fun _ => ?_
    exact Keeps.throw nofun

theorem scoped_relationToWrite (e : Entity) (name : String) :
    Keeps (Work.Covers scope) (relationToWrite e name)
      (fun r => e.field? name = none ∧ e.relation? name = some r) Error.InScope := by
  refine Triple.ite (fun _ => Keeps.throw nofun) fun hfield => ?_
  refine (Keeps.ofExcept (e.scoped_requireRelation name)).mono (fun r hr => ⟨?_, hr⟩) fun _ h => h
  simpa using hfield

section
variable (hs : s.Resolved) (hkeys : s.Undivided)

set_option linter.unusedSectionVars false in
include hs hkeys in
mutual

theorem scoped_create {e : Entity} (he : s.entity? e.name = some e) (hname : e.name ∈ scope)
    {link : Row} (hlink : e.References scope link.keys) : ∀ d : WriteData,
    (∀ n ∈ s.writeTables e d, n ∈ scope) → Scoped scope (create s e link d)
  | ⟨fields⟩, h => by
    rw [Schema.writeTables] at h
    rw [create]
    refine Keeps.bind (scoped_createFields he ∅ fields h) fun row hwritten => ?_
    refine Keeps.andThen (scoped_checkForeignKeys hs (hwritten.append hlink) _) fun _ => ?_
    refine Keeps.andThen (scoped_fillDefaults hname _) fun row => ?_
    refine Keeps.andThen (scoped_addRow hname row) fun key => ?_
    refine Keeps.andThen (scoped_createChildren he hname row fields h) fun _ => ?_
    exact scoped_reread hname key

/-- Where all writes succeed, those under the names of fields are literals or changes, so the walk
has found what their foreign keys reference. -/
theorem scoped_createFields {e : Entity} (he : s.entity? e.name = some e)
    (row : Row) : ∀ fields : List (String × FieldWrite),
    (∀ n ∈ s.fieldsTables e fields, n ∈ scope) →
      Keeps (Work.Covers scope) (createFields s e row fields)
        (fun _ => e.References scope (e.writtenFields fields)) Error.InScope
  | [], _ => by
    rw [createFields]
    exact Keeps.pure .nil
  | (name, write) :: rest, h => by
    rw [Schema.fieldsTables, List.forall_mem_append] at h
    rw [createFields]
    refine Keeps.bind (scoped_createField he row name write h.1) fun row hfirst => ?_
    refine (scoped_createFields he row rest h.2).mono (fun _ hrest => ?_) fun _ h => h
    rw [Entity.writtenFields_cons]
    exact hfirst.append hrest

theorem scoped_createField {e : Entity} (he : s.entity? e.name = some e)
    (row : Row) (name : String) : ∀ write : FieldWrite,
    (∀ n ∈ s.fieldTables e name write, n ∈ scope) →
      Keeps (Work.Covers scope) (createField s e row name write)
        (fun _ => e.References scope (e.writtenFields [(name, write)])) Error.InScope
  | .literal literal, h => by
    rw [createField]
    refine (scoped_writeLiteral row name literal).mono (fun _ _ => ?_) fun _ h => h
    exact (Entity.references_of_referencedTables h).mono fun f hf => (List.mem_filter.1 hf).1
  | .update op, h => by
    rw [createField]
    refine (scoped_writeUpdate row name op).mono (fun _ _ => ?_) fun _ h => h
    exact (Entity.references_of_referencedTables h).mono fun f hf => (List.mem_filter.1 hf).1
  | .relation write, h => by
    rw [createField]
    refine Keeps.bind (scoped_relationToWrite e name) fun r hr => ?_
    have hnone : e.References scope (e.writtenFields [(name, .relation write)]) := by
      rw [Entity.writtenFields_relation hr.1]
      exact .nil
    obtain ⟨htarget, hnested⟩ := Schema.mem_fieldTables hs he hr.2 h
    refine Triple.ite (fun howning => ?_) fun _ => Keeps.pure hnone
    refine Triple.ite (fun _ => Keeps.throw nofun) fun _ => ?_
    exact Keeps.andThen (scoped_resolveParent r htarget write hnested) fun _ => Keeps.pure hnone

theorem scoped_resolveParent (r : Relation) (hr : r.target ∈ scope) : ∀ write : NestedWrite,
    (∀ t, s.entity? r.target = some t → ∀ n ∈ s.nestedTables t write, n ∈ scope) →
      Scoped scope (resolveParent s r write)
  | ⟨[data], [], connectOrCreate, batch, released⟩, h => by
    rw [resolveParent]
    refine Keeps.bind (scoped_require r.target) fun target htarget => ?_
    have ht := h target htarget
    simp only [Schema.nestedTables, Schema.rowsTables, List.forall_mem_append] at ht
    have hname := hs.name htarget
    exact scoped_create (by rw [hname, htarget]) (hname ▸ hr) .nil data ht.1.1.1.1
  | ⟨[], [selector], connectOrCreate, batch, released⟩, h => by
    rw [resolveParent]
    refine Keeps.bind (scoped_require r.target) fun target htarget => ?_
    have ht := h target htarget
    simp only [Schema.nestedTables, List.forall_mem_append, List.flatMap_cons] at ht
    exact scoped_findToConnect r (hs.name htarget ▸ hr) ht.1.2.1
  | ⟨[], [], _, _, _⟩, _ | ⟨[], _ :: _ :: _, _, _, _⟩, _ | ⟨[_], _ :: _, _, _, _⟩, _
  | ⟨_ :: _ :: _, _, _, _, _⟩, _ => by
    rw [resolveParent] <;> try simp
    refine Keeps.andThen (Keeps.discard (scoped_require r.target)) fun _ => ?_
    exact Keeps.throw nofun

theorem scoped_createChildren {e : Entity} (he : s.entity? e.name = some e)
    (hname : e.name ∈ scope) (parent : Row) : ∀ fields : List (String × FieldWrite),
    (∀ n ∈ s.fieldsTables e fields, n ∈ scope) → Scoped scope (createChildren s e parent fields)
  | [], _ => by
    rw [createChildren]
    exact Keeps.pure trivial
  | (name, write) :: rest, h => by
    rw [Schema.fieldsTables, List.forall_mem_append] at h
    rw [createChildren]
    refine Keeps.andThen (scoped_createChild he hname parent name write h.1) fun _ => ?_
    exact scoped_createChildren he hname parent rest h.2

theorem scoped_createChild {e : Entity} (he : s.entity? e.name = some e) (hname : e.name ∈ scope)
    (parent : Row) (name : String) : ∀ write : FieldWrite,
    (∀ n ∈ s.fieldTables e name write, n ∈ scope) → Scoped scope (createChild s e parent name write)
  | .literal _, _ => by
    rw [createChild]
    exact Keeps.pure trivial
  | .update _, _ => by
    rw [createChild]
    exact Keeps.pure trivial
  | .relation write, h => by
    rw [createChild]
    refine Keeps.bind (scoped_relationToWrite e name) fun r hr => ?_
    obtain ⟨htarget, hnested⟩ := Schema.mem_fieldTables hs he hr.2 h
    refine Triple.ite (fun howning => ?_) fun _ => Keeps.pure trivial
    have hmem := List.mem_of_find?_eq_some hr.2
    exact scoped_writeChildren he hname hmem (by simpa using howning) htarget parent write hnested

theorem scoped_writeChildren {e : Entity} (he : s.entity? e.name = some e) (hname : e.name ∈ scope)
    {r : Relation} (hr : r ∈ e.relations) (howning : r.isOwning = false)
    (htarget : r.target ∈ scope) (parent : Row) : ∀ write : NestedWrite,
    (∀ t, s.entity? r.target = some t → ∀ n ∈ s.nestedTables t write, n ∈ scope) →
      Scoped scope (writeChildren s e r parent write)
  | ⟨created, connected, _, batch, released⟩, h => by
    rw [writeChildren]
    refine Keeps.bind (scoped_require r.target) fun target hfound => ?_
    have htn := hs.name hfound
    have hscope : target.name ∈ scope := htn ▸ htarget
    have ht : s.entity? target.name = some target := by rw [htn, hfound]
    have hlink := Schema.references_childLink hs hkeys he hname hr howning ht htn parent
    have hnested := h target hfound
    rw [Schema.nestedTables] at hnested
    simp only [List.forall_mem_append] at hnested
    obtain ⟨⟨⟨hcreated, hbatch⟩, hconnected⟩, hreleased⟩ := hnested
    refine Triple.ite (fun _ => Keeps.throw nofun) fun _ => ?_
    have hrest : Scoped scope (do
        createAll s target (r.childLink parent) created
        connected.forM (connect s r target parent)
        writeBatch s e r target parent batch) := by
      refine Keeps.andThen (scoped_createAll ht hscope hlink created hcreated) fun _ => ?_
      refine Keeps.andThen (Keeps.forM fun selector hselector => ?_) fun _ => ?_
      · refine scoped_connect hs htn hscope parent fun n hn => hconnected n ?_
        exact List.mem_flatMap.2 ⟨selector, hselector, hn⟩
      · exact scoped_writeBatch ht hscope hlink e batch hbatch
    cases released with
    | none => exact hrest
    | some released =>
      exact Keeps.andThen (scoped_disconnect hs htn hscope parent hreleased) fun _ => hrest

theorem scoped_createAll {e : Entity} (he : s.entity? e.name = some e) (hname : e.name ∈ scope)
    {link : Row} (hlink : e.References scope link.keys) : ∀ rows : List WriteData,
    (∀ n ∈ s.rowsTables e rows, n ∈ scope) → Scoped scope (createAll s e link rows)
  | [], _ => by
    rw [createAll]
    exact Keeps.pure trivial
  | data :: rest, h => by
    rw [Schema.rowsTables, List.forall_mem_append] at h
    rw [createAll]
    refine Keeps.andThen (Keeps.discard (scoped_create he hname hlink data h.1)) fun _ => ?_
    exact scoped_createAll he hname hlink rest h.2

theorem scoped_writeBatch {target : Entity} (ht : s.entity? target.name = some target)
    (hname : target.name ∈ scope) {r : Relation} {parent : Row}
    (hlink : target.References scope (r.childLink parent).keys) (e : Entity) :
    ∀ batch : Option CreateMany, (∀ n ∈ s.batchTables target batch, n ∈ scope) →
      Scoped scope (writeBatch s e r target parent batch)
  | none, _ => by
    rw [writeBatch]
    exact Keeps.pure trivial
  | some batch, h => by
    rw [Schema.batchTables] at h
    rw [writeBatch]
    exact scoped_writeMany ht hname hlink e batch h

theorem scoped_writeMany {target : Entity} (ht : s.entity? target.name = some target)
    (hname : target.name ∈ scope) {r : Relation} {parent : Row}
    (hlink : target.References scope (r.childLink parent).keys) (e : Entity) :
    ∀ batch : CreateMany, (∀ n ∈ s.createManyTables target batch, n ∈ scope) →
      Scoped scope (writeMany s e r target parent batch)
  | ⟨rows, skip⟩, h => by
    rw [Schema.createManyTables] at h
    rw [writeMany]
    refine Triple.ite (fun _ => Keeps.throw nofun) fun _ => ?_
    exact scoped_createBatch ht hname hlink skip rows h

theorem scoped_createBatch {e : Entity} (he : s.entity? e.name = some e) (hname : e.name ∈ scope)
    {link : Row} (hlink : e.References scope link.keys) (skip : Bool) : ∀ rows : List WriteData,
    (∀ n ∈ s.rowsTables e rows, n ∈ scope) → Scoped scope (createBatch s e link skip rows)
  | [], _ => by
    rw [createBatch]
    exact Keeps.pure trivial
  | data :: rest, h => by
    rw [Schema.rowsTables, List.forall_mem_append] at h
    rw [createBatch]
    refine Triple.ite (fun _ => Keeps.throw nofun) fun _ => ?_
    have hcreate := scoped_skipDuplicate skip (scoped_create he hname hlink data h.1)
    exact Keeps.andThen (Keeps.discard hcreate) fun _ =>
      scoped_createBatch he hname hlink skip rest h.2

end

/-! ### Updates -/

theorem scoped_change (e : Entity) (f : FieldDef) (current : Value) (op : UpdateOp) :
    Read.Scoped (e.change f current op) := by
  have hcalculate (op : Arithmetic) (literal : Json) :
      Read.Scoped (e.calculate f current op literal) := by
    have happlied (operand : Value) : Read.Scoped
        ((op.apply current operand).mapError fun fault => Error.invalidValue e.name f.name fault) := by
      cases op.apply current operand with
      | ok v => exact .ok trivial
      | error fault => exact .error nofun
    have hoperand : Read.Scoped (do
        let operand ← e.coerceItem f literal
        (op.apply current operand).mapError (.invalidValue e.name f.name)) :=
      .andThen (e.scoped_coerceItem f literal) happlied
    exact .ite (fun _ => .andThen (.error nofun) fun _ => hoperand) fun _ => hoperand
  cases op with
  | set literal => exact e.scoped_coerce f literal
  | unset => exact .ok trivial
  | push literal =>
    have hpushed : Read.Scoped (do
        let items ← (literal.array?.getD [literal]).mapM (e.coerceItem f)
        return Value.list (current.list?.getD [] ++ items)) :=
      .andThen (scoped_mapM fun j _ => e.scoped_coerceItem f j) fun _ => .pure trivial
    exact .ite (fun _ => .andThen (.error nofun) fun _ => hpushed) fun _ => hpushed
  | increment literal => exact hcalculate .add literal
  | decrement literal => exact hcalculate .subtract literal
  | multiply literal => exact hcalculate .multiply literal
  | divide literal => exact hcalculate .divide literal

section
variable (he : s.entity? e.name = some e) (hname : e.name ∈ scope)

theorem scoped_newValue (f : FieldDef) (current : Value) (write : FieldWrite) :
    Yields (newValue e f current write) (fun _ => ∀ w, write ≠ .relation w) Error.InScope := by
  cases write with
  | literal literal => exact (e.scoped_coerce f literal).mono (fun _ _ => nofun) fun _ h => h
  | update op => exact (scoped_change e f current op).mono (fun _ _ => nofun) fun _ h => h
  | relation write => exact .error nofun

theorem scoped_reviseField {f : FieldDef} {v : Revision} (hv : e.References scope v.written)
    {write : FieldWrite} (h : ∀ n ∈ s.fieldTables e f.name write, n ∈ scope) :
    Yields (reviseField e f v write) (fun v => e.References scope v.written) Error.InScope := by
  refine .ite (fun _ => .throw nofun) fun _ => ?_
  refine .bind (scoped_newValue f _ write) fun value hwrite => ?_
  refine .ite (fun _ => .throw nofun) fun _ => .pure ?_
  have hreferenced : ∀ n ∈ Schema.referencedTables e f.name, n ∈ scope := by
    cases write with
    | literal _ => exact h
    | update _ => exact h
    | relation w => exact absurd rfl (hwrite w)
  exact (Entity.references_of_referencedTables hreferenced).append hv

include hs hkeys he

theorem scoped_release {r : Relation} (hr : r ∈ e.owningRelations) (htarget : r.target ∈ scope)
    {v : Revision} (hv : e.References scope v.written) :
    Yields (release e r v) (fun v => e.References scope v.written) Error.InScope := by
  have hnear := Schema.references_near hs hkeys he hr htarget
  unfold release
  split
  · exact .error nofun
  · refine .ok ?_
    generalize r.near = names at hnear
    induction names generalizing v with
    | nil => exact hv
    | cons name rest ih =>
      have hfirst : e.References scope (v.set name .null).written :=
        (hnear.mono fun f hf => (List.mem_singleton.1 hf) ▸ List.mem_cons_self).append hv
      exact ih hfirst (hnear.mono fun f hf => List.mem_cons_of_mem _ hf)

theorem scoped_reviseOwner {r : Relation} (hr : r ∈ e.owningRelations)
    (htarget : r.target ∈ scope) {v : Revision} (hv : e.References scope v.written)
    {write : NestedWrite}
    (h : ∀ t, s.entity? r.target = some t → ∀ n ∈ s.nestedTables t write, n ∈ scope) :
    Keeps (Work.Covers scope) (reviseOwner s e r v write)
      (fun v => e.References scope v.written) Error.InScope := by
  refine Triple.ite (fun _ => Keeps.throw nofun) fun _ => ?_
  split
  · exact Keeps.ofExcept (scoped_release hs hkeys he hr htarget hv)
  · exact Keeps.throw nofun
  · refine Triple.ite (fun _ => Keeps.pure hv) fun _ => ?_
    refine Keeps.andThen (scoped_resolveParent hs hkeys r htarget write h) fun parent => ?_
    exact Keeps.pure ((Schema.references_near hs hkeys he hr htarget).append hv)

theorem scoped_revise {v : Revision} (hv : e.References scope v.written)
    {entry : String × FieldWrite} (h : ∀ n ∈ s.fieldTables e entry.1 entry.2, n ∈ scope) :
    Keeps (Work.Covers scope) (revise s e v entry)
      (fun v => e.References scope v.written) Error.InScope := by
  obtain ⟨name, write⟩ := entry
  unfold revise
  split
  · next f hf =>
    obtain rfl : f.name = name := by simpa using List.find?_some hf
    exact Keeps.ofExcept (scoped_reviseField hv h)
  · refine Keeps.bind (Keeps.ofExcept (e.scoped_requireRelation name)) fun r hr => ?_
    cases write with
    | literal _ => exact Keeps.throw nofun
    | update _ => exact Keeps.throw nofun
    | relation write =>
      obtain ⟨htarget, hnested⟩ := Schema.mem_fieldTables hs he hr h
      refine Triple.ite (fun howning => ?_) fun _ => Keeps.pure hv
      have hmem := List.mem_filter.2 ⟨List.mem_of_find?_eq_some hr, howning⟩
      exact scoped_reviseOwner hs hkeys he hmem htarget hv hnested

omit hs hkeys he in
theorem scoped_stamp (v : Revision) : Scoped scope (stamp e v) :=
  Keeps.andThen (scoped_touch v.row) fun _ => Keeps.pure trivial

include hname in
theorem scoped_update {data : WriteData} (h : ∀ n ∈ s.writeTables e data, n ∈ scope) (row : Row) :
    Scoped scope (update s e data row) := by
  obtain ⟨fields⟩ := data
  rw [Schema.writeTables] at h
  refine Keeps.bind (Keeps.foldlM (Q := fun v : Revision => e.References scope v.written) .nil
    fun v hv entry hentry => ?_) fun v hwritten => ?_
  · refine scoped_revise hs hkeys he hv fun n hn => h n ?_
    exact Schema.mem_fieldsTables hentry hn
  · refine Keeps.andThen (scoped_checkForeignKeys hs hwritten _) fun _ => ?_
    refine Keeps.andThen (scoped_stamp v) fun next => ?_
    refine Keeps.andThen (Keeps.discard (scoped_putRow hname next)) fun _ => ?_
    refine Keeps.andThen (scoped_note .update _) fun _ => ?_
    refine Keeps.andThen (scoped_createChildren hs hkeys he hname next fields h) fun _ => ?_
    exact scoped_reread hname _

end

end

end Operation

/-! ### Requests -/

namespace Operation
variable (s : Schema)

mutual

theorem scoped_checkSupported (e : Entity) : ∀ d : WriteData,
    Read.Scoped (checkSupported s e d)
  | ⟨fields⟩ => by
    rw [checkSupported]
    exact scoped_checkFields e fields

theorem scoped_checkFields (e : Entity) : ∀ fields : List (String × FieldWrite),
    Read.Scoped (checkFields s e fields)
  | [] => by
    rw [checkFields]
    exact .ok trivial
  | (name, write) :: rest => by
    rw [checkFields]
    exact .andThen (scoped_checkWrite e name write) fun _ => scoped_checkFields e rest

theorem scoped_checkWrite (e : Entity) (name : String) : ∀ write : FieldWrite,
    Read.Scoped (checkWrite s e name write)
  | .literal _ => by
    rw [checkWrite]
    exact .ok trivial
  | .update _ => by
    rw [checkWrite]
    exact .ok trivial
  | .relation write => by
    rw [checkWrite]
    exact scoped_checkNested e name write

theorem scoped_checkNested (e : Entity) (name : String) : ∀ write : NestedWrite,
    Read.Scoped (checkNested s e name write)
  | ⟨create, _, connectOrCreate, createMany, _⟩ => by
    rw [checkNested.eq_def]
    have hrest : Read.Scoped (match s.target? e name with
        | none => .ok ()
        | some target => do
          checkAll s target create
          checkBatch s target createMany) := by
      split
      · exact .ok trivial
      · exact .andThen (scoped_checkAll _ create) fun _ => scoped_checkBatch _ createMany
    exact .ite (fun _ => .andThen (.error nofun) fun _ => hrest) fun _ => hrest

theorem scoped_checkBatch (e : Entity) : ∀ batch : Option CreateMany,
    Read.Scoped (checkBatch s e batch)
  | none => by
    rw [checkBatch]
    exact .ok trivial
  | some batch => by
    rw [checkBatch]
    exact scoped_checkMany e batch

theorem scoped_checkMany (e : Entity) : ∀ batch : CreateMany, Read.Scoped (checkMany s e batch)
  | ⟨data, _⟩ => by
    rw [checkMany]
    exact scoped_checkAll e data

theorem scoped_checkAll (e : Entity) : ∀ rows : List WriteData, Read.Scoped (checkAll s e rows)
  | [] => by
    rw [checkAll]
    exact .ok trivial
  | data :: rest => by
    rw [checkAll]
    exact .andThen (scoped_checkSupported e data) fun _ => scoped_checkAll e rest

end

end Operation

namespace Request
variable {s : Schema} {e : Entity} {q : Query} {scope : List String} {α : Type} {r : Request α}

/-- The walk finds the tables of each row of the data. -/
theorem writeTables_of_neededTables {access : Access} (haccess : access = .create ∨ access = .update)
    (h : ∀ n ∈ s.neededTables e q access, n ∈ scope) :
    ∀ data ∈ q.data.elim [] Data.rows, ∀ n ∈ s.writeTables e data, n ∈ scope := by
  intro data hdata n hn
  refine h n (mem_keys_set.2 (List.mem_append_right _ ?_))
  rcases haccess with rfl | rfl
  · exact List.mem_flatMap.2 ⟨data, hdata, hn⟩
  · exact List.mem_flatMap.2 ⟨data, hdata, hn⟩

open Operation in
theorem requireData_inScope (q : Query) :
    Yields (requireData q) (· ∈ q.data.elim [] Data.rows) Error.InScope := by
  unfold requireData
  split
  · next data hd => exact .ok (by simp [hd, Data.rows])
  · exact .error nofun
  · exact .error nofun

open Operation in
/-- The row that the selector of a query names. -/
theorem scoped_selectedRow (h : ∀ n ∈ s.queryTables e q, n ∈ scope) {selector : Filter}
    (hselector : q.filter = some selector) :
    Scoped scope (look s fun v => do requireFound e (← v.findUnique e selector)) := by
  refine scoped_look fun v hv hsees => ?_
  subst hv
  refine .andThen (View.scoped_selected (fun n hn => hsees n (h n hn)) hselector) fun row => ?_
  exact requireFound_inScope e row

open Operation in
theorem scoped_record (hs : s.Resolved) (hq : q.Named) (h : ∀ n ∈ s.queryTables e q, n ∈ scope)
    (row : Row) : Scoped scope (look s fun v => v.record e q row) := by
  refine scoped_look fun v hv hsees => ?_
  subst hv
  exact View.scoped_record hs hq (fun n hn => hsees n (h n hn)) row

section
variable (hs : s.Resolved) (hkeys : s.Undivided) (he : s.entity? e.name = some e)
include hs hkeys he
open Operation

theorem scoped_insertBatch (hname : e.name ∈ scope)
    (h : ∀ data ∈ q.data.elim [] Data.rows, ∀ n ∈ s.writeTables e data, n ∈ scope) :
    Scoped scope (insertBatch s e q) :=
  (Keeps.insertBatch (fun _ => nofun) fun data hdata =>
    Operation.scoped_create hs hkeys he hname .nil data (h data hdata)).mono (fun _ _ => trivial)
    fun _ h => h

theorem Writes.scoped (hr : r.Writes q) (hq : q.Named)
    (h : ∀ n ∈ s.neededTables e r.query r.access, n ∈ scope) :
    Scoped scope (r.operation s e) := by
  obtain ⟨hquery, hroot⟩ := of_neededTables hs he h
  have hname (h : ∀ n ∈ s.queryTables e q, n ∈ scope) : e.name ∈ scope :=
    h e.name (by cases q; exact List.mem_cons_self)
  cases hr with
  | create =>
    have hwrites := writeTables_of_neededTables (.inl rfl) h
    refine Keeps.bind (Keeps.ofExcept (requireData_inScope q)) fun data hdata => ?_
    refine Keeps.andThen (scoped_ofExcept (scoped_checkSupported s e data)) fun _ => ?_
    refine Keeps.andThen (Operation.scoped_create hs hkeys he (hname hquery) .nil data
      (hwrites data hdata)) fun row => ?_
    exact scoped_record hs hq hquery row
  | createMany =>
    have hwrites := writeTables_of_neededTables (.inl rfl) h
    exact Keeps.andThen (scoped_insertBatch hs hkeys he (hname hquery) hwrites) fun _ =>
      Keeps.pure trivial
  | createManyAndReturn =>
    have hwrites := writeTables_of_neededTables (.inl rfl) h
    refine Keeps.andThen (scoped_insertBatch hs hkeys he (hname hquery) hwrites) fun rows => ?_
    refine scoped_look fun v hv hsees => ?_
    subst hv
    exact View.scoped_attach v hs e rows q hq fun n hn => hsees n (hquery n hn)
  | update =>
    have hwrites := writeTables_of_neededTables (.inr rfl) h
    refine Keeps.bind (Keeps.ofExcept (requireSelector_inScope e q)) fun selector hselector => ?_
    refine Keeps.bind (Keeps.ofExcept (requireData_inScope q)) fun data hdata => ?_
    refine Keeps.andThen (scoped_ofExcept (scoped_checkSupported s e data)) fun _ => ?_
    refine Keeps.andThen (scoped_selectedRow hquery hselector) fun row => ?_
    refine Keeps.andThen (Operation.scoped_update hs hkeys he (hname hquery) (hwrites data hdata)
      row) fun row => ?_
    exact scoped_record hs hq hquery row
  | updateMany =>
    have hwrites := writeTables_of_neededTables (.inr rfl) h
    refine Keeps.bind (Keeps.ofExcept (requireData_inScope q)) fun data hdata => ?_
    refine Triple.ite (fun _ => Keeps.throw nofun) fun _ => ?_
    refine Keeps.andThen (scoped_look fun v hv hsees => ?_) fun rows => ?_
    · subst hv
      exact View.scoped_matching fun n hn => hsees n (hquery n hn)
    · refine Keeps.andThen (Keeps.forM fun row _ => ?_) fun _ => Keeps.pure trivial
      exact Keeps.discard (Operation.scoped_update hs hkeys he (hname hquery) (hwrites data hdata)
        row)
  | delete => exact scoped_delete hs hq he hquery (hroot rfl)
  | deleteMany => exact scoped_deleteMany hs he hquery (hroot rfl)

end

end Request

/-- A payload that creates a row, and one related to it. -/
def Json.creatingWith (relation : String) : Json :=
  .object [("data", .object [("id", .int 1),
    (relation, .object [("create", .array [.object [("id", .int 1)]])])])]

/-- Children whose parent has the number of their guardian. -/
def EntityDef.household : List EntityDef :=
  [{ name := "guardian", fields := [{ name := "id", kind := .int, id := true }] },
   { name := "parent", fields := [{ name := "id", kind := .int, id := true }],
     relations := [.many "children" "child"] },
   { name := "child",
     fields := [{ name := "id", kind := .int, id := true }, { name := "keeperId", kind := .int }],
     relations := [.owning "parent" "parent" ["keeperId"] ["id"],
       .owning "guardian" "guardian" ["keeperId"] ["id"]] }]

/-- The table for want of which a request failed. -/
def Outcome.missingTable? {α : Type} (o : Outcome α) : Option String :=
  match o.result with
  | .error (.tableNotInScope table) => some table
  | _ => none

theorem Outcome.result_eq_of_missingTable? {α : Type} {o : Outcome α} {table : String}
    (h : o.missingTable? = some table) : o.result = .error (.tableNotInScope table) := by
  unfold missingTable? at h
  split at h
  · next heq =>
    cases h
    exact heq
  · cases h

namespace Client

/-- Where foreign keys with a field in common reference one entity, no request that writes what a
payload asks for fails because a table is not part of its transaction, whatever was done with the
client before. -/
theorem writes_inScope {defs : List EntityDef} {s : Schema} (hs : Schema.ofDefs defs = .ok s)
    (hkeys : s.Undivided) {c : Client} (hc : c.Reached s) {payload : Json} {q : Query}
    (hq : Query.ofJson payload = .ok q) (entity : String) {α : Type} {r : Request α}
    (hr : r.Writes q) (table : String) :
    (c.ask entity r none).result ≠ .error (.tableNotInScope table) := by
  have hresolved := Schema.Resolved.ofDefs hs
  have hschema := hc.schema
  subst hschema
  have hask := ask_inScope hc.numbered hresolved entity fun e scope he h =>
    hr.scoped hresolved hkeys he (Query.named_of_ofJson hq) h
  intro hresult
  rw [hresult] at hask
  exact hask table rfl

/-- Books come with their author and need no other table. -/
theorem writes_inScope_shelf : ∃ (c₀ : Client) (q : Query),
    Schema.ofDefs EntityDef.shelf = .ok c₀.schema ∧ c₀.schema.Undivided ∧ c₀.Reached c₀.schema ∧
      Query.ofJson (.creatingWith "books") = .ok q ∧
      (c₀.ask "author" (.create q) none).result.isOk = true ∧
      (c₀.ask "author" (.create q) none).result ≠ .error (.tableNotInScope "book") := by
  have hruns : (openMemory EntityDef.shelf).toOption.any fun c₀ =>
      c₀.schema.Undivided ∧ (Query.ofJson (.creatingWith "books")).toOption.any fun q =>
        (c₀.ask "author" (.create q) none).result.isOk := by
    decide +kernel
  obtain ⟨c₀, hs, hc₀, -, hkeys, hruns⟩ := exists_openMemory hruns
  obtain ⟨q, hq, hok⟩ := (Option.any_eq_true _ _).1 hruns
  have hq := Except.toOption_eq_some.1 hq
  have hreached : c₀.Reached c₀.schema := ⟨c₀, hc₀, [], rfl⟩
  exact ⟨c₀, q, hs, hkeys, hreached, hq, hok,
    writes_inScope hs hkeys hreached hq "author" .create "book"⟩

/-- A child's one foreign-key field references its parent and a guardian. The walk finds the table of
the parents only, and the link to the parent is looked up among the guardians too. -/
theorem create_leaves_scope : ∃ (c₀ : Client) (q : Query),
    Schema.ofDefs EntityDef.household = .ok c₀.schema ∧ c₀.Opened c₀.schema ∧
      ¬ c₀.schema.Undivided ∧ Query.ofJson (.creatingWith "children") = .ok q ∧
      let c := c₀.after (.ask "guardian" (.create (.ofFields [("id", .int 1)])) none)
      c.keyTexts "guardian" = ["1"] ∧
        (c.ask "parent" (.create q) none).result = .error (.tableNotInScope "guardian") := by
  have hruns : (openMemory EntityDef.household).toOption.any fun c₀ =>
      ¬ c₀.schema.Undivided ∧ (Query.ofJson (.creatingWith "children")).toOption.any fun q =>
        let c := c₀.after (.ask "guardian" (.create (.ofFields [("id", .int 1)])) none)
        c.keyTexts "guardian" = ["1"] ∧
          (c.ask "parent" (.create q) none).missingTable? = some "guardian" := by
    decide +kernel
  obtain ⟨c₀, hs, hc₀, -, hdivided, hruns⟩ := exists_openMemory hruns
  obtain ⟨q, hq, hleft⟩ := (Option.any_eq_true _ _).1 hruns
  obtain ⟨hguardian, hmissing⟩ := of_decide_eq_true hleft
  exact ⟨c₀, q, hs, hc₀, hdivided, Except.toOption_eq_some.1 hq, hguardian,
    Outcome.result_eq_of_missingTable? hmissing⟩

end Client

end RelationalStore

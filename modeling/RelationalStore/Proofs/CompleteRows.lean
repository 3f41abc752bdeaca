import RelationalStore.Proofs.KeptRows

/- Rows have the fields of their entity and no others, and no null where there may be none. A row
   that is created gets every field from `fillDefaults`, and one that is changed keeps its fields,
   since what is written to it goes into fields that there are. Most ways to write a null check
   whether the field may have it. Those that copy the key of a related row do not, so there it takes
   a schema in which a required foreign key references what is never null (`Schema.Fitting`). -/
namespace RelationalStore
open SortedMap Read Operation

/-! ### Complete rows -/

namespace Entity
variable {e : Entity} {row link : Row} {f : FieldDef} {name : String} {v : Value}

/-- The row has the fields of the entity, and the required ones are not null. -/
structure Fills (e : Entity) (row : Row) : Prop where
  fields : row.keys = (SortedSet.ofList (e.fields.map (·.name))).keys
  required : ∀ f ∈ e.fields, f.required = true → (row.value f.name).isNull = false

/-- Nor is a field of the primary key null. -/
structure Completes (e : Entity) (row : Row) : Prop extends Fills e row where
  id : ∀ f ∈ e.fields, f.id = true → (row.value f.name).isNull = false

/-- The value may stand in the field of that name, as far as it matters whether it is null. -/
def Bears (e : Entity) (name : String) (v : Value) : Prop :=
  ∃ f, e.field? name = some f ∧ (f.required = true → v.isNull = false)

theorem Fills.isSome_iff (h : e.Fills row) : (row.get? name).isSome ↔ ∃ f ∈ e.fields, f.name = name := by
  rw [← (Ordered.of_keys h.fields).mem_keys_iff, h.fields, mem_keys_set, List.mem_map]

theorem Fills.insert (hnames : ∀ f ∈ e.fields, e.field? f.name = some f) (h : e.Fills row)
    (hv : e.Bears name v) : e.Fills (row.insert name v) := by
  obtain ⟨f, hf, hv⟩ := hv
  have hname : f.name = name := by simpa using List.find?_some hf
  refine ⟨?_, fun g hg hrequired => ?_⟩
  · rw [keys_insert (h.isSome_iff.2 ⟨f, List.mem_of_find?_eq_some hf, hname⟩), h.fields]
  · rw [Row.value, get?_insert_eq]
    split
    · next heq =>
      -- Fields have names of their own, so it is the field that was written.
      rw [heq, hnames g hg] at hf
      cases hf
      exact hv hrequired
    · exact h.required g hg hrequired

theorem Fills.foldl {α : Type} {items : List α} {step : Row → α → Row} (h : e.Fills row)
    (hstep : ∀ row, e.Fills row → ∀ a ∈ items, e.Fills (step row a)) :
    e.Fills (items.foldl step row) := by
  induction items generalizing row with
  | nil => exact h
  | cons a rest ih =>
    refine ih (hstep row h a List.mem_cons_self) fun row hrow b hb => ?_
    exact hstep row hrow b (List.mem_cons_of_mem a hb)

theorem Fills.ofList (hnames : ∀ f ∈ e.fields, e.field? f.name = some f)
    {values : List (String × Value)}
    (h : List.Forall₂ (fun f p => p.1 = f.name ∧ (f.required = true → p.2.isNull = false))
      e.fields values) : e.Fills (.ofList values) where
  fields := by
    rw [keys_ofList, Schema.map_eq_of_forall₂ (h.imp fun _ _ h => h.1)]
  required := value_ofList (D := fun f v => f.required = true → v.isNull = false) hnames h

theorem keyOf_hasNull (hids : e.idFields = (e.fields.filter (·.id)).map (·.name)) :
    (e.keyOf row).hasNull = false ↔
      ∀ f ∈ e.fields, f.id = true → (row.value f.name).isNull = false := by
  simp only [Entity.keyOf, Key.ofRow, Key.hasNull, hids, List.map_map, List.any_map,
    List.any_eq_false, List.mem_filter, Function.comp_apply, Bool.not_eq_true, and_imp]

end Entity

/-! ### What schemas must say -/

/-- The declared default is null. -/
def FieldDef.startsNull (f : FieldDef) : Bool :=
  match f.default with
  | some (.literal j) => j.isNull
  | _ => false

namespace Schema
variable {s : Schema} {e t target : Entity} {r : Relation} {parent row : Row}

/-- No required field is null by default, or takes a value over that may be null. -/
def Fitting (s : Schema) : Prop :=
  ∀ e ∈ s.entities.values, (∀ f ∈ e.fields, f.required = true → f.startsNull = false) ∧
    ∀ r ∈ e.owningRelations, ∀ t ∈ s.entity? r.target, ∀ p ∈ r.near.zip r.far,
      ∀ f ∈ e.field? p.1, f.required = true →
        (t.field? p.2).any (fun g => g.required || g.id) = true

instance : Decidable s.Fitting := by
  unfold Fitting
  infer_instance

/-- The key that rows at the other end hold is made of their fields. -/
theorem Resolved.isSome_far (hs : s.Resolved) (he : s.entity? e.name = some e) (hr : r ∈ e.relations)
    (howning : r.isOwning = false) (ht : s.entity? target.name = some target)
    (htarget : target.name = r.target) {name : String} (hname : name ∈ r.far) :
    (target.field? name).isSome := by
  obtain ⟨t, ht', o, ho, -, hnear, -⟩ := hs.mirrored he r hr howning
  rw [← htarget, ht] at ht'
  cases ht'
  rw [← hnear] at hname
  exact (hs.key ht o ho).2.2 name hname

/-- Every row of an entity's table is complete. -/
def Complete (s : Schema) (n : String) (row : Row) : Prop :=
  ∀ e, s.entity? n = some e → e.Completes row

theorem complete_iff (he : s.entity? e.name = some e) : s.Complete e.name row ↔ e.Completes row := by
  refine ⟨fun h => h e he, fun h e' he' => ?_⟩
  rw [he] at he'
  cases he'
  exact h

section
variable (hs : s.Resolved) (he : s.entity? e.name = some e)
include hs he

theorem complete_of_key (h : e.Fills row) (hkey : (e.keyOf row).hasNull = false) :
    s.Complete e.name row :=
  (complete_iff he).2 ⟨h, (Entity.keyOf_hasNull (hs.idFields he).1).1 hkey⟩

variable (hfit : s.Fitting)
include hfit

/-- What is taken over from a complete row may stand in the foreign key. -/
theorem bears_link (hr : r ∈ e.owningRelations) (hparent : s.Complete r.target parent)
    {p : String × String} (hp : p ∈ r.near.zip r.far) : e.Bears p.1 (parent.value p.2) := by
  obtain ⟨t, ht⟩ := hs.target he r (List.mem_filter.1 hr).1
  have hcomplete := hparent t ht
  obtain ⟨f, hf⟩ := Option.isSome_iff_exists.1 ((hs.key he r hr).2.2 p.1 (List.of_mem_zip hp).1)
  refine ⟨f, hf, fun hrequired => ?_⟩
  obtain ⟨g, hg, hpresent⟩ :=
    (Option.any_eq_true _ _).1 ((hfit e (hs.mem_values he)).2 r hr t ht p hp f hf hrequired)
  have hname : g.name = p.2 := by simpa using List.find?_some hg
  have hmem := List.mem_of_find?_eq_some hg
  rw [← hname]
  rcases Bool.or_eq_true_iff.1 hpresent with h | h
  · exact hcomplete.required g hmem h
  · exact hcomplete.id g hmem h

theorem fills_linkTo (hr : r ∈ e.owningRelations) (hparent : s.Complete r.target parent)
    (hrow : e.Fills row) : e.Fills (r.linkTo parent row) :=
  hrow.foldl fun _ hrow _ hp => hrow.insert (hs.field he) (bears_link hs he hfit hr hparent hp)

/-- The key of a parent goes the same way through the relation that is mirrored. -/
theorem fills_childLink (hr : r ∈ e.relations) (howning : r.isOwning = false)
    (hparent : s.Complete e.name parent) (ht : s.entity? target.name = some target)
    (htarget : target.name = r.target) (hrow : target.Fills row) :
    target.Fills (row.insertAll (r.childLink parent)) := by
  obtain ⟨t, ht', o, ho, hname, hnear, hfar⟩ := hs.mirrored he r hr howning
  rw [← htarget, ht] at ht'
  cases ht'
  refine hrow.foldl fun _ hrow p hp => hrow.insert (hs.field ht) ?_
  have hmem := mem_of_get?_ofList ((ordered_ofList _).get?_eq_some_iff.2 hp)
  obtain ⟨⟨far, near⟩, hzip, heq⟩ := List.mem_map.1 hmem
  obtain ⟨rfl, hvalue⟩ := Prod.mk.inj heq
  rw [← hvalue]
  rw [← hnear, ← hfar] at hzip
  exact bears_link hs ht hfit ho (by rw [hname]; exact hparent) hzip

end

end Schema

/-! ### Complete rows from operations -/

namespace Operation
variable {s : Schema} {e target : Entity} {α : Type} {row : Row}

/-- The operation keeps all rows complete, and its result has `Q`. -/
abbrev Completing (s : Schema) (op : Operation α) (Q : α → Prop) : Prop :=
  KeepsRows s s.Complete op Q

theorem completing_any {reading : View → Read α} : Completing s (look s reading) fun _ => True :=
  keepsRows_look fun _ _ _ => .any

theorem completing_now : Completing s now fun _ => True := upholds_now (J := s.Keeps s.Complete)

theorem completing_note (e : Entity) (kind : ChangeKind) (key : Key) :
    Completing s (note e kind key) fun _ => True :=
  upholds_note (J := s.Keeps s.Complete) kind key

theorem completing_require (hs : s.Resolved) (name : String) :
    Completing s (MonadExcept.ofExcept (s.require name))
      fun t => s.entity? t.name = some t ∧ t.name = name :=
  upholds_require (J := s.Keeps s.Complete) hs name

section
variable (hs : s.Resolved) (he : s.entity? e.name = some e)
include hs he

theorem completing_touch (hrow : e.Fills row) :
    Completing s (touch e row) fun row => e.Fills row := by
  refine Keeps.andThen completing_now fun time => Keeps.pure ?_
  refine hrow.foldl fun row hrow f hf => hrow.insert (hs.field he) ?_
  exact ⟨f, hs.field he f (List.mem_filter.1 hf).1, fun _ => rfl⟩

theorem completing_addRow (hrow : e.Fills row) :
    Completing s (addRow e row) fun _ => s.Complete e.name row :=
  (keepsRows_addRow he (Schema.complete_of_key hs he hrow)).mono
    (fun _ hkey => Schema.complete_of_key hs he hrow hkey) fun _ h => h

theorem completing_putRow (hrow : e.Fills row) :
    Completing s (putRow e row) fun _ => s.Complete e.name row :=
  (keepsRows_putRow he (Schema.complete_of_key hs he hrow)).mono
    (fun _ hkey => Schema.complete_of_key hs he hrow hkey) fun _ h => h

theorem completing_changeRow (hrow : e.Fills row) : Completing s (changeRow e row) fun _ => True :=
  keepsRows_changeRow he (Schema.complete_of_key hs he hrow)

end

/-! ### Defaults -/

section Defaults
variable {f : FieldDef}

theorem completing_requireKind (f : FieldDef) (kind : ScalarKind) (call : String) :
    Completing s (requireKind e f kind call) fun _ => True :=
  (upholds_requireKind (J := s.Keeps s.Complete) f kind call).mono (fun _ _ => trivial) fun _ h => h

theorem completing_nextIncrement (e : Entity) (f : FieldDef) :
    Completing s (nextIncrement s e f) fun v => v.isNull = false := by
  refine Keeps.andThen completing_any fun t => ?_
  exact Triple.ite (fun _ => Keeps.pure rfl) fun _ => Keeps.throw trivial

variable (hstart : f.required = true → f.startsNull = false)
include hstart

theorem completing_generate (time : DateTime) {d : DefaultValue} (hd : f.default = some d) :
    Completing s (generate s e f time d) fun v => f.required = true → v.isNull = false := by
  have htoken := upholds_token (J := s.Keeps s.Complete)
  cases d with
  | autoIncrement => exact (completing_nextIncrement e f).mono (fun _ h _ => h) fun _ h => h
  | uuid =>
    refine Keeps.andThen (completing_requireKind f .string _) fun _ => ?_
    exact Keeps.andThen htoken fun n => Keeps.pure fun _ => rfl
  | cuid =>
    refine Keeps.andThen (completing_requireKind f .string _) fun _ => ?_
    exact Keeps.andThen htoken fun n => Keeps.pure fun _ => rfl
  | now =>
    refine Keeps.andThen (completing_requireKind f .datetime _) fun _ => ?_
    exact Keeps.pure fun _ => rfl
  | literal literal =>
    refine Keeps.ofExcept (.of_ok (fun v hv hrequired => ?_) fun _ _ => trivial)
    have hpresent := hstart hrequired
    rw [FieldDef.startsNull, hd] at hpresent
    have h := e.coerce_yields f literal
    rw [hv] at h
    exact h.2.trans hpresent

theorem completing_absent (time : DateTime) :
    Completing s (absent s e f time) fun v => f.required = true → v.isNull = false := by
  unfold absent
  refine Triple.ite (fun _ => Keeps.pure fun _ => rfl) fun _ => ?_
  split
  · next d hd => exact completing_generate hstart time hd
  · refine Triple.ite (fun _ => Keeps.pure fun _ => rfl) fun _ => ?_
    refine Triple.ite (fun _ => Keeps.throw trivial) fun h => Keeps.pure fun hrequired => ?_
    simp [hrequired] at h

theorem completing_complete (time : DateTime) (written : Option Value) :
    Completing s (complete s e f time written) fun v => f.required = true → v.isNull = false := by
  unfold complete
  split
  · exact completing_absent hstart time
  · refine Triple.ite (fun h => Keeps.pure fun _ => by simpa using h) fun _ => ?_
    refine Triple.ite (fun _ => Keeps.throw trivial) fun h => ?_
    refine Triple.ite (fun _ => Keeps.pure fun _ => rfl) fun _ => Keeps.pure fun hrequired => ?_
    simp [hrequired] at h

end Defaults

section
variable (hs : s.Resolved) (hfit : s.Fitting) (he : s.entity? e.name = some e)
include hs hfit he

/-- Whatever was written, and under whatever names. -/
theorem completing_fillDefaults (row : Row) :
    Completing s (fillDefaults s e row) fun row => e.Fills row := by
  refine Keeps.andThen completing_now fun time => ?_
  refine Keeps.bind (Keeps.mapM_each (D := fun f p => p.1 = f.name ∧
    (f.required = true → p.2.isNull = false)) fun f hf => ?_) fun values hvalues => ?_
  · exact Keeps.bind (completing_complete ((hfit e (hs.mem_values he)).1 f hf) time _) fun v hv =>
      Keeps.pure ⟨rfl, hv⟩
  · split
    · exact Keeps.throw trivial
    · exact Keeps.pure (.ofList (hs.field he) hvalues)

end

/-! ### Links between rows -/

section
variable (hs : s.Resolved)
include hs

theorem completing_checkForeignKeys (e : Entity) (row : Row) (written : List String) :
    Completing s (checkForeignKeys s e row written) fun _ => True := by
  refine Keeps.forM fun r _ => Triple.ite (fun _ => ?_) fun _ => Keeps.pure trivial
  refine Keeps.andThen ((completing_require hs r.target).mono (fun _ _ => trivial) fun _ h => h)
    fun target => ?_
  refine Keeps.andThen completing_any fun rows => ?_
  exact Triple.ite (fun _ => Keeps.throw trivial) fun _ => Keeps.pure trivial

theorem completing_relatedRows (r : Relation) (row : Row) :
    Completing s (look s fun v => v.relatedRows r row) fun rows =>
      ∀ row ∈ rows, s.Complete r.target row :=
  keepsRows_look fun v hv hgives => by
    subst hv
    exact hgives.relatedRows hs r row

omit hs in
theorem completing_reread (e : Entity) (key : Key) :
    Completing s (reread s e key) fun row => s.Complete e.name row := by
  refine Keeps.bind (keepsRows_look fun v _ hv => hv.row? e key) fun found hfound => ?_
  split
  · exact Keeps.pure (hfound _ rfl)
  · exact Keeps.throw trivial

omit hs in
theorem completing_findToConnect (r : Relation) (target : Entity) (selector : Filter) :
    Completing s (findToConnect s r target selector) fun row => s.Complete target.name row := by
  refine Keeps.bind (keepsRows_look fun v _ hv => hv.findUnique target selector)
    fun found hfound => ?_
  split
  · exact Keeps.pure (hfound _ rfl)
  · exact Keeps.throw trivial

end

/-! ### Rows that reference a parent -/

section
variable (hs : s.Resolved) (ht : s.entity? target.name = some target)
include hs ht

/-- Only keys that may be null are cleared. -/
theorem completing_unlink {r : Relation} (hfar : ∀ name ∈ r.far, (target.field? name).isSome)
    {child : Row} (hchild : s.Complete target.name child) :
    Completing s (unlink r target child) fun _ => True := by
  simp only [unlink]
  split
  · exact Keeps.throw trivial
  · next hnone =>
    refine Keeps.bind (completing_touch hs ht ?_) fun row hrow => completing_changeRow hs ht hrow
    refine ((Schema.complete_iff ht).1 hchild).toFills.foldl fun _ hrow name hname => ?_
    obtain ⟨f, hf⟩ := Option.isSome_iff_exists.1 (hfar name hname)
    refine hrow.insert (hs.field ht) ⟨f, hf, fun hrequired => ?_⟩
    have hnot := List.find?_eq_none.1 hnone name hname
    simp [hf, hrequired] at hnot

variable {r : Relation} (he : s.entity? e.name = some e) (hr : r ∈ e.relations)
  (howning : r.isOwning = false) (htarget : target.name = r.target)
include he hr howning htarget

theorem completing_disconnect (parent : Row) (d : Disconnect) :
    Completing s (disconnect s e r target parent d) fun _ => True := by
  have hunlink {child : Row} (hchild : s.Complete target.name child) :
      Completing s (unlink r target child) fun _ => True :=
    completing_unlink hs ht (fun _ => hs.isSome_far he hr howning ht htarget) hchild
  cases d with
  | flag on =>
    cases on with
    | false => exact Keeps.pure trivial
    | true =>
      refine Triple.ite (fun _ => Keeps.throw trivial) fun _ => ?_
      refine Keeps.bind (completing_relatedRows hs r parent) fun rows hrows => ?_
      refine Keeps.forM fun row hrow => hunlink ?_
      rw [htarget]
      exact hrows row hrow
  | records selectors =>
    refine Triple.ite (fun _ => Keeps.throw trivial) fun _ => Keeps.forM fun selector _ => ?_
    refine Keeps.bind (keepsRows_look fun v _ hv => hv.findUnique target selector)
      fun found hfound => ?_
    split
    · exact Keeps.pure trivial
    · exact Triple.ite (fun _ => hunlink (hfound _ rfl)) fun _ => Keeps.pure trivial

variable (hfit : s.Fitting)
include hfit

theorem completing_connect {parent : Row} (hparent : s.Complete e.name parent)
    (selector : Filter) : Completing s (connect s r target parent selector) fun _ => True := by
  refine Keeps.bind (completing_findToConnect r target selector) fun child hchild => ?_
  have hwrite : Completing s (touch target (child.insertAll (r.childLink parent)) >>=
      changeRow target) fun _ => True := by
    refine Keeps.bind (completing_touch hs ht ?_) fun row hrow => completing_changeRow hs ht hrow
    exact Schema.fills_childLink hs he hfit hr howning hparent ht htarget
      ((Schema.complete_iff ht).1 hchild).toFills
  refine Triple.ite (fun _ => ?_) fun _ => hwrite
  refine Keeps.bind (completing_relatedRows hs r parent) fun rows hrows => ?_
  refine Keeps.andThen (Keeps.forM fun row hrow => ?_) fun _ => hwrite
  refine Triple.ite (fun _ => ?_) fun _ => Keeps.pure trivial
  refine completing_unlink hs ht (fun _ => hs.isSome_far he hr howning ht htarget) ?_
  rw [htarget]
  exact hrows row hrow

end

/-! ### Values that are written -/

theorem completing_writeLiteral (e : Entity) (row : Row) (name : String) (literal : Json) :
    Completing s (writeLiteral e row name literal) fun _ => True := by
  unfold writeLiteral
  split
  · exact Keeps.andThen (Keeps.ofExcept .any) fun _ => Keeps.pure trivial
  · refine Keeps.andThen (Keeps.discard (R := fun _ => True) (Keeps.ofExcept .any)) fun _ => ?_
    exact Keeps.throw trivial

theorem completing_writeUpdate (e : Entity) (row : Row) (name : String) (op : UpdateOp) :
    Completing s (writeUpdate e row name op) fun _ => True := by
  unfold writeUpdate
  split
  · exact completing_writeLiteral e row name _
  · exact Keeps.throw trivial
  · refine Keeps.andThen (Keeps.discard (R := fun _ => True) (Keeps.ofExcept .any)) fun _ => ?_
    exact Keeps.throw trivial

end Operation

end RelationalStore

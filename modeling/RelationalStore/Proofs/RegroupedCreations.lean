import RelationalStore.Proofs.RegroupedRows

/- Rows that are made to reference a parent, one by one or in a batch, with data of their own fields
   alone. Whatever the data say, each has the key of the parent as its foreign key, since the link
   is written after them and no default takes its place. One in a batch may be passed over; so a
   creation that fails on a unique constraint must have left the tables as they were
   (`Operation.Attempts`). -/
namespace RelationalStore
open SortedMap Read Operation

variable {s : Schema} {e target : Entity} {r : Relation}

/-! ### Rows that are made to reference the parent -/

/-- Rows were made as planned, all of which reference the parent. -/
def Schema.Grows (s : Schema) (e : Entity) (r : Relation) (target : Entity) (key : Key)
    (tables : Tables) (plan : List (String × Bool)) (tables' : Tables) : Prop :=
  ∃ made, Fulfils made plan ∧
    s.Regroups e r target key tables ∅ {k | (target.name, k) ∈ made} made tables'

namespace Schema.Grows
variable {key : Key} {T T' T'' : Tables} {plan more : List (String × Bool)}

theorem refl (h : s.Traces e r target T) : s.Grows e r target key T [] T :=
  ⟨[], .nil, by simpa using Regroups.refl h⟩

theorem traces (h : s.Grows e r target key T plan T') : s.Traces e r target T' := by
  obtain ⟨_, _, h⟩ := h
  exact h.traces

theorem trans (hs : s.Resolved) (hkey : s.ChildKey e r target)
    (h : s.Grows e r target key T plan T') (h' : s.Grows e r target key T' more T'') :
    s.Grows e r target key T (plan ++ more) T'' := by
  obtain ⟨made, hmade, h⟩ := h
  obtain ⟨made', hmade', h'⟩ := h'
  refine ⟨made ++ made', hmade.append hmade', ?_⟩
  have hunion : {k | (target.name, k) ∈ made} ∪ {k | (target.name, k) ∈ made'} =
      {k | (target.name, k) ∈ made ++ made'} := by
    ext k
    simp
  have hboth := h.trans hs hkey h' (by simp)
  rwa [hunion, Set.union_empty] at hboth

end Schema.Grows

/-! ### Creations that may be passed over -/

/-- Any error but that a unique constraint is violated. -/
def Error.Other (err : Error) : Prop := ∀ n fields, err ≠ .uniqueViolation n fields

theorem View.row?_other (v : View) (e : Entity) (key : Key) :
    Yields (v.row? e key) (fun _ => True) Error.Other := by
  refine .bind (R := fun _ => True) ?_ fun _ _ => .pure trivial
  unfold View.table Transaction.table
  exact .ite (fun _ => .error nofun) fun _ => .ite
    (fun _ => .elim (.error nofun) fun _ _ => .ok trivial) fun _ => .error nofun

namespace Operation
variable {T : Tables} {α β : Type} {key : Key} {Q : α → Tables → Prop}

/-- If the operation succeeds, it leaves tables in which its result has `Q`; and if it fails as a
unique constraint is violated, it leaves the tables as they were. -/
abbrev Attempts (T : Tables) (op : Operation α) (Q : α → Tables → Prop) : Prop :=
  Triple (fun w => w.tables = T) op (fun a w => Q a w.tables)
    fun err w => err.Other ∨ w.tables = T

theorem Attempts.leaves {op : Operation α} (h : Attempts T op Q) : Leaves T op Q :=
  Triple.mono h (fun _ h => h) (fun _ _ h => h) fun _ _ _ => trivial

theorem Attempts.after {x : Operation β} {f : β → Operation α} {P : β → Prop} (hx : Still T x P)
    (hf : ∀ b, P b → Attempts T (f b) Q) : Attempts T (x >>= f) Q :=
  Triple.bind (Triple.mono hx (fun _ h => h) (fun _ _ h => h) fun _ _ h => .inr h.1)
    fun b w hw => hf b hw.2 w hw.1

/-- What follows neither writes nor violates a unique constraint. -/
theorem Attempts.before {x : Operation β} {f : β → Operation α} {R : Tables → Prop}
    (hx : Attempts T x fun _ => R)
    (hf : ∀ b, Keeps (fun w => R w.tables) (f b) (fun _ => True) Error.Other) :
    Attempts T (x >>= f) fun _ => R :=
  Triple.bind hx fun b => Triple.mono (hf b) (fun _ h => h) (fun _ _ h => h.1) fun _ _ h => .inl h.2

theorem attempts_addRow {row : Row} {R : Key → Tables → Prop} 
    (h : ∀ tx key tx' T', Transaction.add tx T e.name row = .ok (key, tx', T') → R key T') :
    Attempts T (addRow e row) R := by
  refine Triple.get fun w hw => ?_
  subst hw
  refine Triple.bind (R := fun key w => R key w.tables) (Triple.settle (.of_ok (fun r hadd => ?_) 
    fun _ _ => .inr rfl)) fun key => ?_
  · exact h _ _ _ _ hadd
  · exact Triple.bind (R := fun _ w => R key w.tables) (Triple.modify fun _ h => h) fun _ =>
      Triple.pure fun _ h => h

theorem keeps_reread (I : Work → Prop) (e : Entity) (key : Key) :
    Keeps I (reread s e key) (fun _ => True) Error.Other := by
  refine Keeps.andThen (Keeps.look fun _ _ => View.row?_other _ e key) fun found => ?_
  split
  · exact Keeps.pure trivial
  · exact Keeps.throw nofun

/-! Data that write to no relation. -/

theorem createChildren_of_plain (parent : Row) {fields : List (String × FieldWrite)}
    (hplain : WriteData.writesRelations ⟨fields⟩ = false) :
    createChildren s e parent fields = pure () := by
  induction fields with
  | nil => rw [createChildren]
  | cons entry rest ih =>
    obtain ⟨name, write⟩ := entry
    rw [WriteData.writesRelations, List.any_cons, Bool.or_eq_false_iff] at hplain
    rw [createChildren, ih hplain.2]
    cases write with
    | literal literal => 
      rw [createChild]
      rfl
    | update op => 
      rw [createChild]
      rfl
    | relation write => cases hplain.1

/-- The values of the new row keep to what the fields take. -/
theorem carries_createFields_of_plain {I : Work → Prop} {V : String → String → Value → Prop}
    (hV : s.Supplies V) (he : s.entity? e.name = some e) {fields : List (String × FieldWrite)}
    (hplain : WriteData.writesRelations ⟨fields⟩ = false) {row : Row} (hrow : row.Obeys V e.name) :
    Carries I (createFields s e row fields) fun row' => row'.Obeys V e.name := by
  induction fields generalizing row with
  | nil => 
    rw [createFields]
    exact Keeps.pure hrow
  | cons entry rest ih =>
    obtain ⟨name, write⟩ := entry
    rw [WriteData.writesRelations, List.any_cons, Bool.or_eq_false_iff] at hplain
    rw [createFields]
    refine Keeps.bind (R := fun row => row.Obeys V e.name) ?_ fun row hrow => ih hplain.2 hrow
    cases write with
    | literal literal => 
      rw [createField]
      exact carries_writeLiteral hV he hrow name literal
    | update op => 
      rw [createField]
      exact carries_writeUpdate hV he hrow name op
    | relation write => cases hplain.1

section
variable (hs : s.Resolved) (hkey : s.ChildKey e r target)
  (hfits : key.Fits (s.classes e.name) r.near) (hpresent : key.hasNull = false)
  {parent : Row} (hparent : Key.ofRow r.near parent = key)
include hs hkey hfits hpresent

omit hpresent in
/-- A row that references the parent is added. -/
theorem attempts_addChild (hT : s.Traces e r target T) {row : Row} (hlinked : Key.ofRow r.far row = key)
    (hids : row.Fits (s.classes target.name) target.idFields) :
    Attempts T (addRow target row) fun _ T' =>
      ∃ k, s.Regroups e r target key T ∅ {k} [(target.name, k)] T' := by
  have hfar := hkey.fits_far hs hfits
  rw [← hlinked] at hfar
  refine attempts_addRow fun tx k tx' T' hadd => ⟨target.keyOf row, ?_⟩
  refine Schema.Places.gains (hT.add hs hkey (fun f hf => ?_) hadd) hlinked
  exact (List.mem_append.1 hf).elim (hids f) fun hf => hfar.value hf

omit hfits in
/-- No default takes the place of a foreign key. -/
theorem still_fillChild {row : Row} (hlinked : Key.ofRow r.far row = key) :
    Still T (fillDefaults s target row) fun filled => Key.ofRow r.far filled = key := by
  obtain ⟨o, ho, hnear, -⟩ := (hkey.held hs).exists_owner hs
  obtain ⟨-, -, hfields⟩ := hs.key (hkey.child hs) o ho
  rw [hnear] at hfields
  refine (still_fillDefaults hs (hkey.child hs) row).mono (fun filled hfilled => ?_) fun _ h => h
  rw [← hlinked]
  refine Key.ofRow_eq fun f hf => ?_
  obtain ⟨g, hg⟩ := Option.isSome_iff_exists.1 (hfields f hf)
  have hname : g.name = f := by simpa using List.find?_some hg
  subst hname
  refine hfilled g (List.mem_of_find?_eq_some hg) (.inr (.inl ?_))
  rw [← hlinked] at hpresent
  exact Bool.eq_false_iff.2 (List.any_eq_false.1 hpresent _ (List.mem_map_of_mem hf))

include hparent

theorem attempts_create (hT : s.Traces e r target T) {data : WriteData}
    (hplain : data.writesRelations = false) :
    Attempts T (create s target (r.childLink parent) data) fun _ T' =>
      ∃ k, s.Regroups e r target key T ∅ {k} [(target.name, k)] T' := by
  obtain ⟨fields⟩ := data
  have hchild := hkey.child hs
  have hV := Schema.supplies_where hs (fun _ _ => rfl) fun n c => n = target.name ∧ c ∈ target.idFields
  rw [create]
  refine .after (carries_createFields_of_plain hV hchild hplain (.empty hV.null)) fun row hrow => ?_
  have hlinked : Key.ofRow r.far (row.insertAll (r.childLink parent)) = key := by
    rw [(hkey.held hs).ofRow_childLink hs hkey.distinct, hparent]
  have hrow : Row.Obeys _ target.name (row.insertAll (r.childLink parent)) :=
    hrow.insertAll (.ofList fun p hp hid => by
      obtain ⟨q, hq, rfl⟩ := List.mem_map.1 hp
      exact absurd hid.2 (hkey.apart q.1 (List.of_mem_zip hq).1).1)
  refine .after (carries_checkForeignKeys (V := fun _ _ _ => True) hs ⟨fun _ _ _ _ _ _ _ => trivial,
    fun _ _ h => h⟩ _ _ _) fun _ _ => ?_
  refine .after ((still_fillChild hs hkey hpresent hlinked).besides
    (carries_fillDefaults hV (fun _ _ _ => trivial) hchild hrow)) fun filled hfilled => ?_
  refine .before (attempts_addChild hs hkey hfits hT hfilled.1 fun f hf =>
    hfilled.2 f ⟨rfl, hf⟩) fun k => ?_
  rw [createChildren_of_plain filled hplain]
  exact keeps_reread _ target k

/-- One row is made to reference the parent. -/
theorem leaves_created (hT : s.Traces e r target T) {data : WriteData}
    (hplain : data.writesRelations = false) :
    Leaves T (discard (create s target (r.childLink parent) data)) fun _ T' =>
      s.Grows e r target key T [(target.name, false)] T' := by
  have hcreate := attempts_create hs hkey hfits hpresent hparent hT hplain
  refine .bind hcreate.leaves fun _ T' h => .pure ?_
  obtain ⟨k, h⟩ := h
  exact ⟨[(target.name, k)], .made _ k false .nil, by simpa using h⟩

/-- One row is made to reference the parent, or is left out. -/
theorem leaves_createdOrSkipped (hT : s.Traces e r target T) (skip : Bool) {data : WriteData}
    (hplain : data.writesRelations = false) :
    Leaves T (discard (skipDuplicate skip (create s target (r.childLink parent) data))) fun _ T' =>
      s.Grows e r target key T [(target.name, skip)] T' := by
  have hcreate := attempts_create hs hkey hfits hpresent hparent hT hplain
  have hskip : Attempts T (skipDuplicate skip (create s target (r.childLink parent) data))
      fun _ T' => s.Grows e r target key T [(target.name, skip)] T' := by
    refine Triple.skipDuplicate skip hcreate (fun _ w h => ?_) fun hskip n fields w h => ?_
    · obtain ⟨k, h⟩ := h
      exact ⟨[(target.name, k)], .made _ k skip .nil, by simpa using h⟩
    · rw [h.resolve_left fun hother => hother n fields rfl, hskip]
      exact ⟨[], .skipped _ .nil, by simpa using Schema.Regroups.refl hT⟩
  exact .bind hskip.leaves fun _ _ h => .pure h

/-- Each of the rows is made. -/
theorem leaves_createAll (hT : s.Traces e r target T) {rows : List WriteData}
    (hplain : ∀ data ∈ rows, data.writesRelations = false) :
    Leaves T (createAll s target (r.childLink parent) rows) fun _ T' =>
      s.Grows e r target key T (rows.map fun _ => (target.name, false)) T' := by
  induction rows generalizing T with
  | nil =>
    rw [createAll]
    exact .pure (.refl hT)
  | cons data rest ih =>
    rw [createAll]
    refine .bind (leaves_created hs hkey hfits hpresent hparent hT (hplain data List.mem_cons_self))
      fun _ T' h => ?_
    refine .mono (ih h.traces fun data hdata => hplain data (List.mem_cons_of_mem _ hdata))
      fun _ T'' h' => h.trans hs hkey h'

/-- Each of the rows is made, or left out. -/
theorem leaves_createBatch (hT : s.Traces e r target T) (skip : Bool) (rows : List WriteData) :
    Leaves T (createBatch s target (r.childLink parent) skip rows) fun _ T' =>
      s.Grows e r target key T (rows.map fun _ => (target.name, skip)) T' := by
  induction rows generalizing T with
  | nil =>
    rw [createBatch]
    exact .pure (.refl hT)
  | cons data rest ih =>
    rw [createBatch]
    refine .ite (fun _ => .throw) fun hplain => ?_
    have hplain : data.writesRelations = false := by simpa using hplain
    refine .bind (leaves_createdOrSkipped hs hkey hfits hpresent hparent hT skip hplain)
      fun _ T' h => ?_
    exact .mono (ih h.traces) fun _ T'' h' => h.trans hs hkey h'

theorem leaves_writeBatch (hT : s.Traces e r target T) (batch : Option CreateMany) :
    Leaves T (writeBatch s e r target parent batch) fun _ T' =>
      s.Grows e r target key T (s.batchCreations target batch) T' := by
  cases batch with
  | none =>
    rw [writeBatch, Schema.batchCreations]
    exact .pure (.refl hT)
  | some batch =>
    obtain ⟨rows, skip⟩ := batch
    rw [writeBatch, writeMany, Schema.batchCreations]
    refine .ite (fun _ => .throw) fun _ => ?_
    exact leaves_createBatch hs hkey hfits hpresent hparent hT skip rows

end

end Operation

end RelationalStore

import RelationalStore.Proofs.CreationRuns

/- Updating a row under its key. What is written to a field is followed through the write data entry
   by entry (`Entity.Revises`): the row under revision differs from the row that was read in the
   fields that were written only, and these have what was written last. It is put back where it was
   if no field of its key may change; the rows that reference it are written to after that, and
   change it only as far as they connect it or let it go. -/
namespace RelationalStore
open SortedMap Read

/-! ### What is written to a field -/

/-- The entry of write data writes the field, by name or as a part of a foreign key. -/
def Entity.Sets (e : Entity) (f : String) (entry : String × FieldWrite) : Prop :=
  match e.field? entry.1, e.relation? entry.1, entry.2 with
  | some g, _, _ => g.name = f
  | none, some r, .relation write => r.isOwning = true ∧ f ∈ r.near ∧
      (write.disconnect = some (.flag true) ∨ write.create ≠ [] ∨ write.connect ≠ [])
  | none, _, _ => False

/-- What an entry of write data makes of what was written to a field of a row before. A parent is what
the entry links the row to. -/
inductive Entity.Revises (e : Entity) (links : Relation → NestedWrite → Row → Prop) (x : Row)
    (f : String) : String × FieldWrite → Option Value → Option Value → Prop
  /-- The field gets a value that may depend on the one that it has. -/
  | value {name : String} {g : FieldDef} {write : FieldWrite} {w : Option Value} {v : Value}
      (hg : e.field? name = some g) (hf : g.name = f)
      (hv : Operation.newValue e g (w.getD (x.value f)) write = .ok v) :
      Revises e links x f (name, write) w (some v)
  /-- The foreign key is cleared. -/
  | clear {name : String} {r : Relation} {write : NestedWrite} {w : Option Value}
      (hname : e.field? name = none) (hr : e.relation? name = some r) (howning : r.isOwning = true)
      (hf : f ∈ r.near) (hreleased : write.disconnect = some (.flag true)) :
      Revises e links x f (name, .relation write) w (some .null)
  /-- The foreign key becomes that of a parent. -/
  | link {name : String} {r : Relation} {write : NestedWrite} {parent : Row} {w : Option Value}
      (hname : e.field? name = none) (hr : e.relation? name = some r) (howning : r.isOwning = true)
      (hf : f ∈ r.near) (hkept : write.disconnect ≠ some (.flag true))
      (hparent : links r write parent) :
      Revises e links x f (name, .relation write) w (some ((r.linkTo parent ∅).value f))
  /-- Nothing is written to the field. -/
  | other {entry : String × FieldWrite} {w : Option Value} (h : ¬ e.Sets f entry) :
      Revises e links x f entry w w

/-- What the entries of write data write to a field, one after the other. -/
inductive Entity.RevisesAll (e : Entity) (links : Relation → NestedWrite → Row → Prop) (x : Row)
    (f : String) : List (String × FieldWrite) → Option Value → Option Value → Prop
  | nil {w : Option Value} : RevisesAll e links x f [] w w
  | cons {entry : String × FieldWrite} {rest : List (String × FieldWrite)} {w v w' : Option Value}
      (h : e.Revises links x f entry w v) (hrest : RevisesAll e links x f rest v w') :
      RevisesAll e links x f (entry :: rest) w w'

namespace Entity
variable {e : Entity} {links links' : Relation → NestedWrite → Row → Prop} {x : Row} {f : String}
  {entry : String × FieldWrite} {entries : List (String × FieldWrite)} {w w' : Option Value}

theorem Revises.mono (h : e.Revises links x f entry w w')
    (hlinks : ∀ r write parent, links r write parent → links' r write parent) :
    e.Revises links' x f entry w w' := by
  cases h with
  | value hg hf hv => exact .value hg hf hv
  | clear hname hr howning hf hreleased => exact .clear hname hr howning hf hreleased
  | link hname hr howning hf hkept hparent =>
    exact .link hname hr howning hf hkept (hlinks _ _ _ hparent)
  | other h => exact .other h

theorem RevisesAll.mono (h : e.RevisesAll links x f entries w w')
    (hlinks : ∀ r write parent, links r write parent → links' r write parent) :
    e.RevisesAll links' x f entries w w' := by
  induction h with
  | nil => exact .nil
  | cons h _ ih => exact .cons (h.mono hlinks) ih

end Entity

namespace Entity
variable {e : Entity} {links : Relation → NestedWrite → Row → Prop} {x : Row} {f : String}
  {entry : String × FieldWrite} {entries more : List (String × FieldWrite)} {w v w' : Option Value}

theorem RevisesAll.append (h : e.RevisesAll links x f entries w v)
    (h' : e.RevisesAll links x f more v w') : e.RevisesAll links x f (entries ++ more) w w' := by
  induction h with
  | nil => exact h'
  | cons h _ ih => exact .cons h (ih h')

/-- Data that write to no relation link to nothing. -/
theorem RevisesAll.of_plain {links' : Relation → NestedWrite → Row → Prop}
    (h : e.RevisesAll links x f entries w w')
    (hplain : WriteData.writesRelations ⟨entries⟩ = false) : e.RevisesAll links' x f entries w w' := by
  induction h with
  | nil => exact .nil
  | cons h _ ih =>
    rw [WriteData.writesRelations, List.any_cons, Bool.or_eq_false_iff] at hplain
    refine .cons ?_ (ih hplain.2)
    cases h with
    | value hg hf hv => exact .value hg hf hv
    | clear => cases hplain.1
    | link => cases hplain.1
    | other h => exact .other h

/-- What is written is named by the entry. -/
theorem Revises.names (h : e.Revises links x f entry w w') (hw : w'.isSome) :
    w.isSome ∨ entry.1 = f ∨ ∃ r ∈ e.relation? entry.1, r.isOwning = true ∧ f ∈ r.near := by
  cases h with
  | value hg hf =>
    have hname := by simpa using List.find?_some hg
    exact .inr (.inl (hname.symm.trans hf))
  | clear _ hr howning hf => exact .inr (.inr ⟨_, hr, howning, hf⟩)
  | link _ hr howning hf => exact .inr (.inr ⟨_, hr, howning, hf⟩)
  | other => exact .inl hw

theorem RevisesAll.names (h : e.RevisesAll links x f entries w w') (hw : w'.isSome) :
    w.isSome ∨ e.Names ⟨entries⟩ f := by
  induction h with
  | nil => exact .inl hw
  | @cons entry rest _ _ _ h _ ih =>
    rcases ih hw with hv | ⟨entry', hmem, hnames⟩
    · exact (h.names hv).imp_right fun hnames => ⟨entry, List.mem_cons_self, hnames⟩
    · exact .inr ⟨entry', List.mem_cons_of_mem entry hmem, hnames⟩

/-- What the entry writes is written. -/
theorem Revises.of_sets (h : e.Revises links x f entry w w') (hsets : w.isSome ∨ e.Sets f entry) :
    w'.isSome := by
  cases h with
  | value => rfl
  | clear => rfl
  | link => rfl
  | other hnot => exact hsets.resolve_right hnot

theorem RevisesAll.of_sets (h : e.RevisesAll links x f entries w w')
    (hsets : w.isSome ∨ ∃ entry ∈ entries, e.Sets f entry) : w'.isSome := by
  induction h with
  | nil => simpa using hsets
  | cons h _ ih =>
    rw [List.exists_mem_cons_iff, ← or_assoc] at hsets
    exact ih (hsets.imp_left h.of_sets)

end Entity

namespace Revision
variable {v : Revision} {x : Row} {f : String}

/-- What was written to the field, if anything was. -/
def written? (v : Revision) (f : String) : Option Value :=
  if f ∈ v.written then some (v.row.value f) else none

/-- Every other field is as in the row that was read. -/
def Tracks (v : Revision) (x : Row) : Prop := ∀ f, f ∉ v.written → v.row.value f = x.value f

theorem Tracks.value_eq (h : v.Tracks x) (f : String) :
    v.row.value f = (v.written? f).getD (x.value f) := by
  rw [written?]
  split
  · rfl
  · next hf => exact h f hf

theorem value_set (name : String) (value : Value) :
    (v.set name value).row.value f = if f = name then value else v.row.value f := by
  rw [set, Row.value, get?_insert_eq]
  simp only [eq_comm]
  split <;> rfl

theorem written?_set (name : String) (value : Value) :
    (v.set name value).written? f = if f = name then some value else v.written? f := by
  have hmem : f ∈ (v.set name value).written ↔ f = name ∨ f ∈ v.written := List.mem_cons
  rw [written?, written?, value_set]
  by_cases hf : f = name
  · rw [if_pos (hmem.2 (.inl hf)), if_pos hf, if_pos hf]
  · simp only [hmem, hf, false_or, if_false]

theorem Tracks.set (h : v.Tracks x) (name : String) (value : Value) : (v.set name value).Tracks x := by
  intro f hf
  have hne : f ≠ name ∧ f ∉ v.written := by simpa [Revision.set] using hf
  rw [value_set, if_neg hne.1, h f hne.2]

/-- What clearing a foreign key makes of a revision. -/
theorem written?_cleared (names : List String) (v : Revision) (f : String) :
    (names.foldl (fun v name => v.set name .null) v).written? f =
      if f ∈ names then some .null else v.written? f := by
  induction names generalizing v with
  | nil => simp
  | cons name rest ih =>
    rw [List.foldl_cons, ih, written?_set]
    by_cases hrest : f ∈ rest
    · simp [hrest]
    · by_cases hf : f = name
      · simp [hf]
      · simp [hrest, hf]

theorem Tracks.cleared (h : v.Tracks x) (names : List String) :
    (names.foldl (fun v name => v.set name .null) v).Tracks x := by
  induction names generalizing v with
  | nil => exact h
  | cons name rest ih => exact ih (h.set name .null)

theorem mem_written_iff : f ∈ v.written ↔ (v.written? f).isSome := by
  rw [written?]
  split <;> simp_all

/-- The row as it is put back: with the time of the write in the fields for that, as far as they were
not written themselves. -/
def Stamped (v : Revision) (e : Entity) (next : Row) : Prop :=
  ∃ time, ∀ f, next.value f =
    if f ∈ e.stamps ∧ f ∉ v.written then .datetime time else v.row.value f

variable {e : Entity} {next : Row}

theorem Stamped.value_eq (h : v.Stamped e next) (hf : f ∉ e.stamps) : next.value f = v.row.value f := by
  obtain ⟨time, hnext⟩ := h
  rw [hnext, if_neg fun hstamp => hf hstamp.1]

/-- A foreign key is not stamped. -/
theorem Stamped.ofRow_near (h : v.Stamped e next) {s : Schema} {r : Relation}
    (hcheckable : s.Checkable e r) : Key.ofRow r.near next = Key.ofRow r.near v.row :=
  Key.ofRow_eq fun f hf => h.value_eq (hcheckable.unstamped f hf)

end Revision

/-- The fields that keep what was written to them, although every other write stamps them. -/
theorem Entity.mem_kept (e : Entity) (written : List String) (f : String) :
    f ∈ (e.fields.filter fun g => g.updatedAt && written.contains g.name).map (·.name) ↔
      f ∈ e.stamps ∧ f ∈ written := by
  simp only [Entity.stamps, List.mem_map, List.mem_filter, Bool.and_eq_true, List.contains_iff_mem]
  constructor
  · rintro ⟨g, ⟨hg, hstamp, hwritten⟩, rfl⟩
    exact ⟨⟨g, ⟨hg, hstamp⟩, rfl⟩, hwritten⟩
  · rintro ⟨⟨g, ⟨hg, hstamp⟩, rfl⟩, hwritten⟩
    exact ⟨g, ⟨hg, hstamp, hwritten⟩, rfl⟩

namespace Relation
variable {r : Relation} {parent row row' : Row} {f : String}

theorem value_linkTo_of_mem (hlen : r.near.length = r.far.length) (h : f ∈ r.near) :
    (r.linkTo parent row).value f = (r.linkTo parent row').value f := by
  have hsome : ((SortedMap.ofList ((r.near.zip r.far).map
      fun p => (p.1, parent.value p.2))).get? f).isSome := by
    rw [isSome_get?_ofList, List.map_map]
    rw [← List.map_fst_zip (Nat.le_of_eq hlen)] at h
    exact h
  obtain ⟨v, hv⟩ := Option.isSome_iff_exists.1 hsome
  rw [Row.value, Row.value, get?_linkTo, get?_linkTo, hv]
  rfl

end Relation

/-- The row is what a write through a relation leads to, seen from tables before and after: it is
there afterwards, as far as it has not changed, and if it was to be found then it was what the
selector names. -/
def Schema.Links (s : Schema) (fluid : String → String → Prop) (before after : Tables) (r : Relation)
    (write : NestedWrite) (parent : Row) : Prop :=
  ∃ t, s.entity? t.name = some t ∧ t.name = r.target ∧
    (∃ z, after.Has t.name z ∧ t.Becomes (fluid t.name) parent z) ∧
      ∀ selector, write.create = [] → write.connect = [selector] →
        ∃ tables tx, s.Retains fluid before tables ∧
          View.findUnique ⟨s, tables, tx⟩ t selector = .ok (some parent)

namespace Course
variable {c : Course} {T₀ T T' : Tables} {r : Relation} {write : NestedWrite} {parent : Row}

/-- The row is known as what a write through a relation leads to. -/
def Links (c : Course) (T₀ T : Tables) (r : Relation) (write : NestedWrite) (parent : Row) : Prop :=
  ∃ t, c.schema.entity? t.name = some t ∧ t.name = r.target ∧ c.Known T t parent ∧
    ∀ selector, write.create = [] → write.connect = [selector] →
      ∃ tables tx, c.Retains T₀ tables ∧
        View.findUnique ⟨c.schema, tables, tx⟩ t selector = .ok (some parent)

theorem Links.later (h : c.Links T₀ T r write parent) (hT : c.Writing T) (hT' : c.Writing T')
    (hTT' : c.Retains T T') : c.Links T₀ T' r write parent := by
  obtain ⟨t, ht, htarget, hknown, hfound⟩ := h
  exact ⟨t, ht, htarget, hknown.later c.resolved c.kinds ht hT.holds hT'.holds hTT', hfound⟩

theorem Links.links (h : c.Links T₀ T r write parent) :
    c.schema.Links c.fluid T₀ T r write parent := by
  obtain ⟨t, ht, htarget, hknown, hfound⟩ := h
  exact ⟨t, ht, htarget, hknown.there, hfound⟩

end Course

/-! ### Revision -/

theorem Course.Goes.never {c : Course} {T : Tables} {plan : List (String × Bool)} {α : Type}
    {op : Operation α} {Q : α → Tables → Prop} (hT : c.Writing T)
    (h : Operation.Still T op fun _ => False) : c.Goes T plan op Q := by
  rw [← bind_pure op]
  exact .after hT h fun _ hfalse => hfalse.elim

/-- A field that is written gets its new value, and it is no part of the primary key. -/
theorem Operation.reviseField_ok {e : Entity} {f : FieldDef} {v v' : Revision} {write : FieldWrite}
    (h : reviseField e f v write = .ok v') : f.id = false ∧
      ∃ value, newValue e f (v.row.value f.name) write = .ok value ∧ v' = v.set f.name value := by
  unfold reviseField at h
  split at h
  · cases h
  · next hid =>
    obtain ⟨value, hvalue, h⟩ := Except.bind_eq_ok.1 h
    split at h
    · cases h
    · cases h
      exact ⟨by simpa using hid, value, hvalue, rfl⟩

/-- What entries of write data make of a row under revision. -/
structure Course.Revises (c : Course) (T₀ : Tables) (e : Entity) (x : Row) (v : Revision)
    (entries : List (String × FieldWrite)) (v' : Revision) (T' : Tables) : Prop where
  tracks : v'.Tracks x
  written : ∀ f, e.RevisesAll (c.Links T₀ T') x f entries (v.written? f) (v'.written? f)

namespace Entity
variable {e : Entity} {name f : String} {r : Relation} {write : NestedWrite}

theorem not_sets_of_notMem (hname : e.field? name = none) (hr : e.relation? name = some r)
    (hf : f ∉ r.near) : ¬ e.Sets f (name, .relation write) := by
  simp only [Sets, hname, hr]
  exact fun hsets => hf hsets.2.1

theorem not_sets_of_none (hname : e.field? name = none) (hr : e.relation? name = some r)
    (hkept : write.disconnect ≠ some (.flag true)) (hcreate : write.create = [])
    (hconnect : write.connect = []) : ¬ e.Sets f (name, .relation write) := by
  simp [Sets, hname, hr, hkept, hcreate, hconnect]

end Entity

namespace Course.Revises
variable {c : Course} {T₀ T : Tables} {e : Entity} {x : Row} {v v' : Revision} {name : String}
  (hv : v.Tracks x)
include hv

theorem unchanged {entry : String × FieldWrite} (h : ∀ f, ¬ e.Sets f entry) :
    c.Revises T₀ e x v [entry] v T :=
  ⟨hv, fun f => .cons (.other (h f)) .nil⟩

theorem field {g : FieldDef} (hg : e.field? name = some g) {write : FieldWrite}
    (h : Operation.reviseField e g v write = .ok v') : c.Revises T₀ e x v [(name, write)] v' T := by
  obtain ⟨-, value, hvalue, rfl⟩ := Operation.reviseField_ok h
  rw [hv.value_eq] at hvalue
  refine ⟨hv.set g.name value, fun f => .cons ?_ .nil⟩
  rw [Revision.written?_set]
  split
  · next hf => exact .value hg hf.symm (by rwa [hf])
  · next hf =>
    refine .other fun hsets => hf ?_
    simp only [Entity.Sets, hg] at hsets
    exact hsets.symm

variable {r : Relation} {write : NestedWrite} (hname : e.field? name = none)
  (hr : e.relation? name = some r) (howning : r.isOwning = true)
include hname hr howning

theorem released (hreleased : write.disconnect = some (.flag true))
    (h : Operation.release e r v = .ok v') :
    c.Revises T₀ e x v [(name, .relation write)] v' T := by
  unfold Operation.release at h
  split at h
  · cases h
  · cases h
    refine ⟨hv.cleared r.near, fun f => .cons ?_ .nil⟩
    rw [Revision.written?_cleared]
    split
    · next hf => exact .clear hname hr howning hf hreleased
    · next hf => exact .other (Entity.not_sets_of_notMem hname hr hf)

theorem linked (hlen : r.near.length = r.far.length) (hkept : write.disconnect ≠ some (.flag true))
    {parent : Row} (hlinks : c.Links T₀ T r write parent) :
    c.Revises T₀ e x v [(name, .relation write)] ⟨r.linkTo parent v.row, r.near ++ v.written⟩ T := by
  refine ⟨fun f hf => ?_, fun f => .cons ?_ .nil⟩
  · have hne : f ∉ r.near ∧ f ∉ v.written := by simpa using hf
    rw [Relation.value_linkTo_of_notMem hne.1, hv f hne.2]
  · by_cases hf : f ∈ r.near
    · have hwritten : (⟨r.linkTo parent v.row, r.near ++ v.written⟩ : Revision).written? f =
          some ((r.linkTo parent ∅).value f) := by
        rw [Revision.written?, if_pos (List.mem_append_left _ hf), Relation.value_linkTo_of_mem hlen hf]
      rw [hwritten]
      exact .link hname hr howning hf hkept hlinks
    · have hwritten : (⟨r.linkTo parent v.row, r.near ++ v.written⟩ : Revision).written? f =
          v.written? f := by
        simp only [Revision.written?, List.mem_append, hf, false_or,
          Relation.value_linkTo_of_notMem hf]
      rw [hwritten]
      exact .other (Entity.not_sets_of_notMem hname hr hf)

end Course.Revises

namespace Course.Revises
variable {c : Course} {T T' : Tables} {e : Entity} {x next : Row} {v : Revision} {f : String}
  {entries : List (String × FieldWrite)}

theorem names (h : c.Revises T e x ⟨x, []⟩ entries v T') (hf : f ∈ v.written) :
    e.Names ⟨entries⟩ f := by
  refine ((h.written f).names (Revision.mem_written_iff.1 hf)).resolve_left fun hnone => ?_
  simp [Revision.written?] at hnone

theorem mem_written (h : c.Revises T e x ⟨x, []⟩ entries v T')
    (hsets : ∃ entry ∈ entries, e.Sets f entry) : f ∈ v.written :=
  Revision.mem_written_iff.2 ((h.written f).of_sets (.inr hsets))

/-- What an update does not rewrite is put back as it was. -/
theorem lasting (h : c.Revises T e x ⟨x, []⟩ entries v T') (hnext : v.Stamped e next)
    (hnames : ¬ e.Names ⟨entries⟩ f) (hstamp : f ∉ e.stamps) : next.value f = x.value f :=
  (hnext.value_eq hstamp).trans (h.tracks f fun hf => hnames (h.names hf))

end Course.Revises

namespace Operation
variable {c : Course} {T₀ T : Tables} {e : Entity} {x : Row} {v : Revision} {name : String}

section
variable (hT : c.Writing T) (hv : v.Tracks x)
include hT hv

theorem goes_reviseField {g : FieldDef} (hg : e.field? name = some g) (write : FieldWrite) :
    c.Goes T (c.schema.parentCreation e name write)
      (MonadExcept.ofExcept (reviseField e g v write))
      fun v' T' => c.Revises T₀ e x v [(name, write)] v' T' := by
  have hstill : c.Goes T [] (MonadExcept.ofExcept (reviseField e g v write))
      fun v' T' => c.Revises T₀ e x v [(name, write)] v' T' :=
    .still hT (still_ofExcept _) fun _ h => .field hv hg h
  cases write with
  | literal literal =>
    rw [Schema.parentCreation]
    exact hstill
  | update op =>
    rw [Schema.parentCreation]
    exact hstill
  | relation write =>
    -- A field has no value from a write to a relation.
    refine .never hT ((still_ofExcept _).mono (fun v' hv' => ?_) fun _ h => h)
    unfold reviseField at hv'
    split at hv'
    · cases hv'
    · cases hv'

theorem goes_reviseOwner (he : c.schema.entity? e.name = some e) (hT₀ : c.Retains T₀ T) {r : Relation}
    (hname : e.field? name = none) (hr : e.relation? name = some r) (howning : r.isOwning = true)
    (write : NestedWrite) (hflows : c.Flows ⟨e.name, r, write⟩)
    (hparts : ∀ p ∈ c.schema.nestedParts r write, c.Flows p) :
    c.Goes T (c.schema.ownerCreations r write) (reviseOwner c.schema e r v write)
      fun v' T' => c.Revises T₀ e x v [(name, .relation write)] v' T' := by
  have hmem := List.mem_of_find?_eq_some hr
  obtain ⟨-, hlen, -⟩ := c.resolved.key he r (List.mem_filter.2 ⟨hmem, howning⟩)
  obtain ⟨t, ht⟩ := c.resolved.target he r hmem
  refine .ite (fun _ => .throw hT) fun _ => ?_
  split
  · next hreleased =>
    have hnone : c.schema.ownerCreations r write = [] := by
      obtain ⟨_, _, _, _, released⟩ := write
      cases hreleased
      rw [Schema.ownerCreations]
    rw [hnone]
    exact .still hT (still_ofExcept _) fun _ h => .released hv hname hr howning hreleased h
  · exact .throw hT
  · next hkept _ =>
    refine .ite (fun hnone => ?_) fun _ => ?_
    · obtain ⟨hcreate, hconnect⟩ : write.create = [] ∧ write.connect = [] := by simpa using hnone
      rw [Schema.ownerCreations_of_kept ht hkept, hcreate, Schema.allCreations]
      exact .pure hT (.unchanged hv fun _ =>
        Entity.not_sets_of_none hname hr hkept hcreate hconnect)
    · refine .last hT (goes_resolveParent hT howning write hkept hflows hparts)
        fun parent T₁ hT₁ _ hparent => ?_
      obtain ⟨t, ht, htarget, hknown, hfound⟩ := hparent
      refine .pure hT₁ (.linked hv hname hr howning hlen hkept ⟨t, ht, htarget, hknown, ?_⟩)
      intro selector hcreate hconnect
      obtain ⟨tx, hfound⟩ := hfound selector hcreate hconnect
      exact ⟨T, tx, hT₀, hfound⟩

theorem goes_revise (he : c.schema.entity? e.name = some e) (hT₀ : c.Retains T₀ T)
    (entry : String × FieldWrite) (hparts : ∀ p ∈ c.schema.fieldParts e entry.1 entry.2, c.Flows p) :
    c.Goes T (c.schema.parentCreation e entry.1 entry.2) (revise c.schema e v entry)
      fun v' T' => c.Revises T₀ e x v [entry] v' T' := by
  obtain ⟨name, write⟩ := entry
  cases hname : e.field? name with
  | some g =>
    simp only [revise, hname]
    exact goes_reviseField hT hv hname write
  | none =>
    simp only [revise, hname]
    refine .after hT (still_ofExcept _) fun r hr => ?_
    have hr := Option.elim_ok_eq_ok.1 hr
    cases write with
    | literal literal => exact .throw hT
    | update op => exact .throw hT
    | relation write =>
      rw [Schema.parentCreation_relation hr]
      rw [Schema.fieldParts_relation hr, List.forall_mem_cons] at hparts
      cases howning : r.isOwning with
      | true => exact goes_reviseOwner hT hv he hT₀ hname hr howning write hparts.1 hparts.2
      | false =>
        refine .pure hT (.unchanged hv fun f => ?_)
        simp [Entity.Sets, hname, hr, howning]

end

theorem goes_reviseAll (he : c.schema.entity? e.name = some e) {fields : List (String × FieldWrite)}
    (hT : c.Writing T) (hT₀ : c.Retains T₀ T) (hT₀' : c.Writing T₀) (hv : v.Tracks x)
    (hparts : ∀ p ∈ c.schema.fieldsParts e fields, c.Flows p) :
    c.Goes T (c.schema.parentCreations e fields) (fields.foldlM (revise c.schema e) v)
      fun v' T' => c.Revises T₀ e x v fields v' T' := by
  induction fields generalizing T v with
  | nil =>
    rw [Schema.parentCreations]
    exact .pure hT ⟨hv, fun _ => .nil⟩
  | cons entry rest ih =>
    rw [Schema.fieldsParts] at hparts
    rw [Schema.parentCreations, List.foldlM_cons]
    refine .bind hT (goes_revise hT hv he hT₀ entry fun p hp =>
      hparts p (List.mem_append_left _ hp)) fun v₁ T₁ hT₁ hTT₁ hone => ?_
    refine .mono_later (ih hT₁ (hT₀.trans hT₀'.holds hT.holds hT₁.holds hTT₁) hone.tracks fun p hp =>
      hparts p (List.mem_append_right _ hp)) fun v₂ T₂ hT₂ hT₁T₂ hrest => ?_
    -- What the first entry linked to is still known when the others are done.
    refine ⟨hrest.tracks, fun f => ?_⟩
    exact ((hone.written f).mono fun _ _ _ hlinks => hlinks.later hT₁ hT₂ hT₁T₂).append
      (hrest.written f)

theorem still_stamp (e : Entity) (v : Revision) : Still T (stamp e v) (v.Stamped e) := by
  refine Keeps.bind (still_touch e v.row) fun stamped hstamped => Keeps.pure ?_
  obtain ⟨time, hstamped⟩ := hstamped
  refine ⟨time, fun f => ?_⟩
  have hkept := e.mem_kept v.written f
  rw [Row.value, Row.get?_foldl_write FieldDef.name v.row.value]
  by_cases hf : f ∈ e.stamps ∧ f ∈ v.written
  · rw [if_pos (hkept.2 hf), if_neg fun h => h.2 hf.2]
    rfl
  · rw [if_neg (mt hkept.1 hf)]
    rw [← Row.value, hstamped]
    by_cases hstamp : f ∈ e.stamps
    · rw [if_pos hstamp, if_pos ⟨hstamp, fun hwritten => hf ⟨hstamp, hwritten⟩⟩]
    · rw [if_neg hstamp, if_neg fun h => hstamp h.1]

end Operation

/-! ### The row that is updated -/

namespace Schema
variable (s : Schema) (vouched : String → Relation → Prop) (fluid narrow : String → String → Prop)
  (before after : Tables) (e : Entity)

/-- The row `y` is the row `x` with the write data applied: under its key, with what was written to each
field, or the time of that, or else what it had. -/
structure Applied (data : WriteData) (x y : Row) : Prop where
  key : e.keyOf y = e.keyOf x
  value : ∀ f, ¬ narrow e.name f →
    ∃ w, e.RevisesAll (s.Links fluid before after) x f data.fields none w ∧
      match w with
      | some v => y.value f = v
      | none => if f ∈ e.stamps then ∃ time, y.value f = .datetime time else y.value f = x.value f

/-- The guarded foreign keys that the write data set in the row reference rows. -/
def Settles (data : WriteData) (y : Row) : Prop :=
  ∀ r, s.Guarded vouched fluid e r →
    (∃ f ∈ r.near, ∃ entry ∈ data.fields, e.Sets f entry) → ¬ after.Dangles r y

/-- Every row but those of the entity that are given is as before, in fields that may not change. -/
def Spares (rows : List Row) : Prop :=
  ∀ b, s.entity? b.name = some b → ∀ z, before.Has b.name z →
    (b.name = e.name → ∀ x ∈ rows, compare (e.keyOf x) (e.keyOf z) ≠ .eq) →
      ∃ y, after.Has b.name y ∧ b.Becomes (narrow b.name) z y

/-- What has become of the rows that were updated, and of the others. -/
structure Updated (data : WriteData) (rows : List Row) : Prop where
  applied : ∀ x ∈ rows, ∃ y, after.Has e.name y ∧
    s.Applied fluid narrow before after e data x y ∧ s.Settles vouched fluid after e data y
  spared : s.Spares narrow before after e rows

variable {s vouched fluid narrow before after e}

theorem Updated.mono {wider : String → String → Prop} {data : WriteData} {rows : List Row}
    (h : s.Updated vouched fluid narrow before after e data rows) (hle : ∀ n f, narrow n f → wider n f) :
    s.Updated vouched fluid wider before after e data rows where
  applied x hx := by
    obtain ⟨y, hy, happlied, hsettled⟩ := h.applied x hx
    exact ⟨y, hy, ⟨happlied.key, fun f hf => happlied.value f (mt (hle e.name f) hf)⟩, hsettled⟩
  spared b hb z hz hne := by
    obtain ⟨y, hy, hkey, hsame⟩ := h.spared b hb z hz hne
    exact ⟨y, hy, hkey, fun f hf => hsame f (mt (hle b.name f) hf)⟩

theorem Applied.of_plain {before' after' : Tables} {data : WriteData} {x y : Row}
    (h : s.Applied fluid narrow before after e data x y) (hplain : data.writesRelations = false) :
    s.Applied fluid narrow before' after' e data x y where
  key := h.key
  value f hf := by
    obtain ⟨w, hw, hvalue⟩ := h.value f hf
    exact ⟨w, hw.of_plain hplain, hvalue⟩

/-- Rows of distinct keys are updated one after the other, with data that change no further row. -/
theorem Updated.cons {κ : String → String → NumberClass} {mid : Tables} {data : WriteData} {x : Row}
    {rest : List Row} (hs : s.Resolved) (hkinds : s.KeysOfKinds) (he : s.entity? e.name = some e)
    (hplain : data.writesRelations = false) (hmid : s.Holds κ mid) (hafter : s.Holds κ after)
    (hretains : s.Retains fluid mid after)
    (hapart : ∀ x' ∈ rest, compare (e.keyOf x) (e.keyOf x') ≠ .eq)
    (hone : s.Updated vouched fluid (fun _ _ => False) before mid e data [x])
    (hothers : s.Updated vouched fluid (fun _ _ => False) mid after e data rest) :
    s.Updated vouched fluid (fun _ _ => False) before after e data (x :: rest) := by
  refine ⟨List.forall_mem_cons.2 ⟨?first, fun x' hx' => ?other⟩, fun b hb z hz hne => ?spared⟩
  case first =>
    -- The first row is none of the others, so it stays what it has become.
    obtain ⟨y, hy, hdone, hsettled⟩ := hone.applied x List.mem_cons_self
    obtain ⟨z, hz, -, hsame⟩ := hothers.spared e he y hy fun _ x' hx' heq => by
      rw [hdone.key] at heq
      exact hapart x' hx' (Std.OrientedCmp.eq_symm heq)
    have hkey : e.keyOf z = e.keyOf y := Key.ofRow_eq fun f _ => hsame f id
    refine ⟨z, hz, ⟨hkey.trans hdone.key, fun f hf => ?_⟩, fun r hguarded hsets hdangles => ?_⟩
    · obtain ⟨w, hw, hvalue⟩ := (hdone.of_plain hplain).value f hf
      exact ⟨w, hw, by rw [hsame f id]; exact hvalue⟩
    · refine hsettled r hguarded hsets ?_
      exact hretains.dangles hs hkinds he hmid hafter hguarded.owning hguarded.anchored
        (hmid.within hy) (hdangles.congr (Key.ofRow_eq fun f _ => hsame f id))
  case other =>
    obtain ⟨y, hy, happlied, hsettled⟩ := hothers.applied x' hx'
    exact ⟨y, hy, happlied.of_plain hplain, hsettled⟩
  case spared =>
    obtain ⟨z₁, hz₁, -, hsame₁⟩ := hone.spared b hb z hz fun hname x' hx' =>
      List.mem_singleton.1 hx' ▸ hne hname x List.mem_cons_self
    have hkey₁ : b.keyOf z₁ = b.keyOf z := Key.ofRow_eq fun f _ => hsame₁ f id
    obtain ⟨z₂, hz₂, -, hsame₂⟩ := hothers.spared b hb z₁ hz₁ fun hname x' hx' => by
      obtain rfl := Schema.entity_inj hb he hname
      rw [hkey₁]
      exact hne hname x' (List.mem_cons_of_mem x hx')
    refine ⟨z₂, hz₂, ?_, fun f hf => (hsame₂ f hf).trans (hsame₁ f hf)⟩
    rw [show b.keyOf z₂ = b.keyOf z₁ from Key.ofRow_eq fun f _ => hsame₂ f id, hkey₁]
    exact Std.ReflOrd.compare_self

end Schema

/-- The same, where fewer fields may change. -/
def Course.narrowed (c : Course) (narrow : String → String → Prop)
    (h : c.schema.Admissible narrow) (first : Tables) : Course :=
  { c with fluid := narrow, first, admissible := h }

/-- The phases of an update: the row is revised, checked, stamped and put back, and then the rows that
reference it are written to. What is created and connected on the way changes few fields of the rows
that are there. -/
structure Course.Phases (c : Course) (narrow : String → String → Prop) (T T₁ T₂ T₃ : Tables)
    (e : Entity) (data : WriteData) (x : Row) (v : Revision) (next : Row) : Prop where
  writing : c.Writing T₁
  revised : c.Revises T e x ⟨x, []⟩ data.fields v T₁
  parents : c.schema.Retains narrow T T₁
  checked : ∀ r, c.schema.Checkable e r → (∃ f ∈ r.near, f ∈ v.written) → ¬ T₁.Dangles r v.row
  stamped : v.Stamped e next
  put : c.Writing T₂
  stored : e.Stores next T₁ T₂
  retained : c.Retains T₁ T₂
  done : c.Writing T₃
  children : c.schema.Writing c.classes c.vouched narrow T₂ T₃
  spared : c.schema.Retains narrow T₂ T₃
  later : c.Retains T₂ T₃

namespace Course.Phases
variable {c : Course} {narrow : String → String → Prop} {T T₁ T₂ T₃ : Tables} {e : Entity}
  {data : WriteData} {x next y : Row} {v : Revision}
  (h : c.Phases narrow T T₁ T₂ T₃ e data x v next) (hle : ∀ n f, narrow n f → c.fluid n f)
  (he : c.schema.entity? e.name = some e) (hsteady : c.schema.Steady c.fluid)
  (hkey : e.keyOf next = e.keyOf x)
include h hle he hsteady hkey

theorem applied (hy : T₃.Has e.name y) (hfound : compare (e.keyOf x) (e.keyOf y) = .eq) :
    c.schema.Applied c.fluid narrow T T₃ e data x y := by
  have hsteady' := hsteady.mono hle
  obtain ⟨y', hy', -, hsame⟩ := h.spared e he next h.stored.has
  have hkey' : e.keyOf y' = e.keyOf x := (hsteady'.keyOf_eq he hsame).trans hkey
  obtain rfl : y = y' := by
    refine h.done.holds.eq_of_keyOf he hy hy' ?_
    rw [hkey']
    exact Std.OrientedCmp.eq_symm hfound
  refine ⟨hkey', fun f hf => ⟨v.written? f, ?_, ?_⟩⟩
  · have hlater := h.retained.trans h.writing.holds h.put.holds h.done.holds h.later
    exact (h.revised.written f).mono fun r write parent hlinks =>
      (hlinks.later h.writing h.done hlater).links
  · obtain ⟨time, hnext⟩ := h.stamped
    rw [hsame f hf, hnext, Revision.written?]
    by_cases hwritten : f ∈ v.written
    · simp only [hwritten, not_true_eq_false, and_false, if_false, if_true]
    · by_cases hstamp : f ∈ e.stamps
      · simp only [hstamp, hwritten, not_false_eq_true, and_self, if_true, if_false]
        exact ⟨time, rfl⟩
      · simp only [hstamp, hwritten, false_and, if_false]
        exact h.revised.tracks f hwritten

theorem settles (hy : T₃.Has e.name y) (hkey' : e.keyOf y = e.keyOf x) :
    c.schema.Settles c.vouched c.fluid T₃ e data y := by
  intro r hguarded hsets
  have hsound : ¬ T₁.Dangles r next := by
    obtain ⟨f, hf, hsets⟩ := hsets
    have hwritten : ∃ f ∈ r.near, f ∈ v.written := ⟨f, hf, h.revised.mem_written hsets⟩
    exact fun hdangles => h.checked r hguarded.toCheckable hwritten
      (hdangles.congr (h.stamped.ofRow_near hguarded.toCheckable))
  -- The key was checked, and neither putting the row back nor what comes after it undoes that.
  refine h.children.sound (hsteady.mono hle) h.put.holds he (hguarded.mono hle) h.stored.has
    (fun hdangles => hsound ?_) hy (hkey'.trans hkey.symm)
  exact h.retained.dangles c.resolved c.kinds he h.writing.holds h.put.holds hguarded.owning
    hguarded.anchored (h.put.holds.within h.stored.has) hdangles

theorem spares : c.schema.Spares narrow T T₃ e [x] := by
  have hsteady' := hsteady.mono hle
  intro b hb z hz hne
  obtain ⟨z₁, hz₁, -, hsame₁⟩ := h.parents b hb z hz
  have hz₂ : T₂.Has b.name z₁ := by
    refine (h.stored b.name z₁).2 (.inr ⟨hz₁, fun hname => ?_⟩)
    obtain rfl := Schema.entity_inj hb he hname
    rw [hkey, hsteady'.keyOf_eq hb hsame₁]
    exact hne hname x List.mem_cons_self
  obtain ⟨z₃, hz₃, -, hsame₃⟩ := h.spared b hb z₁ hz₂
  refine ⟨z₃, hz₃, ?_, fun f hf => (hsame₃ f hf).trans (hsame₁ f hf)⟩
  rw [hsteady'.keyOf_eq hb hsame₃, hsteady'.keyOf_eq hb hsame₁]
  exact Std.ReflOrd.compare_self

theorem updated (hy : T₃.Has e.name y) (hfound : compare (e.keyOf x) (e.keyOf y) = .eq) :
    e.keyOf y = e.keyOf x ∧ c.schema.Updated c.vouched c.fluid narrow T T₃ e data [x] := by
  have happlied := h.applied hle he hsteady hkey hy hfound
  have hsettled := h.settles hle he hsteady hkey hy happlied.key
  exact ⟨happlied.key, List.forall_mem_singleton.2 ⟨y, hy, happlied, hsettled⟩,
    h.spares hle he hsteady hkey⟩

end Course.Phases

namespace Operation
variable {c : Course} {T : Tables} {e : Entity} {x : Row} {narrow : String → String → Prop}

/-- What was revised and checked may be put back. -/
theorem storable_of_checked (he : c.schema.entity? e.name = some e) (hx : c.Known T e x)
    {v : Revision} (hv : v.Tracks x) {next : Row} (hnext : v.Stamped e next)
    (hrow : next.Within (c.classes e.name))
    (hlasting : ∀ f, ¬ c.fluid e.name f → next.value f = x.value f)
    (hchecked : ∀ r, c.schema.Checkable e r → (∃ f ∈ r.near, f ∈ v.written) → ¬ T.Dangles r v.row) :
    c.Storable T e next := by
  refine hx.storable he hrow hlasting fun r hguarded => ?_
  by_cases hwritten : ∃ f ∈ r.near, f ∈ v.written
  · exact .inr fun hdangles => hchecked r hguarded.toCheckable hwritten
      (hdangles.congr (hnext.ofRow_near hguarded.toCheckable))
  · refine .inl fun f hf => (hnext.value_eq (hguarded.unstamped f hf)).trans ?_
    exact hv f fun hmem => hwritten ⟨f, hf, hmem⟩

section
variable {fields : List (String × FieldWrite)}
  (hnarrow : c.schema.Admissible narrow) (hle : ∀ n f, narrow n f → c.fluid n f)
  (he : c.schema.entity? e.name = some e)
  (hparts : ∀ p ∈ c.schema.fieldsParts e fields, c.schema.Flows c.vouched narrow p)
include hnarrow hle he hparts

/- The parts that write to other rows run twice: once where all that the update changes may change, and
   once where only what they rewrite themselves may. -/

theorem goes_reviseRow (hT : c.Writing T) (hx : c.Known T e x) :
    c.Goes T (c.schema.parentCreations e fields) (fields.foldlM (revise c.schema e) ⟨x, []⟩)
      fun v T' => (c.Revises T e x ⟨x, []⟩ fields v T' ∧ c.Obeys e.name v.row) ∧
        c.schema.Retains narrow T T' := by
  have hV := c.schema.admits_within c.resolved c.kinds hT.holds.classes
  have hobeys : c.Obeys e.name x := hx.within
  have htracks : Revision.Tracks ⟨x, []⟩ x := fun _ _ => rfl
  have hall := (goes_reviseAll he hT (.refl _ _ T) hT htracks fun p hp =>
    (hparts p hp).mono hle).obeys hT
    (Keeps.foldlM (Q := fun v : Revision => c.Obeys e.name v.row) hobeys fun v hv entry _ =>
      upholds_revise c.resolved hV (upholds_holds c) he hv entry)
  have hfew := goes_reviseAll (c := c.narrowed narrow hnarrow T) he (.start hT.holds)
    (Schema.Retains.refl _ _ T) (.start hT.holds) htracks hparts
  exact hall.with_triple hfew (fun _ h => h) fun _ _ h => h.2.1.retains

theorem goes_reviseChildren (hT : c.Writing T) (hx : T.Has e.name x) :
    c.Goes T (c.schema.childCreations e fields) (createChildren c.schema e x fields) fun _ T' =>
      c.schema.Writing c.classes c.vouched narrow T T' ∧ c.schema.Retains narrow T T' := by
  have hall := goes_createChildren he hT (hT.known he hx) fields fun p hp =>
    (hparts p hp).mono hle
  have hfew := goes_createChildren (c := c.narrowed narrow hnarrow T) he (.start hT.holds)
    (Schema.Writing.known (.start hT.holds) he hx) fields hparts
  have hboth := hall.with_triple (R := fun _ T' =>
    c.schema.Writing c.classes c.vouched narrow T T' ∧ c.schema.Retains narrow T T') hfew (fun _ h => h)
    fun _ _ h => ⟨h.1, h.2.1.retains⟩
  exact hboth.mono fun _ _ h => h.2

end

/-- Updating a row. Where no key may change it is that row that is given back. -/
theorem goes_update (hnarrow : c.schema.Admissible narrow) (hle : ∀ n f, narrow n f → c.fluid n f)
    (he : c.schema.entity? e.name = some e) (hT : c.Writing T) (hx : c.Known T e x)
    {data : WriteData}
    (hparts : ∀ p ∈ c.schema.parts e data, c.schema.Flows c.vouched narrow p)
    (hfluid : ∀ f, e.Names data f ∨ c.schema.Stamps e.name f → c.fluid e.name f) :
    c.Goes T (c.schema.revisionCreations e data) (update c.schema e data x) fun y T' =>
      T'.Has e.name y ∧ (c.schema.Steady c.fluid → e.keyOf y = e.keyOf x ∧
        c.schema.Updated c.vouched c.fluid narrow T T' e data [x]) := by
  obtain ⟨fields⟩ := data
  rw [Schema.parts] at hparts
  have hV := c.schema.admits_within c.resolved c.kinds hT.holds.classes
  refine .bind hT (goes_reviseRow hnarrow hle he hparts hT hx) fun v T₁ hT₁ hTT₁ hv => ?_
  obtain ⟨⟨hrevises, hrow⟩, hparents⟩ := hv
  refine .after hT₁ (still_checkForeignKeys c.resolved c.kinds hT₁.holds he hrow _)
    fun _ hchecked => ?_
  refine .after hT₁ ((still_stamp e v).obeys hT₁.holds (upholds_stamp hV he hrow))
    fun next hnext => ?_
  obtain ⟨hnext, hnextrow⟩ := hnext
  -- The row that is put back has a row under it that agrees in all that may not change.
  have hlasting (f : String) (hf : ¬ c.fluid e.name f) : next.value f = x.value f :=
    hrevises.lasting hnext (fun h => hf (hfluid f (.inl h))) fun h => hf (hfluid f (.inr ⟨e, he, h⟩))
  have hknown := hx.later c.resolved c.kinds he hT.holds hT₁.holds hTT₁
  have hstorable := storable_of_checked he hknown hrevises.tracks hnext hnextrow hlasting hchecked
  obtain ⟨z, hz, -, hthere⟩ := hknown.there
  refine .begin hT₁ (.discard hT₁ (goes_putRow hT₁ he hstorable
    ⟨z, hz, fun f hf => (hlasting f hf).trans (hthere f hf).symm⟩)) fun _ T₂ hT₂ hT₁T₂ hstores => ?_
  obtain ⟨-, hstores⟩ := hstores
  refine .after hT₂ (still_note e .update _) fun _ _ => ?_
  refine .last hT₂ (goes_reviseChildren hnarrow hle he hparts hT₂ hstores.has)
    fun _ T₃ hT₃ hT₂T₃ hchildren => ?_
  refine .still hT₃ (still_reread c.schema e (e.keyOf x)) fun y hy => ?_
  obtain ⟨tx, hy⟩ := hy
  obtain ⟨hy, hfound⟩ := (hT₃.holds.row?_iff he hy hx.within.fits.key).1 rfl
  have hphases : c.Phases narrow T T₁ T₂ T₃ e ⟨fields⟩ x v next :=
    ⟨hT₁, hrevises, hparents, hchecked, hnext, hT₂, hstores, hT₁T₂, hT₃, hchildren.1,
      hchildren.2, hT₂T₃⟩
  exact ⟨hy, fun hsteady =>
    hphases.updated hle he hsteady (hsteady.keyOf_eq he hlasting) hy hfound⟩

end Operation

/-! ### Many rows -/

namespace Operation
variable {c : Course} {T : Tables} {e : Entity}

/-- Rows that are updated by data that write to no relation, one after the other. -/
theorem goes_updateEach (he : c.schema.entity? e.name = some e) {data : WriteData}
    (hplain : data.writesRelations = false)
    (hfluid : ∀ f, e.Names data f ∨ c.schema.Stamps e.name f → c.fluid e.name f) {rows : List Row}
    (hdistinct : rows.Pairwise fun x y => compare (e.keyOf x) (e.keyOf y) ≠ .eq)
    (hT : c.Writing T) (hrows : ∀ x ∈ rows, c.Known T e x) :
    c.Goes T [] (rows.forM fun row => discard (update c.schema e data row)) fun _ T' =>
      c.schema.Steady c.fluid →
        c.schema.Updated c.vouched c.fluid (fun _ _ => False) T T' e data rows := by
  have hparts : ∀ p ∈ c.schema.parts e data, c.schema.Flows c.vouched (fun _ _ => False) p := by
    simp [Schema.parts_of_plain hplain]
  have hnone : c.schema.Admissible fun _ _ => False := .inl fun _ _ _ _ h => h
  induction rows generalizing T with
  | nil =>
    refine .pure hT fun _ => ⟨by simp, fun b _ z hz _ => ⟨z, hz, .refl b _ z⟩⟩
  | cons x rest ih =>
    obtain ⟨hapart, hdistinct⟩ := List.pairwise_cons.1 hdistinct
    have hupdate := goes_update hnone (fun _ _ h => h.elim) he hT (hrows x List.mem_cons_self) hparts
      hfluid
    rw [Schema.revisionCreations_of_plain hplain] at hupdate
    refine .begin hT (.discard hT hupdate) fun _ T₁ hT₁ hTT₁ hone => ?_
    refine .mono_later (ih hdistinct hT₁ fun x' hx' => (hrows x' (List.mem_cons_of_mem x hx')).later
      c.resolved c.kinds he hT.holds hT₁.holds hTT₁) fun _ T₂ hT₂ hT₁T₂ hothers hsteady => ?_
    obtain ⟨_, -, hone⟩ := hone
    exact (hone hsteady).2.cons c.resolved c.kinds he hplain hT₁.holds hT₂.holds hT₁T₂ hapart
      (hothers hsteady)

end Operation

end RelationalStore

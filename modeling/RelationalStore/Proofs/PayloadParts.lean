import RelationalStore.Engine.Request
import RelationalStore.Proofs.SchemaResolution

/- What a payload can rewrite, found without a look at any row. The writes through relations, at
   every depth of the write data, are listed in the order of the payload (`Schema.parts`). Of the
   rows that are there already, the writes that connect or let go rewrite the foreign key and the
   times of the last write (`Schema.Relinks`); an update rewrites besides what it names in its own
   rows (`Schema.Rewrites`). Every other field of every row is left alone. -/
namespace RelationalStore

namespace Entity
variable {e : Entity}

/-- The names under which write data write to fields. -/
def writtenFields (e : Entity) (fields : List (String × FieldWrite)) : List String :=
  (fields.map (·.1)).filter fun name => (e.field? name).isSome

theorem writtenFields_cons (entry : String × FieldWrite) (rest : List (String × FieldWrite)) :
    e.writtenFields (entry :: rest) = e.writtenFields [entry] ++ e.writtenFields rest := by
  simp only [writtenFields, List.map_cons, List.map_nil, ← List.filter_append]
  rfl

theorem writtenFields_relation {name : String} (h : e.field? name = none) (write : FieldWrite) :
    e.writtenFields [(name, write)] = [] := by
  simp [writtenFields, h]

end Entity

/-- A write through a relation of the rows of an entity. -/
structure PayloadPart where
  owner : String
  relation : Relation
  write : NestedWrite

namespace Schema
variable (s : Schema)

/-! ### Writes through relations -/

mutual

/-- The writes through relations in write data. -/
def parts (e : Entity) : WriteData → List PayloadPart
  | ⟨fields⟩ => fieldsParts e fields

def fieldsParts (e : Entity) : List (String × FieldWrite) → List PayloadPart
  | [] => []
  | (name, write) :: rest => fieldParts e name write ++ fieldsParts e rest

def fieldParts (e : Entity) (name : String) : FieldWrite → List PayloadPart
  | .literal _ => []
  | .update _ => []
  | .relation write =>
    match e.relation? name with
    | some r => ⟨e.name, r, write⟩ :: nestedParts r write
    | none => []

def nestedParts (r : Relation) : NestedWrite → List PayloadPart
  | ⟨create, _, _, createMany, _⟩ =>
    match s.entity? r.target with
    | some t => rowsParts t create ++ batchParts t createMany
    | none => []

def batchParts (e : Entity) : Option CreateMany → List PayloadPart
  | none => []
  | some batch => createManyParts e batch

def createManyParts (e : Entity) : CreateMany → List PayloadPart
  | ⟨data, _⟩ => rowsParts e data

def rowsParts (e : Entity) : List WriteData → List PayloadPart
  | [] => []
  | data :: rest => parts e data ++ rowsParts e rest

end

variable {s} {e : Entity}

theorem fieldParts_relation {name : String} {r : Relation} (hr : e.relation? name = some r)
    (write : NestedWrite) :
    s.fieldParts e name (.relation write) = ⟨e.name, r, write⟩ :: s.nestedParts r write := by
  rw [fieldParts.eq_def]
  simp only [hr]

theorem nestedParts_of_entity {r : Relation} {t : Entity} (ht : s.entity? r.target = some t)
    (write : NestedWrite) :
    s.nestedParts r write = s.rowsParts t write.create ++ s.batchParts t write.createMany := by
  obtain ⟨create, connect, connectOrCreate, createMany, disconnect⟩ := write
  rw [nestedParts.eq_def]
  simp only [ht]

/-- Data that write to no relation have no parts. -/
theorem parts_of_plain {data : WriteData} (hplain : data.writesRelations = false) :
    s.parts e data = [] := by
  obtain ⟨fields⟩ := data
  rw [WriteData.writesRelations] at hplain
  rw [parts]
  induction fields with
  | nil => rw [fieldsParts]
  | cons entry rest ih =>
    obtain ⟨name, write⟩ := entry
    rw [List.any_cons, Bool.or_eq_false_iff] at hplain
    rw [fieldsParts, ih hplain.2, List.append_nil]
    cases write with
    | literal literal => rw [fieldParts]
    | update op => rw [fieldParts]
    | relation write => cases hplain.1

end Schema

/-! ### Rows that are made -/

namespace Schema
variable (s : Schema)

mutual

/-- The tables in which creating a row makes rows, in the order in which they are made: those that it
references, the row itself, and those that reference it. A row that may be left out, where it would
violate a unique constraint, is marked. -/
def creations (e : Entity) : WriteData → List (String × Bool)
  | ⟨fields⟩ => parentCreations e fields ++ (e.name, false) :: childCreations e fields

/-- The tables of the rows that are made to be referenced. -/
def parentCreations (e : Entity) : List (String × FieldWrite) → List (String × Bool)
  | [] => []
  | (name, write) :: rest => parentCreation e name write ++ parentCreations e rest

def parentCreation (e : Entity) (name : String) : FieldWrite → List (String × Bool)
  | .literal _ => []
  | .update _ => []
  | .relation write =>
    match e.relation? name with
    | some r => if r.isOwning then ownerCreations r write else []
    | none => []

/-- Nothing is made where the key is cleared. -/
def ownerCreations (r : Relation) : NestedWrite → List (String × Bool)
  | ⟨create, _, _, _, released⟩ =>
    match released, s.entity? r.target with
    | some (.flag true), _ => []
    | _, some t => allCreations t create
    | _, none => []

/-- The tables of the rows that are made to reference the row. -/
def childCreations (e : Entity) : List (String × FieldWrite) → List (String × Bool)
  | [] => []
  | (name, write) :: rest => childCreation e name write ++ childCreations e rest

def childCreation (e : Entity) (name : String) : FieldWrite → List (String × Bool)
  | .literal _ => []
  | .update _ => []
  | .relation write =>
    match e.relation? name with
    | some r => if r.isOwning then [] else nestedCreations r write
    | none => []

def nestedCreations (r : Relation) : NestedWrite → List (String × Bool)
  | ⟨create, _, _, createMany, _⟩ =>
    match s.entity? r.target with
    | some t => allCreations t create ++ batchCreations t createMany
    | none => []

def allCreations (e : Entity) : List WriteData → List (String × Bool)
  | [] => []
  | data :: rest => creations e data ++ allCreations e rest

/-- The rows of a batch are made alone. -/
def batchCreations (e : Entity) : Option CreateMany → List (String × Bool)
  | none => []
  | some ⟨data, skip⟩ => data.map fun _ => (e.name, skip)

end

/-- The tables in which updating a row with the data makes rows. -/
def revisionCreations (e : Entity) (data : WriteData) : List (String × Bool) :=
  s.parentCreations e data.fields ++ s.childCreations e data.fields

variable {s} {e : Entity} {r : Relation}

theorem parentCreation_relation {name : String} (hr : e.relation? name = some r)
    (write : NestedWrite) : s.parentCreation e name (.relation write) =
      if r.isOwning then s.ownerCreations r write else [] := by
  rw [parentCreation.eq_def]
  simp only [hr]

theorem childCreation_relation {name : String} (hr : e.relation? name = some r)
    (write : NestedWrite) : s.childCreation e name (.relation write) =
      if r.isOwning then [] else s.nestedCreations r write := by
  rw [childCreation.eq_def]
  simp only [hr]

theorem ownerCreations_of_kept {t : Entity} (ht : s.entity? r.target = some t) {write : NestedWrite}
    (hkept : write.disconnect ≠ some (.flag true)) :
    s.ownerCreations r write = s.allCreations t write.create := by
  obtain ⟨create, connect, connectOrCreate, createMany, released⟩ := write
  rw [ownerCreations.eq_def]
  simp only [ht]

theorem nestedCreations_of_entity {t : Entity} (ht : s.entity? r.target = some t)
    (write : NestedWrite) : s.nestedCreations r write =
      s.allCreations t write.create ++ s.batchCreations t write.createMany := by
  obtain ⟨create, connect, connectOrCreate, createMany, released⟩ := write
  rw [nestedCreations.eq_def]
  simp only [ht]

/-- A row that is created alone is the only one. -/
theorem creations_of_plain {data : WriteData} (hplain : data.writesRelations = false) :
    s.parentCreations e data.fields = [] ∧ s.childCreations e data.fields = [] := by
  obtain ⟨fields⟩ := data
  rw [WriteData.writesRelations] at hplain
  induction fields with
  | nil => exact ⟨by rw [parentCreations], by rw [childCreations]⟩
  | cons entry rest ih =>
    obtain ⟨name, write⟩ := entry
    rw [List.any_cons, Bool.or_eq_false_iff] at hplain
    obtain ⟨hparents, hchildren⟩ := ih hplain.2
    rw [parentCreations, childCreations, hparents, hchildren]
    cases write with
    | literal literal => exact ⟨by rw [parentCreation]; rfl, by rw [childCreation]; rfl⟩
    | update op => exact ⟨by rw [parentCreation]; rfl, by rw [childCreation]; rfl⟩
    | relation write => cases hplain.1

theorem revisionCreations_of_plain {data : WriteData} (hplain : data.writesRelations = false) :
    s.revisionCreations e data = [] := by
  obtain ⟨hparents, hchildren⟩ := creations_of_plain (s := s) (e := e) hplain
  rw [revisionCreations, hparents, hchildren, List.append_nil]

end Schema

/-- The keys are those of the rows that were to be made, less some of those that might be left out. -/
inductive Fulfils : List (String × Key) → List (String × Bool) → Prop
  | nil : Fulfils [] []
  | made {made : List (String × Key)} {plan : List (String × Bool)} (n : String) (k : Key) (skip : Bool)
      (h : Fulfils made plan) : Fulfils ((n, k) :: made) ((n, skip) :: plan)
  | skipped {made : List (String × Key)} {plan : List (String × Bool)} (n : String)
      (h : Fulfils made plan) : Fulfils made ((n, true) :: plan)

namespace Fulfils
variable {made more : List (String × Key)} {plan later : List (String × Bool)}

/-- Any of the rows might be left out. -/
def loosen (plan : List (String × Bool)) : List (String × Bool) := plan.map fun p => (p.1, true)

theorem append (h : Fulfils made plan) (h' : Fulfils more later) :
    Fulfils (made ++ more) (plan ++ later) := by
  induction h with
  | nil => exact h'
  | made n k skip _ ih => exact .made n k skip ih
  | skipped n _ ih => exact .skipped n ih

theorem loose (h : Fulfils made plan) : Fulfils made (loosen plan) := by
  induction h with
  | nil => exact .nil
  | made n k skip _ ih => exact .made n k true ih
  | skipped n _ ih => exact .skipped n ih

theorem none (plan : List (String × Bool)) : Fulfils [] (loosen plan) := by
  induction plan with
  | nil => exact .nil
  | cons p plan ih => exact .skipped p.1 ih

/-- What failed is a part of a longer plan that failed with it. -/
theorem loose_append (h : Fulfils made (loosen plan)) (later : List (String × Bool)) :
    Fulfils made (loosen (plan ++ later)) := by
  have happend := h.append (none later)
  rwa [List.append_nil, loosen, loosen, ← List.map_append] at happend

end Fulfils

/-! ### What is rewritten -/

/-- The fields with the time of the last write. -/
def Entity.stamps (e : Entity) : List String := (e.fields.filter (·.updatedAt)).map (·.name)

/-- An update writes the field of its row, by name or as a part of a foreign key. -/
def Entity.Names (e : Entity) (data : WriteData) (f : String) : Prop :=
  ∃ entry ∈ data.fields, entry.1 = f ∨
    ∃ r ∈ e.relation? entry.1, r.isOwning = true ∧ f ∈ r.near

namespace Schema
variable (s : Schema)

/-- The field has the time of the last write. -/
def Stamps (n f : String) : Prop := ∃ e ∈ s.entity? n, f ∈ e.stamps

/-- A write through a relation rewrites the field in rows of the table that are there: it connects
them or lets them go, which sets the foreign key that they hold. -/
def Relinks (p : PayloadPart) (n f : String) : Prop :=
  p.relation.isOwning = false ∧
    (p.write.connect.isEmpty = false ∨ p.write.disconnect.isSome = true) ∧
      n = p.relation.target ∧ (f ∈ p.relation.far ∨ s.Stamps n f)

/-- Writes through relations in the data rewrite the field in rows of the table that are there. -/
def RelinksIn (e : Entity) (data : WriteData) (n f : String) : Prop :=
  ∃ p ∈ s.parts e data, s.Relinks p n f

/-- A request with the data rewrites the field in rows of the table that are there. -/
def Rewrites (e : Entity) (access : Access) (q : Query) (n f : String) : Prop :=
  ∃ data ∈ q.data.elim [] Data.rows, s.RelinksIn e data n f ∨
    access = .update ∧ n = e.name ∧ (e.Names data f ∨ s.Stamps n f)

/-- The request rewrites no field of a primary key. -/
def KeepsKeys (e : Entity) (access : Access) (q : Query) : Prop :=
  ∀ t ∈ s.entities.values, ∀ f ∈ t.idFields, ¬ s.Rewrites e access q t.name f

instance (n f : String) : Decidable (s.Stamps n f) := by
  unfold Stamps
  infer_instance

instance (p : PayloadPart) (n f : String) : Decidable (s.Relinks p n f) := by
  unfold Relinks
  infer_instance

instance (e : Entity) (data : WriteData) (n f : String) : Decidable (s.RelinksIn e data n f) := by
  unfold RelinksIn
  infer_instance

instance (e : Entity) (data : WriteData) (f : String) : Decidable (e.Names data f) := by
  unfold Entity.Names
  infer_instance

instance (e : Entity) (access : Access) (q : Query) (n f : String) :
    Decidable (s.Rewrites e access q n f) := by
  unfold Rewrites
  infer_instance

instance (e : Entity) (access : Access) (q : Query) : Decidable (s.KeepsKeys e access q) := by
  unfold KeepsKeys
  infer_instance

end Schema

end RelationalStore

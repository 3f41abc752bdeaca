import RelationalStore.Engine.Arithmetic
import RelationalStore.Engine.Create

/- Updating a row under its key. Fields and foreign keys are changed first; then the row is put
   back, and only then the rows that hold a key to it are written to. The primary key cannot be
   changed by writing to its fields. -/
namespace RelationalStore

/-- A row that is being updated, and the fields that were written. -/
structure Revision where
  row : Row
  written : List String := []

namespace Revision

/-- Sets a field. -/
def set (v : Revision) (name : String) (value : Value) : Revision :=
  ⟨v.row.insert name value, name :: v.written⟩

end Revision

namespace Operation

/-- The value that a write gives to a field. -/
def newValue (e : Entity) (f : FieldDef) (current : Value) : FieldWrite → Except Error Value
  | .literal literal => e.coerce f literal
  | .update op => e.change f current op
  | .relation _ => .error (.invalidQuery (.relationWriteOnScalar e.name f.name))

/-- Writes to a field. -/
def reviseField (e : Entity) (f : FieldDef) (v : Revision) (write : FieldWrite) :
    Except Error Revision := do
  if f.id then throw (.immutablePrimaryKey e.name f.name)
  let value ← newValue e f (v.row.value f.name) write
  if value.isNull && f.required then throw (.missingRequiredField e.name f.name)
  return v.set f.name value

/-- Clears a foreign key of the row itself. -/
def release (e : Entity) (r : Relation) (v : Revision) : Except Error Revision :=
  match r.near.find? fun name => (e.field? name).any (·.required) with
  | some name => .error (.invalidValue e.name name (.keyRequired r.name))
  | none => .ok (r.near.foldl (fun v name => v.set name .null) v)

/-- Writes to a relation whose key the row itself holds. Without a row to create or connect, and
nothing to let go, nothing is written. -/
def reviseOwner (s : Schema) (e : Entity) (r : Relation) (v : Revision) (write : NestedWrite) :
    Operation Revision := do
  if write.createMany.isSome then throw (.invalidQuery (.createManyOfOne e.name r.name))
  match write.disconnect with
  | some (.flag true) => MonadExcept.ofExcept (release e r v)
  | some (.records _) => throw (.invalidQuery (.disconnectShape false e.name r.name))
  | _ =>
    if write.create.isEmpty && write.connect.isEmpty then return v
    else
      let parent ← resolveParent s r write
      return ⟨r.linkTo parent v.row, r.near ++ v.written⟩

/-- Writes to a field, or to a relation whose key the row itself holds. -/
def revise (s : Schema) (e : Entity) (v : Revision) (entry : String × FieldWrite) :
    Operation Revision := do
  match e.field? entry.1 with
  | some f => MonadExcept.ofExcept (reviseField e f v entry.2)
  | none =>
    let r ← MonadExcept.ofExcept (e.requireRelation entry.1)
    match entry.2 with
    | .relation write => if r.isOwning then reviseOwner s e r v write else return v
    | _ => throw (.invalidQuery (.scalarWriteOnRelation e.name entry.1))

/-- The row with the current time in every field that each write stamps, except those that were
written themselves. -/
def stamp (e : Entity) (v : Revision) : Operation Row := do
  let stamped ← touch e v.row
  let kept := e.fields.filter fun f => f.updatedAt && v.written.contains f.name
  return kept.foldl (fun row f => row.insert f.name (v.row.value f.name)) stamped

/-- Updates a row and what is related to it. Gives the row as it is stored. -/
def update (s : Schema) (e : Entity) (data : WriteData) (row : Row) : Operation Row := do
  let key := e.keyOf row
  let revision ← data.fields.foldlM (revise s e) ⟨row, []⟩
  checkForeignKeys s e revision.row revision.written
  let next ← stamp e revision
  discard (putRow e next)
  note e .update key
  createChildren s e next data.fields
  reread s e key

end Operation

end RelationalStore

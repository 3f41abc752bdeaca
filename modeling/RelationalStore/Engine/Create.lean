import RelationalStore.Engine.Defaults
import RelationalStore.Engine.Selector

/- Creating rows with what they are related to. A row that holds the key of a relation is written
   after the row it references, which is created or found first; rows that hold a key to it are
   written after it, with that key. A foreign key that is written as a plain value must reference a
   row. -/
namespace RelationalStore

namespace WriteData

/-- Whether anything is written through a relation. -/
def writesRelations (d : WriteData) : Bool :=
  d.fields.any fun
    | (_, .relation _) => true
    | _ => false

end WriteData

namespace Relation

/-- The row with the key that references a parent. -/
def linkTo (r : Relation) (parent row : Row) : Row :=
  (r.near.zip r.far).foldl (fun row (near, far) => row.insert near (parent.value far)) row

/-- The key that the rows at the other end need to reference a parent. -/
def childLink (r : Relation) (parent : Row) : Row :=
  .ofList ((r.far.zip r.near).map fun (far, near) => (far, parent.value near))

end Relation

namespace Operation

/-- Fails unless every foreign key with a part among the written fields references a row. -/
def checkForeignKeys (s : Schema) (e : Entity) (row : Row) (written : List String) :
    Operation Unit :=
  e.owningRelations.forM fun r => do
    let key := Key.ofRow r.near row
    if r.near.any written.contains && !key.hasNull then
      let target ← MonadExcept.ofExcept (s.require r.target)
      let rows ← look s fun v => v.rowsWhere target r.far key
      if rows.isEmpty then
        throw (.foreignKeyViolation e.name (", ".intercalate r.near) target.name)

/-- The row under a key, which is there. -/
def reread (s : Schema) (e : Entity) (key : Key) : Operation Row := do
  match ← look s fun v => v.row? e key with
  | some row => return row
  | none => throw (.recordNotFound e.name)

/-- The one row that is to be connected through a relation. -/
def findToConnect (s : Schema) (r : Relation) (target : Entity) (selector : Filter) :
    Operation Row := do
  match ← look s fun v => v.findUnique target selector with
  | some row => return row
  | none => throw (.relatedRecordNotFound target.name r.name)

/-! ### Rows that reference a parent -/

/-- Clears the foreign key of a row. -/
def unlink (r : Relation) (target : Entity) (child : Row) : Operation Unit := do
  let needed (name : String) := (target.field? name).any fun f => f.required || f.id
  match r.far.find? needed with
  | some name => throw (.invalidValue target.name name (.keyRequired r.name))
  | none =>
    let cleared := r.far.foldl (fun row name => row.insert name .null) child
    changeRow target (← touch target cleared)

/-- Lets related rows of a parent go. A selected row that is not related to it stays as it is. -/
def disconnect (s : Schema) (e : Entity) (r : Relation) (target : Entity) (parent : Row) :
    Disconnect → Operation Unit
  | .flag false => pure ()
  | .flag true => do
    if r.isToMany then throw (.invalidQuery (.disconnectShape true e.name r.name))
    (← look s fun v => v.relatedRows r parent).forM (unlink r target)
  | .records selectors => do
    if !r.isToMany then throw (.invalidQuery (.disconnectShape false e.name r.name))
    selectors.forM fun selector => do
      match ← look s fun v => v.findUnique target selector with
      | none => pure ()
      | some child =>
        if (Key.ofRow r.far child).equiv (Key.ofRow r.near parent) then unlink r target child

/-- Makes the selected row reference a parent. A parent that may have one such row only lets go of
the one it has. -/
def connect (s : Schema) (r : Relation) (target : Entity) (parent : Row) (selector : Filter) :
    Operation Unit := do
  let child ← findToConnect s r target selector
  if !r.isToMany then
    (← look s fun v => v.relatedRows r parent).forM fun current => do
      if !(target.keyOf current).equiv (target.keyOf child) then unlink r target current
  changeRow target (← touch target (child.insertAll (r.childLink parent)))

/-- A creation that is left out, if `skip` says so, where it would violate a unique constraint. -/
def skipDuplicate (skip : Bool) (creation : Operation Row) : Operation (Option Row) := do
  try return some (← creation)
  catch
    | .uniqueViolation entity fields =>
      if skip then return none else throw (.uniqueViolation entity fields)
    | error => throw error

/-! ### Creation -/

/-- Writes a literal to a field of a row that is to be created. -/
def writeLiteral (e : Entity) (row : Row) (name : String) (literal : Json) : Operation Row := do
  match e.field? name with
  | some f => return row.insert name (← MonadExcept.ofExcept (e.coerce f literal))
  | none =>
    discard (MonadExcept.ofExcept (e.requireRelation name))
    throw (.invalidQuery (.scalarWriteOnRelation e.name name))

/-- Writes a change to a field of a row that is to be created: only a new value is one. -/
def writeUpdate (e : Entity) (row : Row) (name : String) (op : UpdateOp) : Operation Row := do
  match e.field? name, op with
  | some _, .set literal => writeLiteral e row name literal
  | some _, _ => throw (.invalidQuery (.operatorInCreate e.name name))
  | none, _ =>
    discard (MonadExcept.ofExcept (e.requireRelation name))
    throw (.invalidQuery (.scalarWriteOnRelation e.name name))

/-- The relation that is written to under a name. -/
def relationToWrite (e : Entity) (name : String) : Operation Relation := do
  if (e.field? name).isSome then throw (.invalidQuery (.relationWriteOnScalar e.name name))
  MonadExcept.ofExcept (e.requireRelation name)

mutual

/-- Creates a row, with `link` as the key to a parent that it is created for, and what is related
to it. Gives the row as it is stored. -/
def create (s : Schema) (e : Entity) (link : Row) : WriteData → Operation Row
  | ⟨fields⟩ => do
    let row := (← createFields s e ∅ fields).insertAll link
    let written := fields.map (·.1) |>.filter fun name => (e.field? name).isSome
    checkForeignKeys s e row (written ++ link.keys)
    let row ← fillDefaults s e row
    let key ← addRow e row
    createChildren s e row fields
    reread s e key

/-- The values that write data give to the fields of a row, with the keys of the rows it
references. -/
def createFields (s : Schema) (e : Entity) (row : Row) :
    List (String × FieldWrite) → Operation Row
  | [] => pure row
  | (name, write) :: rest => do createFields s e (← createField s e row name write) rest

def createField (s : Schema) (e : Entity) (row : Row) (name : String) :
    FieldWrite → Operation Row
  | .literal literal => writeLiteral e row name literal
  | .update op => writeUpdate e row name op
  | .relation write => do
    let r ← relationToWrite e name
    if r.isOwning then
      if write.disconnect.isSome || write.createMany.isSome then
        throw (.invalidQuery (.ownerOperation e.name name))
      return r.linkTo (← resolveParent s r write) row
    else return row

/-- The row that a row is to reference: created or found. -/
def resolveParent (s : Schema) (r : Relation) : NestedWrite → Operation Row
  | ⟨[data], [], _, _, _⟩ => do
    let target ← MonadExcept.ofExcept (s.require r.target)
    create s target ∅ data
  | ⟨[], [selector], _, _, _⟩ => do
    let target ← MonadExcept.ofExcept (s.require r.target)
    findToConnect s r target selector
  | _ => do
    discard (MonadExcept.ofExcept (s.require r.target))
    throw (.invalidQuery (.parentNotSingle r.name))

/-- Writes to the relations whose other end holds the key. -/
def createChildren (s : Schema) (e : Entity) (parent : Row) :
    List (String × FieldWrite) → Operation Unit
  | [] => pure ()
  | (name, write) :: rest => do
    createChild s e parent name write
    createChildren s e parent rest

def createChild (s : Schema) (e : Entity) (parent : Row) (name : String) :
    FieldWrite → Operation Unit
  | .literal _ => pure ()
  | .update _ => pure ()
  | .relation write => do
    let r ← relationToWrite e name
    if !r.isOwning then writeChildren s e r parent write

/-- Writes to one relation whose other end holds the key. -/
def writeChildren (s : Schema) (e : Entity) (r : Relation) (parent : Row) :
    NestedWrite → Operation Unit
  | ⟨created, connected, _, batch, released⟩ => do
    let target ← MonadExcept.ofExcept (s.require r.target)
    if !r.isToMany && 1 < created.length + connected.length then
      throw (.invalidQuery (.childNotSingle e.name r.name))
    released.forM (disconnect s e r target parent)
    createAll s target (r.childLink parent) created
    connected.forM (connect s r target parent)
    writeBatch s e r target parent batch

def createAll (s : Schema) (e : Entity) (link : Row) : List WriteData → Operation Unit
  | [] => pure ()
  | data :: rest => do
    discard (create s e link data)
    createAll s e link rest

def writeBatch (s : Schema) (e : Entity) (r : Relation) (target : Entity) (parent : Row) :
    Option CreateMany → Operation Unit
  | none => pure ()
  | some batch => writeMany s e r target parent batch

def writeMany (s : Schema) (e : Entity) (r : Relation) (target : Entity) (parent : Row) :
    CreateMany → Operation Unit
  | ⟨rows, skip⟩ => do
    if !r.isToMany then throw (.invalidQuery (.createManyOfOne e.name r.name))
    createBatch s target (r.childLink parent) skip rows

/-- Creates rows that write to no relation. -/
def createBatch (s : Schema) (e : Entity) (link : Row) (skip : Bool) :
    List WriteData → Operation Unit
  | [] => pure ()
  | data :: rest => do
    if data.writesRelations then throw (.invalidQuery .batchWithRelations)
    discard (skipDuplicate skip (create s e link data))
    createBatch s e link skip rest

end

end Operation

end RelationalStore

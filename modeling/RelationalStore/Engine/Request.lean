import RelationalStore.Engine.Delete
import RelationalStore.Engine.Projection
import RelationalStore.Engine.Scope
import RelationalStore.Engine.Update

/- What can be asked of an entity. A request is a query with the operation that answers it and the
   access that the operation needs. Reads come in three forms: many rows, the first of them, or the
   one that a unique selector names; writes of one row answer with its record. -/
namespace RelationalStore

/-- A query that is put to an entity, and how it is answered. -/
structure Request (α : Type) where
  access : Access
  query : Query
  operation : Schema → Entity → Operation α

/-- The number of rows, or for each selected name the number of rows with a value. -/
inductive CountResult where
  | total (n : Nat)
  | fields (counts : SortedMap String Nat)

namespace CountResult

/-- The number of rows, if it was asked for. -/
def total? : CountResult → Option Nat
  | .total n => some n
  | .fields counts => counts.get? "_all"

/-- The number of rows with a value in a field, if it was asked for. -/
def field? (c : CountResult) (name : String) : Option Nat :=
  match c with
  | .total _ => none
  | .fields counts => counts.get? name

end CountResult

namespace View

/-- The records that a query asks for. -/
def findMany (v : View) (e : Entity) (q : Query) : Read (List Record) := do
  v.attach e (← v.readRows e q (← v.rows e)) q

/-- The record of one row. -/
def record (v : View) (e : Entity) (q : Query) (row : Row) : Read Record := do
  match ← v.attach e [row] q with
  | record :: _ => return record
  | [] => throw (.recordNotFound e.name)

/-- The rows that pass a filter, if there is one. -/
def matching (v : View) (e : Entity) (filter : Option Filter) : Read (List Row) := do
  let rows ← v.rows e
  match filter with
  | some f => v.select e rows f
  | none => return rows

/-- The number of rows with a value under a name; `_all` counts every row. -/
def countOf (e : Entity) (rows : List Row) (name : String) : Read Nat := do
  if name = "_all" then return rows.length
  discard (e.requireField name)
  return rows.countP fun row => !(row.value name).isNull

/-- The rows that a query asks for, counted: as a whole, or for each name that is selected with
`true`. -/
def count (v : View) (e : Entity) (q : Query) : Read CountResult := do
  let rows ← v.readRows e q (← v.rows e)
  match q.select with
  | none => return .total rows.length
  | some entries =>
    let names := entries.filterMap fun
      | (name, .flag true) => some name
      | _ => none
    let counts ← names.mapM fun name => do return (name, ← countOf e rows name)
    return .fields (.ofList counts)

end View

namespace Operation

/-- The selector of a query, which it must have. -/
def requireSelector (e : Entity) (q : Query) : Except Error Filter :=
  q.filter.elim (.error (.invalidQuery (.withoutSelector e.name))) .ok

/-- The write data of a query, which must be for one row. -/
def requireData (q : Query) : Except Error WriteData :=
  match q.data with
  | some (.one data) => .ok data
  | some (.many _) => .error (.invalidQuery .dataNotSingle)
  | none => .error (.invalidQuery .withoutData)

/-- The record that was found, or the error that there is none. -/
def requireFound {α : Type} (e : Entity) (found : Option α) : Except Error α :=
  found.elim (.error (.recordNotFound e.name)) .ok

mutual

/-- Fails if there is something to connect or create anywhere in write data, as far as the
relations on the way are known. -/
def checkSupported (s : Schema) (e : Entity) : WriteData → Except Error Unit
  | ⟨fields⟩ => checkFields s e fields

def checkFields (s : Schema) (e : Entity) : List (String × FieldWrite) → Except Error Unit
  | [] => .ok ()
  | (name, write) :: rest => do
    checkWrite s e name write
    checkFields s e rest

def checkWrite (s : Schema) (e : Entity) (name : String) : FieldWrite → Except Error Unit
  | .literal _ => .ok ()
  | .update _ => .ok ()
  | .relation write => checkNested s e name write

def checkNested (s : Schema) (e : Entity) (name : String) : NestedWrite → Except Error Unit
  | ⟨create, _, connectOrCreate, createMany, _⟩ => do
    if !connectOrCreate.isEmpty then
      throw (.unsupportedOperation "connectOrCreate" e.name name)
    match s.target? e name with
    | none => .ok ()
    | some target => do
      checkAll s target create
      checkBatch s target createMany

def checkBatch (s : Schema) (e : Entity) : Option CreateMany → Except Error Unit
  | none => .ok ()
  | some batch => checkMany s e batch

def checkMany (s : Schema) (e : Entity) : CreateMany → Except Error Unit
  | ⟨data, _⟩ => checkAll s e data

def checkAll (s : Schema) (e : Entity) : List WriteData → Except Error Unit
  | [] => .ok ()
  | data :: rest => do
    checkSupported s e data
    checkAll s e rest

end

/-- Creates a row for each of the write data, none of which writes to a relation. -/
def insertBatch (s : Schema) (e : Entity) (q : Query) : Operation (List Row) := do
  let batch ← match q.data with
    | some data => pure data.rows
    | none => throw (.invalidQuery .batchWithoutData)
  let created ← batch.mapM fun data => do
    if data.writesRelations then throw (.invalidQuery .batchWithRelations)
    skipDuplicate q.skipDuplicates (create s e ∅ data)
  return created.filterMap id

end Operation

namespace Request

open Operation (look)

/-- The first of the rows that a query asks for. -/
def first (q : Query) : Query := { q with take := some 1 }

/-! ### Reads -/

/-- Every record that passes the filter, in order. -/
def findMany (q : Query) : Request (List Record) :=
  ⟨.read, q, fun s e => look s fun v => v.findMany e q⟩

/-- The first record that passes the filter. -/
def findFirst (q : Query) : Request (Option Record) :=
  ⟨.read, first q, fun s e => do return (← look s fun v => v.findMany e (first q)).head?⟩

/-- The record that a unique selector names. -/
def findUnique (q : Query) : Request (Option Record) :=
  ⟨.read, q, fun s e => look s fun v => do
    let selector ← Operation.requireSelector e q
    let row ← v.findUnique e selector
    return (← v.attach e row.toList q).head?⟩

/-- The same request, to which it is an error that there is no record. -/
def orThrow (r : Request (Option Record)) : Request Record :=
  { r with operation := fun s e => do
      MonadExcept.ofExcept (Operation.requireFound e (← r.operation s e)) }

/-- The number of records that pass the filter. -/
def count (q : Query) : Request CountResult :=
  ⟨.read, q, fun s e => look s fun v => v.count e q⟩

/-! ### Writes -/

/-- Creates one record, with what is related to it. -/
def create (q : Query) : Request Record :=
  ⟨.create, q, fun s e => do
    let data ← MonadExcept.ofExcept (Operation.requireData q)
    MonadExcept.ofExcept (Operation.checkSupported s e data)
    let row ← Operation.create s e ∅ data
    look s fun v => v.record e q row⟩

/-- Creates a batch of records; answers how many there are. -/
def createMany (q : Query) : Request Nat :=
  ⟨.create, q, fun s e => do return (← Operation.insertBatch s e q).length⟩

/-- Creates a batch of records. -/
def createManyAndReturn (q : Query) : Request (List Record) :=
  ⟨.create, q, fun s e => do
    let rows ← Operation.insertBatch s e q
    look s fun v => v.attach e rows q⟩

/-- Updates the record that a unique selector names. -/
def update (q : Query) : Request Record :=
  ⟨.update, q, fun s e => do
    let selector ← MonadExcept.ofExcept (Operation.requireSelector e q)
    let data ← MonadExcept.ofExcept (Operation.requireData q)
    MonadExcept.ofExcept (Operation.checkSupported s e data)
    let row ← look s fun v => do Operation.requireFound e (← v.findUnique e selector)
    let row ← Operation.update s e data row
    look s fun v => v.record e q row⟩

/-- Changes the fields of every record that passes the filter; answers how many there are. -/
def updateMany (q : Query) : Request Nat :=
  ⟨.update, q, fun s e => do
    let data ← MonadExcept.ofExcept (Operation.requireData q)
    if data.writesRelations then throw (.invalidQuery .updateManyWithRelations)
    let rows ← look s fun v => v.matching e q.filter
    rows.forM fun row => discard (Operation.update s e data row)
    return rows.length⟩

/-- Deletes the record that a unique selector names; answers with the record as it was. -/
def delete (q : Query) : Request Record :=
  ⟨.delete, q, fun s e => do
    let selector ← MonadExcept.ofExcept (Operation.requireSelector e q)
    let row ← look s fun v => do Operation.requireFound e (← v.findUnique e selector)
    let record ← look s fun v => v.record e q row
    Operation.delete s e row
    return record⟩

/-- Deletes every record that passes the filter, if no earlier deletion took it along; answers how
many these were. -/
def deleteMany (q : Query) : Request Nat :=
  ⟨.delete, q, fun s e => do
    let rows ← look s fun v => v.matching e q.filter
    rows.foldlM (fun n row => do
      match ← look s fun v => v.row? e (e.keyOf row) with
      | some current => do
        Operation.delete s e current
        return n + 1
      | none => return n) 0⟩

end Request

end RelationalStore

import RelationalStore.Schema.Entity
import RelationalStore.Transaction

/- What an operation can read: the schema, and the tables as its transaction sees them. Every read
   of related rows goes through `rowsWhere`, which uses the primary key or an index where there is
   one over exactly the wanted fields, and looks at every row otherwise. -/
namespace RelationalStore

/-- A reading of the store, or the reason that it fails. -/
abbrev Read (α : Type) := Except Error α

namespace Read

/-- Both, the second only where the first holds. -/
def and (a b : Read Bool) : Read Bool := do
  if ← a then b else return false

/-- The opposite. -/
def not (a : Read Bool) : Read Bool := do return !(← a)

/-- Every one, in order, up to the first that does not hold. -/
def all : List (Read Bool) → Read Bool
  | [] => .ok true
  | a :: rest => a.and (all rest)

end Read

/-- The schema, and the tables as a transaction sees them. -/
structure View where
  schema : Schema
  tables : Tables
  transaction : Transaction

namespace View

/-- The table of an entity. -/
def table (v : View) (e : Entity) : Read Table := v.transaction.table v.tables e.name

/-- Every row of an entity, in the order of the keys. -/
def rows (v : View) (e : Entity) : Read (List Row) := do return (← v.table e).toList

/-- The row of an entity with a primary key. -/
def row? (v : View) (e : Entity) (key : Key) : Read (Option Row) := do return (← v.table e).get? key

/-- The rows of an entity whose fields have the values of a key. -/
def rowsWhere (v : View) (e : Entity) (fields : List String) (key : Key) : Read (List Row) := do
  let t ← v.table e
  if fields = e.idFields then return (t.get? key).toList
  else
    match t.indexFor? fields with
    | some index => t.lookup index key
    | none => return t.toList.filter fun row => (Key.ofRow fields row).equiv key

/-- The rows that a relation joins to a row; a null in the row's own fields joins it to none. -/
def relatedRows (v : View) (r : Relation) (row : Row) : Read (List Row) := do
  let key := Key.ofRow r.near row
  if key.hasNull then return []
  else
    let target ← v.schema.require r.target
    v.rowsWhere target r.far key

end View

end RelationalStore

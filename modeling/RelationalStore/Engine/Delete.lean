import RelationalStore.Engine.Defaults

/- Deleting a row with its dependents. Each relation that references the row says what becomes of
   the rows at its other end: they are deleted too, their key is cleared, they forbid the deletion,
   or they stay as they are. A row whose deletion has begun is not deleted again, which ends cycles
   of cascades: every deletion within another one begins with a row of its own. Where the time of
   the last write is a part of the primary key, clearing a key stores a row anew, and the deletion
   of such a row goes on to another one only if that references the time; so deletions are nested no
   deeper than there are rows and values in them. -/
namespace RelationalStore

/-- The number of rows, and of the values in them. -/
def Tables.extent (tables : Tables) : Nat :=
  let rows := tables.values.flatMap Table.toList
  rows.length + (rows.flatMap SortedMap.values).length

namespace Operation

/-- Clears the foreign key of a row that depends on a deleted one. -/
def clearKey (d : Dependent) (child : Entity) (row : Row) : Operation Unit := do
  let cleared := d.fields.foldl (fun row name => row.insert name .null) row
  discard (putRow child (← touch child cleared))
  note child .update (child.keyOf row)

/-- Does something to each of the rows that are still there, as they are by then. -/
def forEachPresent (s : Schema) (e : Entity) (rows : List Row) (f : Row → Operation Unit) :
    Operation Unit :=
  rows.forM fun row => do
    match ← look s fun v => v.row? e (e.keyOf row) with
    | some current => f current
    | none => pure ()

/-- What the deletion of a row does to those that depend on it through one relation. -/
def settleDependents (s : Schema) (e : Entity) (row : Row)
    (deleteChild : Entity → Row → Operation Unit) (d : Dependent) : Operation Unit := do
  let link := Key.ofRow d.references row
  if d.onDelete = .noAction || link.hasNull then return
  let child ← MonadExcept.ofExcept (s.require d.entity)
  let rows ← look s fun v => v.rowsWhere child d.fields link
  match d.onDelete with
  | .noAction => pure ()
  | .restrict =>
    if !rows.isEmpty then throw (.restrictViolation e.name d.entity d.relation)
  | .cascade => forEachPresent s child rows (deleteChild child)
  | .setNull => forEachPresent s child rows (clearKey d child)

/-- Deletes a row, where deletions are nested no deeper than `depth`. -/
def deleteWithin (s : Schema) : Nat → Entity → Row → Operation Unit
  | 0, _, _ => pure ()
  | depth + 1, e, row => do
    let key := e.keyOf row
    if ← beginDelete e key then
      e.dependents.forM (settleDependents s e row (deleteWithin s depth))
      deleteRow e key

/-- Deletes a row. -/
def delete (s : Schema) (e : Entity) (row : Row) : Operation Unit := do
  deleteWithin s ((← get).tables.extent + 2) e row

end Operation

end RelationalStore

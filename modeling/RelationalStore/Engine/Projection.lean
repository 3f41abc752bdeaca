import RelationalStore.Engine.Selector
import RelationalStore.Record

/- Rows as the records that a query asks for: the relations and counts that it names are attached,
   and a `select` keeps the fields that it names. A relation with a query of its own is read as that
   query says: filtered, sorted, cut, and with attachments of its own. -/
namespace RelationalStore

/-- The records at the other end of a relation; of a to-one relation the first. -/
def Related.ofRecords (r : Relation) (records : List Record) : Related :=
  if r.isToMany then .many records else .one records.head?

namespace View

/-- Attaches the number of related rows that pass the filter, if there is one. -/
def attachCount (v : View) (e : Entity) (record : Record) (wanted : Relation × Option Filter) :
    Read Record := do
  let (r, filter) := wanted
  if !r.isToMany then throw (.invalidQuery (.countOfOne e.name r.name))
  let rows ← v.relatedRows r record.fields
  match filter with
  | none => return record.attachCount r.name rows.length
  | some f =>
    let target ← v.schema.require r.target
    return record.attachCount r.name (← v.select target rows f).length

/-- Attaches the counts of a selection: of every to-many relation, or of those that are named. -/
def attachCounts (v : View) (e : Entity) (record : Record) (counts : CountSelection) :
    Read Record := do
  let wanted ← match counts with
    | .all => pure ((e.relations.filter Relation.isToMany).map (·, none))
    | .relations entries => entries.mapM fun (name, filter) => do
      return (← e.requireRelation name, filter)
  wanted.foldlM (v.attachCount e) record

/-- Whether a relation leads nowhere because the row itself lacks a part of the foreign key. -/
def lacksKey (r : Relation) (row : Row) : Bool := r.isOwning && (Key.ofRow r.near row).hasNull

/-- Takes a name without a query of its own: a field stays as it is, a relation is attached with
all its rows. -/
def attachPlainly (v : View) (e : Entity) (record : Record) (name : String) : Read Record := do
  if name = "_count" then throw (.invalidQuery .countNotSelection)
  if (e.field? name).isSome then return record
  let r ← e.requireRelation name
  discard (v.schema.require r.target)
  if lacksKey r record.fields then return record.attach name (.one none)
  let rows ← v.relatedRows r record.fields
  return record.attach name (.ofRecords r (rows.map .ofRow))

mutual

/-- Rows as records. -/
def attach (v : View) (e : Entity) (rows : List Row) : Query → Read (List Record)
  | ⟨_, _, none, none, _, _, _, _, _⟩ => .ok (rows.map .ofRow)
  | ⟨_, _, none, some load, _, _, _, _, _⟩ =>
    rows.mapM fun row => attachAll v e (.ofRow row) load
  | ⟨_, _, some select, none, _, _, _, _, _⟩ => do
    let records ← rows.mapM fun row => attachAll v e (.ofRow row) select
    return records.map (.keepFields (Selection.selects select))
  | ⟨_, _, some _, some _, _, _, _, _, _⟩ => .error (.invalidQuery .selectAndInclude)

/-- Attaches what the entries of a selection name. -/
def attachAll (v : View) (e : Entity) (record : Record) :
    List (String × Selected) → Read Record
  | [] => .ok record
  | (name, selected) :: rest => do
    attachAll v e (← attachOne v e record name selected) rest

/-- Attaches what one entry of a selection names. -/
def attachOne (v : View) (e : Entity) (record : Record) (name : String) :
    Selected → Read Record
  | .flag false => .ok record
  | .flag true => v.attachPlainly e record name
  | .count counts =>
    if name = "_count" then v.attachCounts e record counts else v.attachPlainly e record name
  | .nested q => do
    if name = "_count" then throw (.invalidQuery .countNotSelection)
    if (e.field? name).isSome then throw (.invalidQuery (.nestedInScalar e.name name))
    let r ← e.requireRelation name
    let target ← v.schema.require r.target
    if lacksKey r record.fields then return record.attach name (.one none)
    let rows ← v.readRows target q (← v.relatedRows r record.fields)
    return record.attach name (.ofRecords r (← attach v target rows q))

end

end View

end RelationalStore

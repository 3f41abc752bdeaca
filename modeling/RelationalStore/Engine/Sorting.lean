import RelationalStore.Engine.View

/- The order of rows. Each row gets one sort key for every leaf of the order: the value of a field,
   the number of related rows, or a key of the related row, which is null where there is none. The
   first keys that differ decide; rows with equal keys stay in the order they came in. -/
namespace RelationalStore

/-- What one leaf of an order compares. -/
structure SortKey where
  value : Value
  direction : Direction
  nulls : Option NullsPlace

namespace SortKey

/-- Whether rows without a value come before the others: unless the order says so itself, they do
in increasing order. -/
def nullsFirst (k : SortKey) : Bool :=
  match k.nulls with
  | some .first => true
  | some .last => false
  | none => k.direction == .asc

/-- The order of two keys of one leaf. -/
def compare (a b : SortKey) : Ordering :=
  match a.value.isNull, b.value.isNull, a.direction with
  | true, true, _ => .eq
  | false, false, .asc => Ord.compare a.value b.value
  | false, false, .desc => (Ord.compare a.value b.value).swap
  | true, false, _ => if a.nullsFirst then .lt else .gt
  | false, true, _ => if a.nullsFirst then .gt else .lt

/-- The order of the keys of two rows: the first that differ decide. -/
def compareAll : List SortKey → List SortKey → Ordering
  | a :: as, b :: bs => (a.compare b).then (compareAll as bs)
  | _, _ => .eq

end SortKey

namespace View

/-- The number of related rows, or null where there is no row to relate them to. -/
def countKey (v : View) (r : Relation) (row : Option Row) : Read Value :=
  match row with
  | some row => do return .int (← v.relatedRows r row).length
  | none => .ok .null

/-- The row at the other end of a to-one relation. -/
def oneRelated? (v : View) (r : Relation) (row : Option Row) : Read (Option Row) :=
  match row with
  | some row => do return (← v.relatedRows r row).head?
  | none => .ok none

mutual

/-- The sort keys of a row, or of the absence of one, for a list of clauses. -/
def sortKeys (v : View) (e : Entity) (row : Option Row) : List OrderBy → Read (List SortKey)
  | [] => .ok []
  | clause :: rest => do
    let keys ← clauseKeys v e row clause
    return keys ++ (← sortKeys v e row rest)

def clauseKeys (v : View) (e : Entity) (row : Option Row) : OrderBy → Read (List SortKey)
  | ⟨name, key⟩ => leafKeys v e row name key

/-- The sort keys of one name of an order. -/
def leafKeys (v : View) (e : Entity) (row : Option Row) (name : String) :
    OrderKey → Read (List SortKey)
  | .scalar direction nulls => do
    let f ← e.requireField name
    if f.list then throw (.invalidQuery (.orderByList e.name f.name))
    return [⟨row.elim .null (Row.value · f.name), direction, nulls⟩]
  | .count direction => do
    let r ← e.requireRelation name
    if !r.isToMany then throw (.invalidQuery (.orderByCountOfOne e.name r.name))
    return [⟨← v.countKey r row, direction, none⟩]
  | .relation clauses => do
    let r ← e.requireRelation name
    if r.isToMany then throw (.invalidQuery (.orderByMany e.name r.name))
    let target ← v.schema.require r.target
    sortKeys v target (← v.oneRelated? r row) clauses

end

/-- The rows in the given order. -/
def sort (v : View) (e : Entity) (order : List OrderBy) (rows : List Row) : Read (List Row) := do
  let keyed ← rows.mapM fun row => do return (← v.sortKeys e (some row) order, row)
  return (keyed.mergeSort fun a b => (SortKey.compareAll a.1 b.1).isLE).map (·.2)

end View

end RelationalStore

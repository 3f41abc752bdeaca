import RelationalStore.Engine.Matching
import RelationalStore.Engine.Sorting

/- Finding rows: many of them by a query, or the one that a unique selector names. A unique selector
   must fix every field of the primary key or of a unique group by equality; the rest of it is a
   filter on the row that is found. -/
namespace RelationalStore

/-- The first row for each value of the given fields. -/
def firstPerKey (fields : List String) (rows : List Row) : List Row :=
  go ∅ rows
where
  go (seen : SortedSet Key) : List Row → List Row
    | [] => []
    | row :: rest =>
      let key := Key.ofRow fields row
      if seen.contains key then go seen rest else row :: go (SortedSet.add seen key) rest

namespace View

/-- The rows that a query asks for: filtered, sorted, one for each distinct value, and cut to a
window, in this order. -/
def readRows (v : View) (e : Entity) (q : Query) (rows : List Row) : Read (List Row) := do
  let rows ← match q.filter with
    | some f => v.select e rows f
    | none => pure rows
  let rows ← v.sort e q.order rows
  q.distinct.forM fun field => discard (e.requireField field)
  let rows := if q.distinct.isEmpty then rows else firstPerKey q.distinct rows
  let rows := rows.drop (q.skip.getD 0)
  return q.take.elim rows rows.take

end View

namespace Entity

/-- Adds the value that a field must equal; a list field and a name that is no field add nothing. -/
def fix (e : Entity) (fixed : SortedMap String Value) (name : String) (literal : Json) :
    Read (SortedMap String Value) :=
  match e.field? name with
  | some f => do if f.list then return fixed else return fixed.insert name (← e.coerce f literal)
  | none => .ok fixed

mutual

/-- The values that a filter fixes by equality, outside of its parts; the fields of a compound
group count. -/
def fixedBy (e : Entity) : Filter → Read (SortedMap String Value)
  | ⟨_, _, _, conditions⟩ => fixedByAll e ∅ conditions

def fixedByAll (e : Entity) (fixed : SortedMap String Value) :
    List (String × Condition) → Read (SortedMap String Value)
  | [] => .ok fixed
  | (name, c) :: rest => do fixedByAll e (← fixedByOne e fixed name c) rest

def fixedByOne (e : Entity) (fixed : SortedMap String Value) (name : String) :
    Condition → Read (SortedMap String Value)
  | .equals literal => e.fix fixed name literal
  | .scalar test =>
    match test.equals, test.mode with
    | some literal, .sensitive => e.fix fixed name literal
    | _, _ => .ok fixed
  | .nested f => do
    if (e.compound? name).isNone then return fixed
    else return fixed.insertAll (← fixedBy e f)
  | .isNull => .ok fixed
  | .relation _ => .ok fixed

end

/-- The first group of fields that select at most one row and all have a value. -/
def selectedGroup? (e : Entity) (fixed : SortedMap String Value) : Option (List String) :=
  e.uniqueSelectors.find? fun group => group.all fun field => !(Row.value fixed field).isNull

end Entity

namespace View

/-- The row that a unique selector names, if there is one. -/
def findUnique (v : View) (e : Entity) (selector : Filter) : Read (Option Row) := do
  let fixed ← e.fixedBy selector
  match e.selectedGroup? fixed with
  | none => throw (.invalidQuery (.selectorNotUnique e.name))
  | some group =>
    let key := Key.ofRow group fixed
    let candidates ←
      if group = e.idFields then do pure (← v.row? e key).toList
      else do (← v.table e).lookup (IndexDef.nameOf group) key
    candidates.findM? fun row => v.lets e row selector

end View

end RelationalStore

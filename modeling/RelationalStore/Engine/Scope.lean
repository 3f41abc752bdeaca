import RelationalStore.Schema.Entity
import RelationalStore.Query.Syntax

/- Which tables an operation can touch. They are found by walking its payload, without a look at any
   row: the tables of the relations that filters, orders, selections and nested writes name, the
   tables that a written foreign key references, and for a deletion those of the rows that depend on
   the deleted ones. A name that is neither a field nor a relation adds nothing here and is reported
   when the operation runs. -/
namespace RelationalStore

/-- What an operation does with the rows it finds. -/
inductive Access where
  | read
  | create
  | update
  | delete
  deriving DecidableEq, Inhabited

namespace Access

def writes (a : Access) : Bool := a != .read

end Access

namespace Schema

/-- The entity at the other end of a relation. -/
def target? (s : Schema) (e : Entity) (relation : String) : Option Entity :=
  (e.relation? relation).bind fun r => s.entity? r.target

/-! ### Filters and orders -/

mutual

/-- The tables that a filter looks into, besides the one it filters. -/
def filterTables (s : Schema) (e : Entity) : Filter → List String
  | ⟨conjuncts, alternatives, exclusions, conditions⟩ =>
    conditionTables s e conditions ++ filtersTables s e conjuncts ++
      (match alternatives with
        | none => []
        | some filters => filtersTables s e filters) ++
      filtersTables s e exclusions

def filtersTables (s : Schema) (e : Entity) : List Filter → List String
  | [] => []
  | f :: rest => filterTables s e f ++ filtersTables s e rest

def conditionTables (s : Schema) (e : Entity) : List (String × Condition) → List String
  | [] => []
  | (name, c) :: rest => oneConditionTables s e (s.target? e name) c ++ conditionTables s e rest

/-- The tables of one condition. A filter under a name that is no relation is on the entity's own
fields. -/
def oneConditionTables (s : Schema) (e : Entity) (target : Option Entity) :
    Condition → List String
  | .nested f =>
    match target with
    | some t => t.name :: filterTables s t f
    | none => filterTables s e f
  | .relation test =>
    match target with
    | some t => t.name :: testTables s t test
    | none => []
  | .isNull => target.toList.map (·.name)
  | .equals _ => target.toList.map (·.name)
  | .scalar _ => target.toList.map (·.name)

def testTables (s : Schema) (e : Entity) : RelationTest → List String
  | ⟨is, isNot, every, someOf, noneOf⟩ =>
    relatedTables s e is ++ relatedTables s e isNot ++ innerTables s e every ++
      innerTables s e someOf ++ innerTables s e noneOf

def relatedTables (s : Schema) (e : Entity) : Option RelationTarget → List String
  | none => []
  | some t => relationTargetTables s e t

def relationTargetTables (s : Schema) (e : Entity) : RelationTarget → List String
  | .absent => []
  | .passing f => filterTables s e f

def innerTables (s : Schema) (e : Entity) : Option Filter → List String
  | none => []
  | some f => filterTables s e f

end

mutual

/-- The tables that an order looks into. -/
def orderTables (s : Schema) (e : Entity) : List OrderBy → List String
  | [] => []
  | clause :: rest => clauseTables s e clause ++ orderTables s e rest

def clauseTables (s : Schema) (e : Entity) : OrderBy → List String
  | ⟨name, key⟩ => keyTables s (s.target? e name) key

def keyTables (s : Schema) (target : Option Entity) : OrderKey → List String
  | .scalar _ _ => []
  | .count _ => target.toList.map (·.name)
  | .relation clauses =>
    match target with
    | some t => t.name :: orderTables s t clauses
    | none => []

end

/-! ### Selections -/

/-- The tables whose rows a selection counts. -/
def countTables (s : Schema) (e : Entity) : CountSelection → List String
  | .all => (e.relations.filter Relation.isToMany).map (·.target)
  | .relations entries => entries.flatMap fun (relation, filter) =>
    match s.target? e relation with
    | some t => t.name :: filter.elim [] (s.filterTables t)
    | none => []

mutual

/-- The tables that reading a query looks into. -/
def queryTables (s : Schema) (e : Entity) : Query → List String
  | ⟨filter, order, select, load, _, _, _, _, _⟩ =>
    e.name :: (filter.elim [] (s.filterTables e) ++ s.orderTables e order ++
      selectionTables s e select ++ selectionTables s e load)

def selectionTables (s : Schema) (e : Entity) : Option (List (String × Selected)) → List String
  | none => []
  | some entries => entriesTables s e entries

def entriesTables (s : Schema) (e : Entity) : List (String × Selected) → List String
  | [] => []
  | (name, selected) :: rest =>
    selectedTables s e (s.target? e name) selected ++ entriesTables s e rest

def selectedTables (s : Schema) (e : Entity) (target : Option Entity) : Selected → List String
  | .flag enabled => if enabled then target.toList.map (·.name) else []
  | .nested q =>
    match target with
    | some t => queryTables s t q
    | none => []
  | .count counts => s.countTables e counts

end

/-! ### Write data -/

/-- The tables that the foreign keys with a given field reference. -/
def referencedTables (e : Entity) (field : String) : List String :=
  (e.owningRelations.filter (·.near.contains field)).map (·.target)

/-- The tables that a selection of related rows to let go looks into. -/
def disconnectTables (s : Schema) (e : Entity) : Option Disconnect → List String
  | some (.records selectors) => selectors.flatMap (s.filterTables e)
  | _ => []

mutual

/-- The tables that write data reaches. -/
def writeTables (s : Schema) (e : Entity) : WriteData → List String
  | ⟨fields⟩ => fieldsTables s e fields

def fieldsTables (s : Schema) (e : Entity) : List (String × FieldWrite) → List String
  | [] => []
  | (name, write) :: rest => fieldTables s e name write ++ fieldsTables s e rest

def fieldTables (s : Schema) (e : Entity) (name : String) : FieldWrite → List String
  | .literal _ => referencedTables e name
  | .update _ => referencedTables e name
  | .relation write =>
    match s.target? e name with
    | some t => t.name :: nestedTables s t write
    | none => []

def nestedTables (s : Schema) (e : Entity) : NestedWrite → List String
  | ⟨create, connect, _, createMany, disconnect⟩ =>
    rowsTables s e create ++ batchTables s e createMany ++ connect.flatMap (s.filterTables e) ++
      s.disconnectTables e disconnect

def batchTables (s : Schema) (e : Entity) : Option CreateMany → List String
  | none => []
  | some batch => createManyTables s e batch

def createManyTables (s : Schema) (e : Entity) : CreateMany → List String
  | ⟨data, _⟩ => rowsTables s e data

def rowsTables (s : Schema) (e : Entity) : List WriteData → List String
  | [] => []
  | data :: rest => writeTables s e data ++ rowsTables s e rest

end

/-! ### Deletions -/

/-- Adds the entities whose rows are deleted with a row of those that are given. -/
def addCascaded (s : Schema) (names : SortedSet String) : SortedSet String :=
  let cascaded := names.keys.flatMap fun name =>
    (s.entity? name).elim [] fun e => e.dependents.filter (·.onDelete = .cascade)
  cascaded.foldl (fun all d => SortedSet.add all d.entity) names

/-- The entities whose rows a deletion can delete. There is no longer chain of cascades than there
are entities. -/
def cascadeClosure (s : Schema) (e : Entity) : SortedSet String :=
  Nat.repeat s.addCascaded s.entities.size (SortedSet.ofList [e.name])

/-- The tables of the rows that depend on those which a deletion can delete. -/
def dependentTables (s : Schema) (e : Entity) : List String :=
  (s.cascadeClosure e).keys.flatMap fun name =>
    (s.entity? name).elim [] fun e =>
      (e.dependents.filter (·.onDelete != .noAction)).map (·.entity)

/-- The tables that an operation needs, in the order of their names. -/
def neededTables (s : Schema) (e : Entity) (q : Query) (access : Access) : List String :=
  let more :=
    match access with
    | .read => []
    | .create => (q.data.elim [] Data.rows).flatMap (s.writeTables e)
    | .update => (q.data.elim [] Data.rows).flatMap (s.writeTables e)
    | .delete => s.dependentTables e
  (SortedSet.ofList (s.queryTables e q ++ more)).keys

end Schema

end RelationalStore

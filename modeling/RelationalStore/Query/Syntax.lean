import RelationalStore.Json

/- Query payloads as trees: filters, orders, selections and write data. Literals stay JSON, because
   only the schema knows their kinds. One shape serves every operation; each reads the parts it
   understands. -/
namespace RelationalStore

/-- How text is compared. -/
inductive TextMode where
  | sensitive
  | insensitive
  deriving DecidableEq, Inhabited

mutual

/-- Operators on a scalar or list field; every operator that is present must hold. -/
structure ScalarTest where
  equals : Option Json := none
  not : Option Negation := none
  isIn : Option (List Json) := none
  notIn : Option (List Json) := none
  lt : Option Json := none
  lte : Option Json := none
  gt : Option Json := none
  gte : Option Json := none
  contains : Option String := none
  startsWith : Option String := none
  endsWith : Option String := none
  mode : TextMode := .sensitive
  has : Option Json := none
  hasEvery : Option (List Json) := none
  hasSome : Option (List Json) := none
  isEmpty : Option Bool := none

/-- What a field must not be: a literal, or anything that passes a test. -/
inductive Negation where
  | literal (value : Json)
  | test (test : ScalarTest)

end

mutual

/-- A filter. Its conditions and all its parts hold together. -/
structure Filter where
  conjuncts : List Filter := []
  /-- Absent alternatives ask for nothing; an empty list of them is never satisfied. -/
  alternatives : Option (List Filter) := none
  exclusions : List Filter := []
  conditions : List (String × Condition) := []

/-- What is asked of one field or relation. -/
inductive Condition where
  | isNull
  | equals (literal : Json)
  | scalar (test : ScalarTest)
  | relation (test : RelationTest)
  /-- A filter on the related row, or the fields of a compound unique group. -/
  | nested (filter : Filter)

/-- Operators on a relation; every operator that is present must hold. -/
structure RelationTest where
  is : Option RelationTarget := none
  isNot : Option RelationTarget := none
  every : Option Filter := none
  someOf : Option Filter := none
  noneOf : Option Filter := none

/-- No related row, or one that passes a filter. -/
inductive RelationTarget where
  | absent
  | passing (filter : Filter)

end

namespace Filter

instance : Inhabited Filter := ⟨{}⟩

/-- A filter that asks for nothing at all. -/
def isEmpty (f : Filter) : Bool :=
  f.conjuncts.isEmpty && f.alternatives.isNone && f.exclusions.isEmpty && f.conditions.isEmpty

/-- The filters directly below this one. -/
def children (f : Filter) : List Filter :=
  f.conjuncts ++ f.alternatives.getD [] ++ f.exclusions

/-- The first condition on a field, outside of all parts. -/
def condition? (f : Filter) (field : String) : Option Condition :=
  (f.conditions.find? (·.1 == field)).map (·.2)

/-- Adds a condition. -/
def and (f : Filter) (field : String) (c : Condition) : Filter :=
  { f with conditions := f.conditions ++ [(field, c)] }

/-- Asks a field to equal a literal. -/
def whereEquals (f : Filter) (field : String) (literal : Json) : Filter :=
  f.and field (.equals literal)

end Filter

/-- The direction of an order. -/
inductive Direction where
  | asc
  | desc
  deriving DecidableEq, Inhabited

namespace Direction

def reversed : Direction → Direction
  | .asc => .desc
  | .desc => .asc

end Direction

/-- Where an order puts the rows without a value. -/
inductive NullsPlace where
  | first
  | last
  deriving DecidableEq

mutual

/-- One clause of an order. -/
structure OrderBy where
  field : String
  key : OrderKey

/-- What a clause compares: the values of a field, the number of related rows, or the keys of
the related row. -/
inductive OrderKey where
  | scalar (direction : Direction) (nulls : Option NullsPlace)
  | count (direction : Direction)
  | relation (clauses : List OrderBy)

end

namespace OrderBy

def asc (field : String) : OrderBy := ⟨field, .scalar .asc none⟩

def desc (field : String) : OrderBy := ⟨field, .scalar .desc none⟩

mutual

/-- The clause with every direction turned around; the place of nulls stays. -/
def reversed : OrderBy → OrderBy
  | ⟨field, key⟩ => ⟨field, reversedKey key⟩

def reversedKey : OrderKey → OrderKey
  | .scalar direction nulls => .scalar direction.reversed nulls
  | .count direction => .count direction.reversed
  | .relation clauses => .relation (reversedAll clauses)

def reversedAll : List OrderBy → List OrderBy
  | [] => []
  | clause :: rest => reversed clause :: reversedAll rest

end

end OrderBy

/-- A change of one scalar field. -/
inductive UpdateOp where
  | set (literal : Json)
  | increment (literal : Json)
  | decrement (literal : Json)
  | multiply (literal : Json)
  | divide (literal : Json)
  | push (literal : Json)
  | unset

/-- Related rows to let go: the one there is, or those that are selected. -/
inductive Disconnect where
  | flag (value : Bool)
  | records (selectors : List Filter)

mutual

/-- What is written to the fields and relations of one row, in the order of the payload. -/
structure WriteData where
  fields : List (String × FieldWrite) := []

/-- What is written to one field or relation. -/
inductive FieldWrite where
  | literal (value : Json)
  | update (op : UpdateOp)
  | relation (write : NestedWrite)

/-- Changes of the rows on the other side of a relation. -/
structure NestedWrite where
  create : List WriteData := []
  connect : List Filter := []
  /-- Accepted in payloads, refused when the operation runs. -/
  connectOrCreate : List Json := []
  createMany : Option CreateMany := none
  disconnect : Option Disconnect := none

/-- A batch of rows to create. -/
structure CreateMany where
  data : List WriteData
  skipDuplicates : Bool := false

end

namespace WriteData

instance : Inhabited WriteData := ⟨{}⟩

def isEmpty (d : WriteData) : Bool := d.fields.isEmpty

/-- The first write to a field. -/
def get? (d : WriteData) (field : String) : Option FieldWrite :=
  (d.fields.find? (·.1 == field)).map (·.2)

/-- Writes a literal to a field. -/
def set (d : WriteData) (field : String) (literal : Json) : WriteData :=
  ⟨d.fields ++ [(field, .literal literal)]⟩

/-- Writes to a relation. -/
def relate (d : WriteData) (relation : String) (write : NestedWrite) : WriteData :=
  ⟨d.fields ++ [(relation, .relation write)]⟩

end WriteData

namespace NestedWrite

instance : Inhabited NestedWrite := ⟨{}⟩

/-- Creates one related row. -/
def creating (data : WriteData) : NestedWrite := { create := [data] }

/-- Connects the one row that is selected. -/
def connecting (selector : Filter) : NestedWrite := { connect := [selector] }

end NestedWrite

/-- The write data of an operation: one row or a batch. -/
inductive Data where
  | one (row : WriteData)
  | many (rows : List WriteData)

namespace Data

/-- The rows that are written. -/
def rows : Data → List WriteData
  | .one row => [row]
  | .many rows => rows

end Data

/-- Which related rows are counted, each relation with an optional filter. -/
inductive CountSelection where
  | all
  | relations (entries : List (String × Option Filter))

mutual

/-- A payload. -/
structure Query where
  filter : Option Filter := none
  order : List OrderBy := []
  select : Option (List (String × Selected)) := none
  /-- The relations to load on top of all fields. -/
  load : Option (List (String × Selected)) := none
  take : Option Nat := none
  skip : Option Nat := none
  distinct : List String := []
  data : Option Data := none
  skipDuplicates : Bool := false

/-- How one name of a selection is taken. -/
inductive Selected where
  | flag (value : Bool)
  | nested (query : Query)
  | count (selection : CountSelection)

end

/-- The entries of `select` or `include`, in the order of the payload. -/
abbrev Selection := List (String × Selected)

namespace Selected

/-- Everything but `false` selects. -/
def isEnabled : Selected → Bool
  | .flag false => false
  | _ => true

end Selected

namespace Selection

/-- The first entry of a name. -/
def get? (s : Selection) (name : String) : Option Selected := (s.find? (·.1 == name)).map (·.2)

def selects (s : Selection) (name : String) : Bool := (get? s name).any Selected.isEnabled

end Selection

namespace Query

instance : Inhabited Query := ⟨{}⟩

/-- The entries of `select`, then those of `include`. -/
def projections (q : Query) : Selection := q.select.getD [] ++ q.load.getD []

/-- Sets the filter. -/
def withFilter (q : Query) (f : Filter) : Query := { q with filter := some f }

/-- Sets the data to one row. -/
def withData (q : Query) (d : WriteData) : Query := { q with data := some (.one d) }

end Query

end RelationalStore

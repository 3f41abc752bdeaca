import RelationalStore.Json.Printer
import RelationalStore.Decimal.Text
import RelationalStore.DateTime
import RelationalStore.SortedMap

/- The values a field can hold, their order, and their JSON and message text. Values of one kind
   compare by their own order, an integer exactly with a big integer or a decimal, and any other two
   numbers as floating-point numbers. Values that cannot be compared otherwise are ordered by rank:
   null, truth values, numbers, text, times, bytes, JSON, lists. -/
namespace RelationalStore

/-- A field value. -/
inductive Value where
  | null
  | bool (value : Bool)
  | int (value : Int)
  | float (value : Binary64)
  | string (value : String)
  | bigint (value : Int)
  | decimal (value : Decimal)
  | datetime (value : DateTime)
  | bytes (value : List UInt8)
  | json (value : Json)
  | list (items : List Value)
  deriving Inhabited

namespace Value

def isNull : Value → Bool
  | .null => true
  | _ => false

/-- The name of the value's type in messages. -/
def typeName : Value → String
  | .null => "null"
  | .bool _ => "boolean"
  | .int _ => "int"
  | .float _ => "float"
  | .string _ => "string"
  | .bigint _ => "bigint"
  | .decimal _ => "decimal"
  | .datetime _ => "datetime"
  | .bytes _ => "bytes"
  | .json _ => "json"
  | .list _ => "list"

def string? : Value → Option String
  | .string s => some s
  | _ => none

def int? : Value → Option Int
  | .int n => some n
  | _ => none

def bool? : Value → Option Bool
  | .bool b => some b
  | _ => none

def list? : Value → Option (List Value)
  | .list items => some items
  | _ => none

/-- Any number as the nearest floating-point number. -/
def number? : Value → Option Binary64
  | .int n => some (.ofInt n)
  | .float x => some x
  | .bigint n => some (.ofInt n)
  | .decimal d => some d.toBinary64
  | _ => none

mutual

/-- The value as plain JSON. Big integers and decimals become strings; a number or a time that
has no text becomes null. -/
def toJson : Value → Json
  | .null => .null
  | .bool b => .bool b
  | .int n => .int n
  | .float x => if x.isFinite then .float x else .null
  | .string s => .string s
  | .bigint n => .string (toString n)
  | .decimal d => .string d.toText
  | .datetime t => t.toText?.elim .null .string
  | .bytes bs => .array (bs.map fun b => .int b.toNat)
  | .json j => j
  | .list items => .array (toJsonItems items)

def toJsonItems : List Value → List Json
  | [] => []
  | v :: rest => toJson v :: toJsonItems rest

end

/-- The value in a message: text as it is, anything else as compact JSON. -/
def text : Value → String
  | .string s => s
  | v => v.toJson.compact

/-- The place of the value's kind in the order of all values. -/
def rank : Value → Nat
  | .null => 0
  | .bool _ => 1
  | .int _ => 2
  | .float _ => 2
  | .bigint _ => 2
  | .decimal _ => 2
  | .string _ => 3
  | .datetime _ => 4
  | .bytes _ => 5
  | .json _ => 6
  | .list _ => 7

/-- The order of two lists: by the first items that differ, then by length. -/
def compareLists {α : Type} (order : α → α → Ordering) : List α → List α → Ordering
  | [], [] => .eq
  | [], _ :: _ => .lt
  | _ :: _, [] => .gt
  | x :: xs, y :: ys =>
    match order x y with
    | .eq => compareLists order xs ys
    | o => o

/-- The order of two values that are not both lists. -/
def compareSimple (a b : Value) : Ordering :=
  match a, b with
  | .bool x, .bool y => Ord.compare x.toNat y.toNat
  | .int x, .int y => Ord.compare x y
  | .float x, .float y => Ord.compare x y
  | .bigint x, .bigint y => Ord.compare x y
  | .decimal x, .decimal y => Ord.compare x y
  | .int x, .bigint y => Ord.compare x y
  | .bigint x, .int y => Ord.compare x y
  | .int x, .decimal y => Ord.compare (Decimal.ofInt x) y
  | .decimal x, .int y => Ord.compare x (Decimal.ofInt y)
  | .string x, .string y => Ord.compare x y
  | .datetime x, .datetime y => Ord.compare x y
  | .bytes x, .bytes y => compareLists (fun x y => Ord.compare x.toNat y.toNat) x y
  | .json x, .json y => Ord.compare x.compact y.compact
  | a, b =>
    match a.number?, b.number? with
    | some x, some y => Ord.compare x y
    | _, _ => Ord.compare a.rank b.rank

mutual

/-- The order of all values. -/
def compare : Value → Value → Ordering
  | .list xs, .list ys => compareItems xs ys
  | a, b => compareSimple a b

/-- The order of two lists of values: by the first items that differ, then by length. -/
def compareItems : List Value → List Value → Ordering
  | [], [] => .eq
  | [], _ :: _ => .lt
  | _ :: _, [] => .gt
  | x :: xs, y :: ys =>
    match compare x y with
    | .eq => compareItems xs ys
    | o => o

end

instance : Ord Value := ⟨compare⟩

/-- Whether the values have the same place in the order. -/
def equiv (a b : Value) : Bool := compare a b == .eq

end Value

/-- A stored row: a value for each field name. -/
abbrev Row := SortedMap String Value

namespace Row

/-- The value of a field; a field that the row lacks counts as null. -/
def value (row : Row) (field : String) : Value := (row.get? field).getD .null

end Row

/-- A primary key or an index key: one value for each field of its path. -/
structure Key where
  parts : List Value
  deriving Inhabited

namespace Key

instance : Ord Key := ⟨fun a b => Value.compareItems a.parts b.parts⟩

/-- The key of a row along a path of fields. -/
def ofRow (path : List String) (row : Row) : Key := ⟨path.map row.value⟩

def hasNull (k : Key) : Bool := k.parts.any Value.isNull

/-- Whether the keys have the same place in the order. -/
def equiv (a b : Key) : Bool := Ord.compare a b == .eq

/-- The parts separated by commas. -/
def text (k : Key) : String := ",".intercalate (k.parts.map Value.text)

end Key

end RelationalStore

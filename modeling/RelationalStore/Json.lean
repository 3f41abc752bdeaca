import RelationalStore.Binary64

/- JSON values as data. The members of an object keep the order in which they were written, and a
   number is an integer or a floating-point number, never both. `Json.get?` looks a member up, and
   `Json.distinct` leaves one member of each name. -/
namespace RelationalStore

/-- A JSON value; an integer is one between `-2 ^ 63` and `2 ^ 64 - 1`. -/
inductive Json where
  | null
  | bool (value : Bool)
  | int (value : Int)
  | float (value : Binary64)
  | string (value : String)
  | array (items : List Json)
  | object (members : List (String × Json))
  deriving Inhabited

namespace Json

/-- The value of the first member called `name`. -/
def memberOf? (members : List (String × Json)) (name : String) : Option Json :=
  (members.find? fun m => m.1 == name).map (·.2)

/-- The member called `name` of an object; other values have none. -/
def get? (j : Json) (name : String) : Option Json :=
  match j with
  | .object members => memberOf? members name
  | _ => none

def isNull : Json → Bool
  | .null => true
  | _ => false

def string? : Json → Option String
  | .string s => some s
  | _ => none

def bool? : Json → Option Bool
  | .bool b => some b
  | _ => none

/-- The least integer beyond 64 bits with a sign, `2 ^ 63`. -/
def intLimit : Int := 9223372036854775808

/-- Whether an integer is between `-2 ^ 63` and `2 ^ 63 - 1`. -/
def isInt64 (n : Int) : Bool := -intLimit ≤ n && n < intLimit

/-- An integer of 64 bits with a sign. -/
def int64? : Json → Option Int
  | .int n => if isInt64 n then some n else none
  | _ => none

/-- An integer between 0 and `2 ^ 64 - 1`. -/
def natural? : Json → Option Nat
  | .int n => if 0 ≤ n then some n.toNat else none
  | _ => none

/-- Any number as a floating-point number. -/
def float? : Json → Option Binary64
  | .int n => some (.ofInt n)
  | .float x => some x
  | _ => none

def array? : Json → Option (List Json)
  | .array items => some items
  | _ => none

def object? : Json → Option (List (String × Json))
  | .object members => some members
  | _ => none

/-- Puts a member behind the others; a name that is present keeps its place and gets the new
value. -/
def setMember (members : List (String × Json)) (name : String) (value : Json) :
    List (String × Json) :=
  if members.any (·.1 == name) then
    members.map fun m => if m.1 == name then (m.1, value) else m
  else
    members ++ [(name, value)]

mutual

/-- The value with one member of each name in its objects: the first place and the last value. -/
def distinct : Json → Json
  | .array items => .array (distinctItems items)
  | .object members => .object (distinctMembers [] members)
  | j => j

def distinctItems : List Json → List Json
  | [] => []
  | j :: rest => distinct j :: distinctItems rest

/-- Puts members behind those of `before`, whose names differ. -/
def distinctMembers (before : List (String × Json)) :
    List (String × Json) → List (String × Json)
  | [] => before
  | (name, j) :: rest => distinctMembers (setMember before name (distinct j)) rest

end

end Json

end RelationalStore

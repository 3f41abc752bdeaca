import RelationalStore.Value
import RelationalStore.Json.Parser

/- The stored form of values and rows. Every value is written with its kind, so that reading gives
   the same kind back; a big integer is its sign and its 32-bit digits, the least significant first.
   A time that has no text cannot be stored. The rows of a table make one document. Of two fields
   with one name in a row the last one counts, but a value has a single kind. -/
namespace RelationalStore

namespace Value

/-- The digits of a number in base `2 ^ 32`, the least significant first. -/
def wordsOf : Nat → Nat → List Json
  | 0, _ => []
  | fuel + 1, n =>
    if n = 0 then []
    else .int (n % Nat.pow 2 32 : Nat) :: wordsOf fuel (n / Nat.pow 2 32)

/-- The sign of a big integer and its digits. -/
def bigintToStored (n : Int) : Json :=
  .array [.int n.sign, .array (wordsOf (n.natAbs.log2 + 1) n.natAbs)]

mutual

/-- The value under the name of its kind. -/
def toStored? : Value → Option Json
  | .null => some (.string "Null")
  | .bool b => some (.object [("Bool", .bool b)])
  | .int n => some (.object [("Int", .int n)])
  | .float x => some (.object [("Float", if x.isFinite then .float x else .null)])
  | .string s => some (.object [("String", .string s)])
  | .bigint n => some (.object [("BigInt", bigintToStored n)])
  | .decimal d => some (.object [("Decimal", .string d.toText)])
  | .datetime t => t.toText?.map fun s => .object [("DateTime", .string s)]
  | .bytes bs => some (.object [("Bytes", .array (bs.map fun b => .int b.toNat))])
  | .json j => some (.object [("Json", j)])
  | .list items => (toStoredItems? items).map fun js => .object [("List", .array js)]

def toStoredItems? : List Value → Option (List Json)
  | [] => some []
  | v :: rest => do
    let j ← toStored? v
    let more ← toStoredItems? rest
    return j :: more

end

/-- A natural number below a bound. -/
def storedNat? (bound : Nat) (j : Json) : Option Nat :=
  j.natural?.bind fun n => if n < bound then some n else none

/-- A big integer from its sign and digits. -/
def bigintOfStored? : Json → Option Int
  | .array [.int sign, .array words] => do
    let words ← words.mapM (storedNat? (Nat.pow 2 32))
    let n : Nat := words.foldr (fun word n => n * Nat.pow 2 32 + word) 0
    if sign = 1 then return n
    else if sign = -1 then return -(n : Int)
    else if sign = 0 then return 0
    else none
  | _ => none

/-- A decimal from text or from a number, which has the places that its digits need. -/
def decimalOfStored? : Json → Option Decimal
  | .string s => Decimal.ofText? s
  | .int n => some (.ofInt n)
  | .float x => (Binary64.textIn? .positional x).bind Decimal.ofText?
  | _ => none

mutual

/-- Reads the stored form of a value. -/
def ofStored? : Json → Option Value
  | .string s => if s = "Null" then some .null else none
  | .object [(kind, j)] =>
    match kind with
    | "Null" => if j.isNull then some .null else none
    | "Bool" => j.bool?.map .bool
    | "Int" => j.int64?.map .int
    | "Float" => j.float?.map .float
    | "String" => j.string?.map .string
    | "BigInt" => (bigintOfStored? j).map .bigint
    | "Decimal" => (decimalOfStored? j).map .decimal
    | "DateTime" => (j.string?.bind DateTime.ofText?).map .datetime
    | "Bytes" =>
      (j.array?.bind fun bs => bs.mapM (storedNat? 256)).map fun ns => .bytes (ns.map UInt8.ofNat)
    | "Json" => some (.json j.distinct)
    | "List" =>
      match j with
      | .array items => (ofStoredItems? items).map .list
      | _ => none
    | _ => none
  | _ => none

def ofStoredItems? : List Json → Option (List Value)
  | [] => some []
  | j :: rest => do
    let v ← ofStored? j
    let more ← ofStoredItems? rest
    return v :: more

end

end Value

namespace Row

/-- The fields of a row in their stored form. -/
def toStored? (row : Row) : Option Json := do
  let members ← row.toList.mapM fun (f : String × Value) => f.2.toStored?.map (f.1, ·)
  return .object members

def ofStored? (j : Json) : Option Row := do
  let members ← j.object?
  let fields ← members.mapM fun (m : String × Json) => (Value.ofStored? m.2).map (m.1, ·)
  return SortedMap.ofList fields

/-- The document of some rows, as text. -/
def documentText? (rows : List Row) : Option String :=
  (rows.mapM toStored?).map fun js => (Json.array js).pretty

/-- Reads the document of some rows. -/
def ofDocumentText? (text : String) : Option (List Row) := do
  let j ← Json.read? text
  let items ← j.array?
  items.mapM ofStored?

end Row

end RelationalStore

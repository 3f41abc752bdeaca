import RelationalStore.Value
import RelationalStore.Text.Blank

/- The kinds of scalar fields: what each supports beyond equality, and which literals it accepts.
   `ScalarKind.coerce` turns a literal into a value of the kind; null stays null for every kind. -/
namespace RelationalStore

/-- The kind of a scalar field. -/
inductive ScalarKind where
  | string
  | int
  | float
  | boolean
  | bytes
  | datetime
  | bigint
  | decimal
  | json
  deriving DecidableEq, Inhabited

/-- What a kind supports beyond equality. -/
structure Capabilities where
  /-- Comparison with `lt`, `lte`, `gt` and `gte`. -/
  ordered : Bool
  /-- Search with `contains`, `startsWith`, `endsWith`, and a mode. -/
  textual : Bool
  /-- Update with `increment`, `decrement`, `multiply` and `divide`. -/
  arithmetic : Bool
  /-- Membership with `in` and `notIn`. -/
  membership : Bool
  deriving DecidableEq

namespace ScalarKind

/-- The kinds in the order of their declaration. -/
def all : List ScalarKind :=
  [.string, .int, .float, .boolean, .bytes, .datetime, .bigint, .decimal, .json]

def name : ScalarKind → String
  | .string => "string"
  | .int => "int"
  | .float => "float"
  | .boolean => "boolean"
  | .bytes => "bytes"
  | .datetime => "datetime"
  | .bigint => "bigint"
  | .decimal => "decimal"
  | .json => "json"

/-- The kind with the given name. -/
def ofName? (name : String) : Option ScalarKind := all.find? (·.name == name)

def capabilities : ScalarKind → Capabilities
  | .string => ⟨true, true, false, true⟩
  | .int => ⟨true, false, true, true⟩
  | .float => ⟨true, false, true, true⟩
  | .bigint => ⟨true, false, true, true⟩
  | .decimal => ⟨true, false, true, true⟩
  | .datetime => ⟨true, false, false, true⟩
  | .boolean => ⟨false, false, false, false⟩
  | .bytes => ⟨false, false, false, false⟩
  | .json => ⟨false, false, false, false⟩

end ScalarKind

/-- Why a literal is not of a kind. -/
inductive CoercionError where
  | mismatch (kind : ScalarKind) (literal : Json)
  | notDateTime (text : String)
  | timestampOutOfRange (millis : Int)
  | notBigint (text : String)
  | notDecimal (text : String)
  | numberNotDecimal

namespace CoercionError

def message : CoercionError → String
  | .mismatch kind literal => s!"expected {kind.name}, got {literal.compact}"
  | .notDateTime text => s!"invalid RFC 3339 datetime '{text}'"
  | .timestampOutOfRange millis => s!"timestamp {millis} out of range"
  | .notBigint text => s!"invalid bigint '{text}'"
  | .notDecimal text => s!"invalid decimal '{text}'"
  | .numberNotDecimal => "<decimal>"

end CoercionError

namespace ScalarKind

/-- The digits of a big integer; `_` may stand anywhere behind the first digit. -/
def digitsToNat? : Nat → List Char → Option Nat
  | acc, [] => some acc
  | acc, c :: rest =>
    if c.isDigit then digitsToNat? (acc * 10 + (c.toNat - 48)) rest
    else if c = '_' then digitsToNat? acc rest
    else none

/-- A big integer: digits behind an optional sign. -/
def bigintOfText? (text : String) : Option Int :=
  let (negative, cs) := Decimal.splitSign text.toList
  match cs with
  | [] => none
  | c :: _ =>
    if c = '_' then none
    else (digitsToNat? 0 cs).map fun (n : Nat) => if negative then -(n : Int) else n

/-- A byte is an integer below 256. -/
def byteOf? (j : Json) : Option UInt8 :=
  match j.natural? with
  | some n => if n < 256 then some (UInt8.ofNat n) else none
  | none => none

/-- Turns a literal into a value of the kind, with readers of decimal text. Times are RFC 3339 text or
epoch milliseconds, big integers and decimals are numbers or text, bytes are an array of integers. -/
def coerceWith (lib : Decimal.Readers) (kind : ScalarKind) (literal : Json) :
    Except CoercionError Value :=
  let orMismatch (v : Option Value) : Except CoercionError Value :=
    v.elim (.error (.mismatch kind literal)) .ok
  if literal.isNull then .ok .null
  else
    match kind with
    | .string => orMismatch (literal.string?.map .string)
    | .int => orMismatch (literal.int64?.map .int)
    | .float => orMismatch (literal.float?.map .float)
    | .boolean => orMismatch (literal.bool?.map .bool)
    | .json => .ok (.json literal)
    | .bytes => orMismatch (literal.array?.bind fun items => (items.mapM byteOf?).map .bytes)
    | .datetime =>
      match literal with
      | .string s => (DateTime.ofText? s).elim (.error (.notDateTime s)) (.ok <| .datetime ·)
      | .int _ =>
        match literal.int64? with
        | none => orMismatch none
        | some millis =>
          (DateTime.ofMillis? millis).elim (.error (.timestampOutOfRange millis))
            (.ok <| .datetime ·)
      | _ => orMismatch none
    | .bigint =>
      match literal with
      | .int n => .ok (.bigint n)
      | .string s =>
        (bigintOfText? (Text.trim s)).elim (.error (.notBigint s)) (.ok <| .bigint ·)
      | _ => orMismatch none
    | .decimal =>
      match literal with
      | .int n => .ok (.decimal (.ofInt n))
      | .float x =>
        (x.text?.bind fun text => lib.text text <|> lib.scientific text).elim
          (.error .numberNotDecimal) (.ok <| .decimal ·)
      | .string s => (lib.text (Text.trim s)).elim (.error (.notDecimal s)) (.ok <| .decimal ·)
      | _ => orMismatch none

/-- Turns a literal into a value of the kind. -/
def coerce (kind : ScalarKind) (literal : Json) : Except CoercionError Value :=
  kind.coerceWith Decimal.readers literal

end ScalarKind

end RelationalStore

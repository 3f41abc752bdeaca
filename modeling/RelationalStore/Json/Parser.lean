import RelationalStore.Json.Number

/- Reading JSON text. `Json.parse?` accepts one value between optional blanks, with containers
   nested at most 127 deep. A repeated member name keeps its first place and its last value, which
   `Json.read?` leaves to its caller, and a `\u` escape of half a surrogate pair is refused. -/
namespace RelationalStore.Json

/-- Space, tab, line feed and carriage return. -/
def skipBlanks (cs : List Char) : List Char :=
  cs.dropWhile fun c => c == ' ' || c == '\t' || c == '\n' || c == '\r'

/-- The value of a hexadecimal digit. -/
def hexDigit? (c : Char) : Option Nat :=
  if '0' ≤ c ∧ c ≤ '9' then some (c.toNat - 48)
  else if 'a' ≤ c ∧ c ≤ 'f' then some (c.toNat - 87)
  else if 'A' ≤ c ∧ c ≤ 'F' then some (c.toNat - 55)
  else none

/-- Four hexadecimal digits, and what follows them. -/
def hexUnit? : List Char → Option (Nat × List Char)
  | a :: b :: c :: d :: rest => do
    let a ← hexDigit? a
    let b ← hexDigit? b
    let c ← hexDigit? c
    let d ← hexDigit? d
    return (((a * 16 + b) * 16 + c) * 16 + d, rest)
  | _ => none

/-- The character after `\u`, written as one unit or as a surrogate pair. -/
def unicodeEscape? (cs : List Char) : Option (Char × List Char) := do
  let (first, rest) ← hexUnit? cs
  if 0xD800 ≤ first ∧ first < 0xDC00 then
    match rest with
    | '\\' :: 'u' :: rest => do
      let (second, rest) ← hexUnit? rest
      if 0xDC00 ≤ second ∧ second < 0xE000 then
        return (Char.ofNat (0x10000 + (first - 0xD800) * 0x400 + (second - 0xDC00)), rest)
      else none
    | _ => none
  else if 0xDC00 ≤ first ∧ first < 0xE000 then none
  else return (Char.ofNat first, rest)

/-- The rest of a string up to its closing quote; `acc` holds the characters read, last one
first. -/
def stringBody? : Nat → List Char → List Char → Option (String × List Char)
  | 0, _, _ => none
  | _ + 1, _, [] => none
  | _ + 1, acc, '"' :: rest => some (String.ofList acc.reverse, rest)
  | fuel + 1, acc, '\\' :: 'u' :: rest => do
    let (c, rest) ← unicodeEscape? rest
    stringBody? fuel (c :: acc) rest
  | fuel + 1, acc, '\\' :: c :: rest =>
    match c with
    | '"' | '\\' | '/' => stringBody? fuel (c :: acc) rest
    | 'b' => stringBody? fuel ('\x08' :: acc) rest
    | 'f' => stringBody? fuel ('\x0c' :: acc) rest
    | 'n' => stringBody? fuel ('\n' :: acc) rest
    | 'r' => stringBody? fuel ('\r' :: acc) rest
    | 't' => stringBody? fuel ('\t' :: acc) rest
    | _ => none
  | fuel + 1, acc, c :: rest =>
    if c.toNat < 32 ∨ c = '\\' then none else stringBody? fuel (c :: acc) rest

/-- The digits at the front, and what follows them. -/
def digits (cs : List Char) : List Nat × List Char :=
  ((cs.takeWhile Char.isDigit).map fun c => c.toNat - 48, cs.dropWhile Char.isDigit)

/-- The fraction of a number, if a point is written; a point needs a digit behind it. -/
def fraction? : List Char → Option (Option (List Nat) × List Char)
  | '.' :: rest =>
    match digits rest with
    | ([], _) => none
    | (ds, rest) => some (some ds, rest)
  | cs => some (none, cs)

/-- The exponent of a number, if one is written. -/
def exponent? : List Char → Option (Option Int × List Char)
  | c :: rest =>
    if c = 'e' ∨ c = 'E' then
      let (negative, rest) :=
        match rest with
        | '-' :: rest => (true, rest)
        | '+' :: rest => (false, rest)
        | rest => (false, rest)
      match digits rest with
      | ([], _) => none
      | (ds, rest) =>
        let n : Nat := ds.foldl (fun n d => n * 10 + d) 0
        some (some (if negative then -(n : Int) else n), rest)
    else some (none, c :: rest)
  | [] => some (none, [])

/-- A number; its whole part has no leading zero. -/
def number? (cs : List Char) : Option (Json × List Char) := do
  let (negative, cs) :=
    match cs with
    | '-' :: rest => (true, rest)
    | _ => (false, cs)
  let (whole, cs) ←
    match digits cs with
    | ([], _) => none
    | (0 :: _ :: _, _) => none
    | (ds, rest) => some (ds, rest)
  let (fraction, cs) ← fraction? cs
  let (exponent, cs) ← exponent? cs
  let literal : Literal :=
    { negative, whole, fraction := fraction.getD [],
      real := fraction.isSome || exponent.isSome, exponent := exponent.getD 0 }
  let value ← literal.value?
  return (value, cs)

mutual

/-- A value at the front of the text; `depth` more containers may be opened. -/
def value? : Nat → Nat → List Char → Option (Json × List Char)
  | 0, _, _ => none
  | fuel + 1, depth, cs =>
    match cs with
    | 'n' :: 'u' :: 'l' :: 'l' :: rest => some (.null, rest)
    | 't' :: 'r' :: 'u' :: 'e' :: rest => some (.bool true, rest)
    | 'f' :: 'a' :: 'l' :: 's' :: 'e' :: rest => some (.bool false, rest)
    | '"' :: rest => do
      let (s, rest) ← stringBody? (rest.length + 1) [] rest
      return (.string s, rest)
    | '[' :: rest =>
      match depth, skipBlanks rest with
      | 0, _ => none
      | _ + 1, ']' :: rest => some (.array [], rest)
      | depth + 1, rest => items? fuel depth [] rest
    | '\x7b' :: rest =>
      match depth, skipBlanks rest with
      | 0, _ => none
      | _ + 1, '\x7d' :: rest => some (.object [], rest)
      | depth + 1, rest => members? fuel depth [] rest
    | _ => number? cs

/-- The rest of an array, at the start of an item. -/
def items? : Nat → Nat → List Json → List Char → Option (Json × List Char)
  | 0, _, _, _ => none
  | fuel + 1, depth, acc, cs => do
    let (item, rest) ← value? fuel depth cs
    match skipBlanks rest with
    | ',' :: rest => items? fuel depth (item :: acc) (skipBlanks rest)
    | ']' :: rest => return (.array (item :: acc).reverse, rest)
    | _ => none

/-- The rest of an object, at the start of a member. -/
def members? : Nat → Nat → List (String × Json) → List Char → Option (Json × List Char)
  | 0, _, _, _ => none
  | fuel + 1, depth, acc, cs =>
    match cs with
    | '"' :: rest => do
      let (name, rest) ← stringBody? (rest.length + 1) [] rest
      match skipBlanks rest with
      | ':' :: rest => do
        let (value, rest) ← value? fuel depth (skipBlanks rest)
        let acc := (name, value) :: acc
        match skipBlanks rest with
        | ',' :: rest => members? fuel depth acc (skipBlanks rest)
        | '\x7d' :: rest => return (.object acc.reverse, rest)
        | _ => none
      | _ => none
    | _ => none

end

/-- Reads a text that may nest containers `depth` deep, with every member that is written. Each
call of the readers has used up at least half of a character per unit of fuel, so twice the length
suffices. -/
def readWithin? (depth : Nat) (text : String) : Option Json :=
  let cs := skipBlanks text.toList
  match value? (2 * cs.length + 2) depth cs with
  | some (value, rest) => if (skipBlanks rest).isEmpty then some value else none
  | none => none

/-- The most containers around a value, counting its own. -/
def maxDepth : Nat := 127

/-- Reads a text with every member that is written, so that a name may be repeated. -/
def read? (text : String) : Option Json := readWithin? maxDepth text

/-- Reads a text that may nest containers `depth` deep. -/
def parseWithin? (depth : Nat) (text : String) : Option Json :=
  (readWithin? depth text).map distinct

/-- Reads a text, with containers nested at most 127 deep. -/
def parse? (text : String) : Option Json := parseWithin? maxDepth text

end RelationalStore.Json

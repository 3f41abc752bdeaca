import RelationalStore.Decimal

/- The text of a decimal and the reading of one. Printing writes every place, so that reading it
   back gives the same mantissa and the same number of places. The reader of digits accepts a sign,
   `_` behind a digit and a point with digits on either side of it; places that do not fit are
   rounded at the first digit dropped, a five going up. Text with an exponent has a reader of its
   own, which moves the point of what the digits give. -/
namespace RelationalStore.Decimal

/-- The digits with at least one of them before the point. -/
def toText (d : Decimal) : String :=
  let digits := Nat.toDigits 10 d.magnitude
  let digits := List.replicate (d.scale + 1 - digits.length) '0' ++ digits
  let whole := digits.take (digits.length - d.scale)
  let places := digits.drop (digits.length - d.scale)
  String.ofList ((if d.negative then ['-'] else []) ++ whole ++
    (if places.isEmpty then [] else '.' :: places))

/-- The mantissa so far, the places so far, and whether a digit and a point were read. -/
structure Progress where
  mantissa : Nat
  scale : Nat
  digit : Bool
  point : Bool

/-- Drops a digit: from five on the last place kept is raised, and if that overflows the
mantissa, one more place goes. -/
def Progress.roundBy (p : Progress) (digit : Nat) : Option Progress :=
  if digit < 5 then some p
  else if p.mantissa < maxMantissa then some { p with mantissa := p.mantissa + 1 }
  else if p.scale = 0 then none
  else some { p with mantissa := (p.mantissa + 5) / 10, scale := p.scale - 1 }

/-- A mantissa below this takes another digit within 64 bits; the bound is 255 below the greatest
that would do. -/
def wordLimit : Nat := (Nat.pow 2 64 - 1) / 10 - 255

/-- Whether a `_` that follows stands for a dropped zero: no place is left, and the last digit
was read into 64 bits. -/
def Progress.isClosedByBlank (p : Progress) : Bool :=
  p.point && p.scale == maxScale && decide (p.mantissa / 10 < wordLimit)

/-- Reads digits, blanks of the form `_` and one point. Once a digit does not fit, the rest is
dropped. -/
def readDigits : Progress → List Char → Option Progress
  | p, [] => if p.digit then some p else none
  | p, c :: rest =>
    let dropped := rest.all fun c => c.isDigit || c == '_'
    if c.isDigit then
      let digit := c.toNat - 48
      let mantissa := p.mantissa * 10 + digit
      let scale := if p.point then p.scale + 1 else p.scale
      if fits mantissa scale then readDigits ⟨mantissa, scale, true, p.point⟩ rest
      else if p.point && dropped then p.roundBy digit
      else none
    else if c = '.' ∧ !p.point then readDigits { p with point := true } rest
    else if c = '_' ∧ p.digit then
      if p.isClosedByBlank then if dropped then some p else none
      else readDigits p rest
    else none

/-- A sign in front of unsigned text. -/
def splitSign : List Char → Bool × List Char
  | '-' :: rest => (true, rest)
  | '+' :: rest => (false, rest)
  | cs => (false, cs)

/-- Text without exponent; zero has no sign. -/
def readPlain? (cs : List Char) : Option Decimal :=
  let (negative, cs) := splitSign cs
  (readDigits ⟨0, 0, false, false⟩ cs).map fun p => ofParts negative p.mantissa p.scale

/-- Moves the point to the right. Beyond the last place zeros are added. -/
def shiftRight? (d : Decimal) (places : Nat) : Option Decimal :=
  if maxScale < places then none
  else if places ≤ d.scale then some { d with scale := d.scale - places }
  else
    let magnitude := d.magnitude * Nat.pow 10 (places - d.scale)
    if magnitude ≤ maxMantissa then some ⟨d.negative, magnitude, 0⟩ else none

/-- Moves the point to the left. Digits beyond the greatest number of places are dropped, half
of the last place kept going up; a zero that this leaves keeps the sign. -/
def shiftLeft? (d : Decimal) (places : Nat) : Option Decimal :=
  if maxScale < places then none
  else
    let unit := Nat.pow 10 (d.scale + places - maxScale)
    some ⟨d.negative, (d.magnitude + unit / 2) / unit, min (d.scale + places) maxScale⟩

/-- The exponent behind its mark: digits, with an optional `-` and then an optional `+` before
them. -/
def readExponent? (cs : List Char) : Option (Bool × Nat) :=
  let (left, cs) :=
    match cs with
    | '-' :: rest => (true, rest)
    | cs => (false, cs)
  let cs :=
    match cs with
    | '+' :: rest => rest
    | cs => cs
  if cs.isEmpty || !cs.all Char.isDigit then none
  else some (left, cs.foldl (fun n c => n * 10 + (c.toNat - 48)) 0)

/-- What stands in front of an exponent. -/
def isMark (c : Char) : Bool := c == 'e' || c == 'E'

/-- Reads decimal text without an exponent. -/
def ofDigits? (text : String) : Option Decimal := readPlain? text.toList

/-- Reads decimal text with an exponent. -/
def ofScientific? (text : String) : Option Decimal :=
  match text.toList.dropWhile (!isMark ·) with
  | [] => none
  | _ :: exponent => do
    let base ← readPlain? (text.toList.takeWhile (!isMark ·))
    let (left, places) ← readExponent? exponent
    if left then base.shiftLeft? places else base.shiftRight? places

/-- Reads decimal text, with or without an exponent. -/
def ofText? (text : String) : Option Decimal :=
  if text.toList.any isMark then ofScientific? text else ofDigits? text

/-- Readers of decimal text: of all of it, and of that with an exponent. -/
structure Readers where
  text : String → Option Decimal
  scientific : String → Option Decimal

def readers : Readers := ⟨ofText?, ofScientific?⟩

end RelationalStore.Decimal

import RelationalStore.Binary64

/- The fewest decimal digits that read back as a given floating-point number, and the text made of
   them. A number owns the interval of reals that round to it, ends included when its mantissa is
   even. For 1, 2, … 17 digits the two neighbours of the number on that decimal grid are tested; the
   first grid with a hit wins, and of two hits the nearer one, an exact tie going to the even last
   digit. -/
namespace RelationalStore.Binary64

/-- `digits · 10 ^ exponent`. -/
structure Decimals where
  digits : Nat
  exponent : Int

/-- Whether `c · 10 ^ e` is at most `num / den`. -/
def gridLE (c : Nat) (e : Int) (num den : Nat) : Bool :=
  if e < 0 then c * den ≤ num * Nat.pow 10 (-e).toNat else c * Nat.pow 10 e.toNat * den ≤ num

/-- Whether `c · 10 ^ e` is less than `num / den`. -/
def gridLT (c : Nat) (e : Int) (num den : Nat) : Bool :=
  if e < 0 then c * den < num * Nat.pow 10 (-e).toNat else c * Nat.pow 10 e.toNat * den < num

/-- The greatest `k` with `10 ^ k ≤ num / den`, found from the binary logarithms and corrected
upwards by at most two steps. -/
def decade (num den : Nat) : Int :=
  let guess : Int := Int.fdiv (((num.log2 : Int) - den.log2 - 1) * 30103) 100000 - 1
  let step (k : Int) : Int := if gridLE 1 (k + 1) num den then k + 1 else k
  step (step (step guess))

/-- The interval of reals that round to a positive number `m · 2 ^ q`: the number, its lower and
its upper end over one denominator, in quarters of the unit `2 ^ q`. Below a power of two the
neighbour is only half a unit away. -/
structure Neighbourhood where
  value : Nat
  low : Nat
  high : Nat
  den : Nat
  closed : Bool

def neighbourhood (m : Nat) (q : Int) : Neighbourhood :=
  let below := if m = Nat.pow 2 52 ∧ -1074 < q then 4 * m - 1 else 4 * m - 2
  let up := (q - 2).toNat
  { value := 4 * m * Nat.pow 2 up, low := below * Nat.pow 2 up, high := (4 * m + 2) * Nat.pow 2 up,
    den := Nat.pow 2 (2 - q).toNat, closed := m % 2 = 0 }

namespace Neighbourhood

/-- Whether `c · 10 ^ e` rounds to the number. -/
def has (i : Neighbourhood) (c : Nat) (e : Int) : Bool :=
  if i.closed then !gridLT c e i.low i.den && gridLE c e i.high i.den
  else !gridLE c e i.low i.den && gridLT c e i.high i.den

/-- The best point of the grid of multiples of `10 ^ e`, if one rounds to the number. -/
def onGrid (i : Neighbourhood) (e : Int) : Option Nat :=
  let floor :=
    if e < 0 then i.value * Nat.pow 10 (-e).toNat / i.den
    else i.value / (Nat.pow 10 e.toNat * i.den)
  match i.has floor e, i.has (floor + 1) e with
  | false, false => none
  | true, false => some floor
  | false, true => some (floor + 1)
  | true, true =>
    if gridLT (2 * floor + 1) e (2 * i.value) i.den then some (floor + 1)
    else if gridLE (2 * floor + 1) e (2 * i.value) i.den then
      some (if floor % 2 = 0 then floor else floor + 1)
    else some floor

/-- Tries grids with one more digit each, at most `fuel` of them. -/
def search (i : Neighbourhood) (top : Int) : Nat → Nat → Decimals
  | 0, n => ⟨i.value / i.den, top - n⟩
  | fuel + 1, n =>
    match i.onGrid (top - n) with
    | some c => ⟨c, top - n⟩
    | none => search i top fuel (n + 1)

end Neighbourhood

/-- The fewest digits that read back as `m · 2 ^ q`; 17 are always enough. -/
def shortest (m : Nat) (q : Int) : Decimals :=
  let i := neighbourhood m q
  i.search (decade i.value i.den) 17 0

/-- The digits of a number without the zeros at its end. -/
def significant (n : Nat) : List Char :=
  ((Nat.toDigits 10 n).reverse.dropWhile (· == '0')).reverse

/-- How digits become text: scientific exponents from `fixedFrom` up to `fixedBelow` are written
positionally. -/
structure Style where
  fixedFrom : Int
  fixedBelow : Int
  /-- What is behind the digits of a whole number that is written positionally. -/
  wholeEnd : List Char

/-- Numbers from 0.00001 up to 10^16 are written positionally, with a digit on each side of the
point. -/
def Style.document : Style := ⟨-5, 16, ['.', '0']⟩

/-- Every number is written positionally, a whole one without a point. -/
def Style.positional : Style := ⟨-400, 400, []⟩

/-- Positional text has at least one digit before the point. -/
def Style.fixedText (style : Style) (digits : List Char) (scientific : Int) : List Char :=
  if scientific < 0 then
    '0' :: '.' :: (List.replicate (-scientific - 1).toNat '0' ++ digits)
  else
    let whole := scientific.toNat + 1
    let padded := digits ++ List.replicate (whole - digits.length) '0'
    let rest := padded.drop whole
    padded.take whole ++ (if rest.isEmpty then style.wholeEnd else '.' :: rest)

/-- Scientific text has one digit before the point, no point without further digits, and always
a sign on its exponent. -/
def scientificText (digits : List Char) (scientific : Int) : List Char :=
  let sign := if scientific < 0 then '-' else '+'
  let power := 'e' :: sign :: Nat.toDigits 10 scientific.natAbs
  match digits with
  | [] => power
  | [d] => d :: power
  | d :: rest => d :: '.' :: (rest ++ power)

/-- The text of a finite number; zero keeps its sign. -/
def Style.render (style : Style) (negative : Bool) (m : Nat) (q : Int) : List Char :=
  let sign := if negative then ['-'] else []
  if m = 0 then sign ++ '0' :: style.wholeEnd
  else
    let short := shortest m q
    let scientific := short.exponent + (Nat.toDigits 10 short.digits).length - 1
    let digits := significant short.digits
    if style.fixedFrom ≤ scientific ∧ scientific < style.fixedBelow then
      sign ++ style.fixedText digits scientific
    else
      sign ++ scientificText digits scientific

/-- The text of a number in a style, if it is finite. -/
def textIn? (style : Style) (x : Binary64) : Option String :=
  match x.classify with
  | .finite s m q => some (String.ofList (style.render s m q))
  | _ => none

/-- The text of a number in a document, if it is finite. -/
def text? (x : Binary64) : Option String := textIn? .document x

end RelationalStore.Binary64

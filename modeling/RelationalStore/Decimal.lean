import RelationalStore.Binary64

/- Decimal numbers with at most 28 places and a mantissa of at most 96 bits. The number of places is
   kept, so `1.50` and `1.5` are different decimals of one value; the order compares values. Every
   operation computes the exact result and rounds it once, half to even, to the most places that
   fit; it fails where even the integer part does not fit. A number that was rounded down to nothing
   may keep its sign, so zero has a sign as well, which no comparison looks at. -/
namespace RelationalStore

/-- `±magnitude / 10 ^ scale`. -/
structure Decimal where
  negative : Bool
  magnitude : Nat
  scale : Nat
  deriving DecidableEq, Inhabited

namespace Decimal

/-- The greatest mantissa, 96 bits of ones. -/
def maxMantissa : Nat := Nat.pow 2 96 - 1

/-- The greatest number of places. -/
def maxScale : Nat := 28

/-- Whether a mantissa of this magnitude and this many places can be held. -/
def fits (magnitude scale : Nat) : Bool := magnitude ≤ maxMantissa && scale ≤ maxScale

/-- A number whose zero has no sign. -/
def ofParts (negative : Bool) (magnitude scale : Nat) : Decimal :=
  ⟨negative && magnitude != 0, magnitude, scale⟩

def ofInt (n : Int) : Decimal := ⟨decide (n < 0), n.natAbs, 0⟩

/-- Zero without places. -/
def zero : Decimal := ofInt 0

def isZero (d : Decimal) : Bool := d.magnitude == 0

def neg (d : Decimal) : Decimal := { d with negative := !d.negative }

/-- The digits of the number with its sign, as an integer. -/
def mantissa (d : Decimal) : Int := if d.negative then -(d.magnitude : Int) else d.magnitude

@[simp] theorem mantissa_ofInt (n : Int) : (ofInt n).mantissa = n := by
  simp only [mantissa, ofInt, decide_eq_true_eq]
  split <;> omega

@[simp] theorem mantissa_neg (d : Decimal) : d.neg.mantissa = -d.mantissa := by
  cases h : d.negative <;> simp [mantissa, neg, h]

/-- The mantissa that `d` has when written with `scale` places, at least its own. -/
def unitsAt (d : Decimal) (scale : Nat) : Int := d.mantissa * Nat.pow 10 (scale - d.scale)

/-- The order of the values. -/
def compareValue (a b : Decimal) : Ordering :=
  let scale := max a.scale b.scale
  compare (a.unitsAt scale) (b.unitsAt scale)

instance : Ord Decimal := ⟨compareValue⟩

/-- `±num / den` rounded half to even at `scale` places, or at the most places below that
fit. -/
def roundAt? (negative : Bool) (num den : Nat) (scale : Nat) : Option Decimal :=
  let magnitude := Binary64.nearestEven (num * Nat.pow 10 scale) den
  if magnitude ≤ maxMantissa then some ⟨negative, magnitude, scale⟩
  else
    match scale with
    | 0 => none
    | fewer + 1 => roundAt? negative num den fewer

/-- `±units / 10 ^ scale`, rounded only where it does not fit. -/
def fit? (negative : Bool) (units scale : Nat) : Option Decimal :=
  roundAt? negative units (Nat.pow 10 scale) (min scale maxScale)

/-- The sum of two numbers that are not zero; a sum of zero has no sign. -/
def addUnits? (a b : Decimal) : Option Decimal :=
  let scale := max a.scale b.scale
  let units := a.unitsAt scale + b.unitsAt scale
  fit? (units < 0) units.natAbs scale

/-- Zero added to a number leaves it as it is, with its places. -/
def add? (a b : Decimal) : Option Decimal :=
  if a.isZero then some b
  else if b.isZero then some a
  else addUnits? a b

/-- Zero taken from a number leaves it as it is, and a number taken from zero changes its
sign. -/
def sub? (a b : Decimal) : Option Decimal :=
  if b.isZero then some (if a.isZero then b else a)
  else if a.isZero then some b.neg
  else addUnits? a b.neg

/-- Whether the mantissa takes no more than 32 bits. -/
def isShort (d : Decimal) : Bool := d.magnitude < Nat.pow 2 32

/-- The most places of a product of short mantissas that is rounded; one with more is zero. -/
def maxProductScale : Nat := maxScale + 19

/-- A product has the places of both operands; a zero operand gives plain zero. A product that
is rounded to zero keeps its sign, except that of two short mantissas. -/
def mul? (a b : Decimal) : Option Decimal :=
  let scale := a.scale + b.scale
  let negative := a.negative != b.negative
  if a.isZero || b.isZero then some zero
  else if a.isShort && b.isShort then
    if maxProductScale < scale then some zero
    else (fit? negative (a.magnitude * b.magnitude) scale).map fun d =>
      ofParts d.negative d.magnitude d.scale
  else fit? negative (a.magnitude * b.magnitude) scale

/-- Removes the zeros at the end of the places. -/
def stripZeros (negative : Bool) (magnitude : Nat) : Nat → Decimal
  | 0 => ofParts negative magnitude 0
  | scale + 1 =>
    if magnitude % 10 = 0 then stripZeros negative (magnitude / 10) scale
    else ofParts negative magnitude (scale + 1)

/-- A quotient of mantissas without remainder keeps the difference of the places; any other
quotient has as many places as it needs. There is no quotient by zero. -/
def div? (a b : Decimal) : Option Decimal :=
  let negative := a.negative != b.negative
  if b.isZero then none
  else if a.isZero then some zero
  else if a.magnitude % b.magnitude = 0 ∧ b.scale ≤ a.scale then
    some ⟨negative, a.magnitude / b.magnitude, a.scale - b.scale⟩
  else
    let num := a.magnitude * Nat.pow 10 b.scale
    let den := b.magnitude * Nat.pow 10 a.scale
    (roundAt? negative num den maxScale).map fun q => stripZeros q.negative q.magnitude q.scale

/-- `10 ^ n` by squaring in floating point, each product rounded. -/
def powerOfTen : Nat → Binary64 → Binary64 → Nat → Binary64
  | 0, acc, _, _ => acc
  | steps + 1, acc, square, n =>
    let acc := if n % 2 = 1 then acc.mul square else acc
    if n / 2 = 0 then acc else powerOfTen steps acc (square.mul square) (n / 2)

/-- The value as a floating-point number: whole part and fraction are converted on their own,
and their sum is rounded to the decimal's places again. -/
def toBinary64 (d : Decimal) : Binary64 :=
  if d.scale = 0 then .ofInt d.mantissa
  else
    let sign (x : Binary64) : Binary64 := if d.negative then x.neg else x
    let whole := Binary64.ofNat (d.magnitude / Nat.pow 10 d.scale)
    let rest := d.magnitude % Nat.pow 10 d.scale
    if rest = 0 then sign whole
    else
      let fraction := (Binary64.ofNat rest).div (.ofNat (Nat.pow 10 d.scale))
      let unit := powerOfTen 6 (.ofNat 1) (.ofNat 10) d.scale
      sign ((((whole.add fraction).mul unit).round).div unit)

end Decimal

end RelationalStore

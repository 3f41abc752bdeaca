/- Floating-point numbers of 64 bits as a sign, an exponent of 11 bits and a fraction of 52 bits. A
   finite number stands for `±m · 2^q`; every operation computes the exact rational result and
   rounds it once, to the nearest number, ties to the even one. The order on all bit patterns is the
   order of an integer, `orderKey`, so it is total. -/
namespace RelationalStore

/-- A floating-point number, as the bits that hold it. -/
structure Binary64 where
  bits : UInt64
  deriving DecidableEq, Inhabited

namespace Binary64

/-- What the bits stand for. -/
inductive Class where
  | nan
  | infinite (negative : Bool)
  | finite (negative : Bool) (mantissa : Nat) (exponent : Int)

def isNegative (x : Binary64) : Bool := Nat.pow 2 63 ≤ x.bits.toNat

/-- The exponent field. -/
def biased (x : Binary64) : Nat := x.bits.toNat / Nat.pow 2 52 % Nat.pow 2 11

def fraction (x : Binary64) : Nat := x.bits.toNat % Nat.pow 2 52

/-- Whether the number is zero, of either sign. -/
def isZero (x : Binary64) : Bool := x.bits.toNat % Nat.pow 2 63 == 0

def isFinite (x : Binary64) : Bool := x.biased != 2047

/-- A number with exponent field 0 has no implicit leading bit. -/
def classify (x : Binary64) : Class :=
  if x.biased = 2047 then
    if x.fraction = 0 then .infinite x.isNegative else .nan
  else if x.biased = 0 then
    .finite x.isNegative x.fraction (-1074)
  else
    .finite x.isNegative (Nat.pow 2 52 + x.fraction) (x.biased - 1075)

private def signBit (negative : Bool) : Nat := if negative then Nat.pow 2 63 else 0

def zero (negative : Bool) : Binary64 := ⟨UInt64.ofNat (signBit negative)⟩

def infinity (negative : Bool) : Binary64 := ⟨UInt64.ofNat (signBit negative + 2047 * Nat.pow 2 52)⟩

/-- The result of an operation that has none, such as infinity minus infinity. -/
def indefinite : Binary64 := ⟨UInt64.ofNat (Nat.pow 2 63 + 4095 * Nat.pow 2 51)⟩

/-- The nearest natural number to `num / den`, a tie going to the even one. -/
def nearestEven (num den : Nat) : Nat :=
  let quotient := num / den
  let twice := 2 * (num % den)
  if twice < den then quotient
  else if den < twice then quotient + 1
  else if quotient % 2 = 0 then quotient else quotient + 1

/-- `num / den` divided by `2 ^ q`, as a fraction. -/
def scaleDown (num den : Nat) (q : Int) : Nat × Nat :=
  if q < 0 then (num * Nat.pow 2 (-q).toNat, den) else (num, den * Nat.pow 2 q.toNat)

/-- The number nearest to `±num / den`. The unit in the last place, `2 ^ q`, is the one that
leaves 53 bits, but never below `2 ^ (-1074)`; a carry out of the fraction moves into the
exponent field by itself. -/
def ofRatio (negative : Bool) (num den : Nat) : Binary64 :=
  if num = 0 then zero negative
  else
    let low : Int := max ((num.log2 : Int) - den.log2 - 53) (-1074)
    let (n, d) := scaleDown num den low
    let q := if Nat.pow 2 53 ≤ n / d then low + 1 else low
    let (n, d) := scaleDown num den q
    let magnitude := (q + 1074).toNat * Nat.pow 2 52 + nearestEven n d
    if 2047 * Nat.pow 2 52 ≤ magnitude then infinity negative
    else ⟨UInt64.ofNat (signBit negative + magnitude)⟩

/-- The number nearest to `±m · 2 ^ q`. -/
def ofScaled (negative : Bool) (m : Nat) (q : Int) : Binary64 :=
  if q < 0 then ofRatio negative m (Nat.pow 2 (-q).toNat)
  else ofRatio negative (m * Nat.pow 2 q.toNat) 1

def ofInt (n : Int) : Binary64 := ofRatio (n < 0) n.natAbs 1

def ofNat (n : Nat) : Binary64 := ofRatio false n 1

def neg (x : Binary64) : Binary64 := ⟨x.bits ^^^ UInt64.ofNat (Nat.pow 2 63)⟩

/-- The exact sum, rounded once. A sum of zero is positive unless both operands are negative. -/
def add (x y : Binary64) : Binary64 :=
  match x.classify, y.classify with
  | .nan, _ => x
  | _, .nan => y
  | .infinite s, .infinite t => if s = t then x else indefinite
  | .infinite _, .finite .. => x
  | .finite .., .infinite _ => y
  | .finite s m p, .finite t n q =>
    let unit := min p q
    let a : Int := m * Nat.pow 2 (p - unit).toNat
    let b : Int := n * Nat.pow 2 (q - unit).toNat
    let sum := (if s then -a else a) + (if t then -b else b)
    if sum = 0 then zero (s && t) else ofScaled (sum < 0) sum.natAbs unit

def sub (x y : Binary64) : Binary64 :=
  match y.classify with
  | .nan => add x y
  | _ => add x y.neg

/-- The exact product, rounded once. -/
def mul (x y : Binary64) : Binary64 :=
  match x.classify, y.classify with
  | .nan, _ => x
  | _, .nan => y
  | .infinite s, .infinite t => infinity (s != t)
  | .infinite s, .finite t n _ => if n = 0 then indefinite else infinity (s != t)
  | .finite s m _, .infinite t => if m = 0 then indefinite else infinity (s != t)
  | .finite s m p, .finite t n q => ofScaled (s != t) (m * n) (p + q)

/-- The exact quotient, rounded once. -/
def div (x y : Binary64) : Binary64 :=
  match x.classify, y.classify with
  | .nan, _ => x
  | _, .nan => y
  | .infinite _, .infinite _ => indefinite
  | .infinite s, .finite t .. => infinity (s != t)
  | .finite s .., .infinite t => zero (s != t)
  | .finite s m p, .finite t n q =>
    if n = 0 then (if m = 0 then indefinite else infinity (s != t))
    else
      let (a, b) := scaleDown m n (q - p)
      ofRatio (s != t) a b

/-- The nearest integer, a half going away from zero. -/
def round (x : Binary64) : Binary64 :=
  match x.classify with
  | .finite s m q =>
    if 0 ≤ q then x
    else ofRatio s ((2 * m + Nat.pow 2 (-q).toNat) / (2 * Nat.pow 2 (-q).toNat)) 1
  | _ => x

/-- The place of a number in the order of all numbers: the negative ones from the greatest
magnitude down, then the positive ones. -/
def orderKey (x : Binary64) : Int :=
  let n : Int := x.bits.toNat
  if x.isNegative then Nat.pow 2 63 - 1 - n else n

instance : Ord Binary64 := ⟨fun x y => compare x.orderKey y.orderKey⟩

end Binary64

end RelationalStore

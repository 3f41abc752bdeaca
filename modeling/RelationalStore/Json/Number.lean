import RelationalStore.Json

/- The value of a JSON number literal. A literal without fraction and exponent that fits in 64 bits
   is an integer, any other literal is a floating-point number, and so is `-0`. A literal beyond the
   range of the floating-point numbers has no value. -/
namespace RelationalStore.Json

/-- A number literal in its parts; the digits are given from the left. -/
structure Literal where
  negative : Bool
  whole : List Nat
  fraction : List Nat
  /-- Whether a point or an exponent is written. -/
  real : Bool
  exponent : Int

namespace Literal

/-- Takes digits from the left for as long as the number made of them is below `2 ^ 64`, and
gives that number and the digits left over. -/
def takeWord (acc : Nat) : List Nat → Nat × List Nat
  | [] => (acc, [])
  | d :: rest =>
    let next := acc * 10 + d
    if next < Nat.pow 2 64 then takeWord next rest else (acc, d :: rest)

/-- `x · 10 ^ e` in floating-point steps: one step for a power of ten that is itself in range,
otherwise repeated division by `10 ^ 308`. There is no value beyond the greatest number. -/
def scale : Nat → Binary64 → Int → Option Binary64
  | 0, x, _ => some x
  | steps + 1, x, e =>
    if e.natAbs ≤ 308 then
      if 0 ≤ e then
        let y := x.mul (.ofNat (Nat.pow 10 e.toNat))
        if y.isFinite then some y else none
      else some (x.div (.ofNat (Nat.pow 10 e.natAbs)))
    else if x = .zero false then some x
    else if 0 ≤ e then none
    else scale steps (x.div (.ofNat (Nat.pow 10 308))) (e + 308)

/-- Digits beyond the first 64 bits count by their place only, and are dropped behind the
point. -/
def float? (l : Literal) : Option Binary64 :=
  let (whole, skipped) := takeWord 0 l.whole
  let (significand, dropped) := takeWord whole l.fraction
  let places := l.fraction.length - dropped.length
  match scale 4 (.ofNat significand) (skipped.length - places + l.exponent) with
  | some x => some (if l.negative then x.neg else x)
  | none => none

def value? (l : Literal) : Option Json :=
  let (n, skipped) := takeWord 0 l.whole
  if l.real || !skipped.isEmpty then l.float?.map .float
  else if l.negative then
    if 0 < n ∧ n ≤ Nat.pow 2 63 then some (.int (-n)) else l.float?.map .float
  else some (.int n)

end Literal

end RelationalStore.Json

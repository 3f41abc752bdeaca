import RelationalStore.DateTime

/- Where new values come from: a clock and a counter. Every look at the clock moves it on, so that
   no two looks see the same time, and every identifier that is drawn takes the next serial number,
   so that no two are the same.

   An identifier has 128 bits: the milliseconds of the clock in the upper 48, the serial number in
   the lower 80. It is written as a version 4 UUID, in which the bits for version and variant take
   the place of what was there, or as `c` and 26 lowercase digits in base 32. -/
namespace RelationalStore

/-- A clock and a counter. -/
structure Supply where
  /-- The next time, in nanoseconds since the epoch. -/
  time : Nat
  /-- The next serial number. -/
  serial : Nat := 1
  deriving Inhabited

namespace Supply

/-- How far the clock moves with every look at it, in nanoseconds. -/
def tick : Nat := 1000

/-- The current time, in UTC. -/
def now (s : Supply) : DateTime × Supply := (⟨s.time, 0⟩, { s with time := s.time + tick })

/-- A fresh token. -/
def token (s : Supply) : Nat × Supply :=
  let upper := s.time / 1000000 % Nat.pow 2 48
  let lower := s.serial % Nat.pow 2 80
  (upper * Nat.pow 2 80 + lower, { s with serial := s.serial + 1 })

/-- The digits of a base-32 number: without the letters that look like others. -/
def base32Digits : List Char := "0123456789abcdefghjkmnpqrstvwxyz".toList

def hexDigits : List Char := "0123456789abcdef".toList

/-- The lowest `width` digits of a number, the highest of them first; the base is the number of
digits there are. -/
def digitsOf (digits : List Char) : Nat → Nat → List Char
  | 0, _ => []
  | width + 1, n =>
    digitsOf digits width (n / digits.length) ++ (digits[n % digits.length]?).toList

/-- Puts `value` in place of `width` bits of a number, from bit `low` upwards. -/
def setBits (n low width value : Nat) : Nat :=
  n % Nat.pow 2 low + value * Nat.pow 2 low + n / Nat.pow 2 (low + width) * Nat.pow 2 (low + width)

/-- A token as a version 4 UUID. -/
def uuidText (n : Nat) : String :=
  let hex := digitsOf hexDigits 32 (setBits (setBits n 76 4 4) 62 2 2)
  let part (start len : Nat) := String.ofList ((hex.drop start).take len)
  "-".intercalate [part 0 8, part 8 4, part 12 4, part 16 4, part 20 12]

/-- A token as `c` and 26 digits in base 32. -/
def cuidText (n : Nat) : String := String.ofList ('c' :: digitsOf base32Digits 26 n)

end Supply

end RelationalStore

import RelationalStore.Calendar

/- Points in time with the offset they were written in, and their RFC 3339 text. Two of them are
   ordered by the instant alone. Printing needs a local year between 0 and 9999; digits of the
   second are written up to the last one that is not zero. -/
namespace RelationalStore

/-- An instant, in nanoseconds since 1970-01-01T00:00:00Z, and an offset east of UTC. -/
structure DateTime where
  nanoseconds : Int
  offsetMinutes : Int
  deriving DecidableEq, Inhabited

namespace DateTime

instance : Ord DateTime := ⟨fun a b => compare a.nanoseconds b.nanoseconds⟩

def nanosPerSecond : Int := 1000000000

def nanosPerDay : Int := 86400 * nanosPerSecond

/-- The instant of a number of milliseconds, within the years -9999 to 9999. -/
def ofMillis? (millis : Int) : Option DateTime :=
  let first := (CivilDate.mk (-9999) 1 1).toDays * 86400000
  let afterLast := (CivilDate.mk 10000 1 1).toDays * 86400000
  if first ≤ millis ∧ millis < afterLast then some ⟨millis * 1000000, 0⟩ else none

/-- The instant on the clock of the offset. -/
def localNanos (t : DateTime) : Int := t.nanoseconds + t.offsetMinutes * 60 * nanosPerSecond

/-- A number with at least `width` digits. -/
def padded (width n : Nat) : List Char :=
  let digits := Nat.toDigits 10 n
  List.replicate (width - digits.length) '0' ++ digits

/-- The part of a second behind the point, without zeros at its end. -/
def fractionText (nanos : Nat) : List Char :=
  if nanos = 0 then []
  else '.' :: ((padded 9 nanos).reverse.dropWhile (· == '0')).reverse

def offsetText (minutes : Int) : List Char :=
  if minutes = 0 then ['Z']
  else
    (if minutes < 0 then '-' else '+') :: padded 2 (minutes.natAbs / 60) ++
      ':' :: padded 2 (minutes.natAbs % 60)

/-- The RFC 3339 text; there is none for a local year below 0 or above 9999. -/
def toText? (t : DateTime) : Option String :=
  let date := CivilDate.ofDays (t.localNanos / nanosPerDay)
  let time := (t.localNanos % nanosPerDay).toNat
  let second := time / 1000000000
  if 0 ≤ date.year ∧ date.year ≤ 9999 then
    some (String.ofList (padded 4 date.year.toNat ++ '-' :: padded 2 date.month ++
      '-' :: padded 2 date.day ++ 'T' :: padded 2 (second / 3600) ++
      ':' :: padded 2 (second / 60 % 60) ++ ':' :: padded 2 (second % 60) ++
      fractionText (time % 1000000000) ++ offsetText t.offsetMinutes))
  else none

/-- A number of exactly `width` digits, and what follows it. -/
def takeNumber? : Nat → Nat → List Char → Option (Nat × List Char)
  | 0, acc, cs => some (acc, cs)
  | width + 1, acc, c :: rest =>
    if c.isDigit then takeNumber? width (acc * 10 + (c.toNat - 48)) rest else none
  | _ + 1, _, [] => none

/-- The given character, and what follows it. -/
def expect? (c : Char) : List Char → Option (List Char)
  | d :: rest => if d = c then some rest else none
  | [] => none

/-- The nanoseconds behind a point; digits after the ninth are dropped. -/
def takeFraction? : List Char → Option (Nat × List Char)
  | '.' :: rest =>
    let digits := rest.takeWhile Char.isDigit
    if digits.isEmpty then none
    else
      let kept := digits.take 9
      let n := kept.foldl (fun n c => n * 10 + (c.toNat - 48)) 0
      some (n * Nat.pow 10 (9 - kept.length), rest.dropWhile Char.isDigit)
  | cs => some (0, cs)

/-- The offset at the end of a text, in minutes. -/
def takeOffset? : List Char → Option Int
  | ['Z'] => some 0
  | ['z'] => some 0
  | sign :: rest => do
    let negative ← if sign = '-' then some true else if sign = '+' then some false else none
    let (hours, rest) ← takeNumber? 2 0 rest
    let rest ← expect? ':' rest
    let (minutes, rest) ← takeNumber? 2 0 rest
    if hours ≤ 23 ∧ minutes ≤ 59 ∧ rest = [] then
      let total : Int := hours * 60 + minutes
      return if negative then -total else total
    else none
  | [] => none

/-- Whether an instant is within the last second of a month of UTC, where a leap second may be
put in. -/
def atMonthEnd (t : DateTime) : Bool :=
  let date := CivilDate.ofDays (t.nanoseconds / nanosPerDay)
  t.nanoseconds % nanosPerDay / nanosPerSecond == 86399 &&
    date.day == CivilDate.daysInMonth date.year date.month &&
    -9999 ≤ date.year && date.year ≤ 9999

/-- Reads RFC 3339 text; any one byte may stand between date and time. A leap second is read as
the last nanosecond before it. -/
def ofText? (text : String) : Option DateTime := do
  let (year, cs) ← takeNumber? 4 0 text.toList
  let cs ← expect? '-' cs
  let (month, cs) ← takeNumber? 2 0 cs
  let cs ← expect? '-' cs
  let (day, cs) ← takeNumber? 2 0 cs
  let cs ←
    match cs with
    | c :: rest => if c.toNat < 128 then some rest else none
    | [] => none
  let (hour, cs) ← takeNumber? 2 0 cs
  let cs ← expect? ':' cs
  let (minute, cs) ← takeNumber? 2 0 cs
  let cs ← expect? ':' cs
  let (second, cs) ← takeNumber? 2 0 cs
  let (nanos, cs) ← takeFraction? cs
  let offset ← takeOffset? cs
  let date : CivilDate := ⟨year, month, day⟩
  if !date.isValid || 23 < hour || 59 < minute || 60 < second then none
  else
    let leap := second == 60
    let nanos := if leap then 999999999 else nanos
    let second := if leap then 59 else second
    let seconds : Int := date.toDays * 86400 + hour * 3600 + minute * 60 + second - offset * 60
    let t : DateTime := ⟨seconds * nanosPerSecond + nanos, offset⟩
    if leap && !t.atMonthEnd then none else some t

end DateTime

end RelationalStore

import RelationalStore.Proofs.DecimalText

/- An instant is printed by the calendar and the clock of its offset, and read by them again. The
   calendar counts days in both directions: an era of 400 years is cut into centuries, these into
   spans of four years, and these into years that begin in March, so that a day that a leap year has
   more is the last of its year, of its span, of its century or of its era (`CivilDate.InEra`). The
   rest of the text are numbers of fixed width, which end where the next sign stands. So every
   instant that has a text is read from it with its offset (`DateTime.ofText?_toText?`). -/
namespace RelationalStore

/-! ### Dates -/

namespace CivilDate
variable {dayOfEra century span year day days : Int}

/-- The day of an era lies in a century of it, there in a span of four years, and there in a year. Only
the last year of a span may have a day more, and in the last span of a century only if it is the last of
the era. -/
structure InEra (dayOfEra century span year day : Int) : Prop where
  eq : dayOfEra = 36524 * century + 1461 * span + 365 * year + day
  centuries : 0 ≤ century ∧ century ≤ 3
  spans : 0 ≤ span ∧ span ≤ 24
  years : 0 ≤ year ∧ year ≤ 3
  days : 0 ≤ day ∧ day ≤ 365
  leap : day = 365 → year = 3 ∧ (span = 24 → century = 3)

theorem exists_inEra (h : 0 ≤ dayOfEra) (h' : dayOfEra < eraDays) :
    ∃ century span year day, InEra dayOfEra century span year day := by
  rw [eraDays] at h'
  -- The last day of an era, a span or a year that has one more would begin the next.
  have hcentury : ∃ century rest : Int, dayOfEra = 36524 * century + rest ∧ 0 ≤ century ∧ century ≤ 3 ∧
      0 ≤ rest ∧ rest ≤ 36524 ∧ (rest = 36524 → century = 3) := by
    by_cases hlast : dayOfEra = 146096
    · exact ⟨3, 36524, by omega⟩
    · exact ⟨dayOfEra / 36524, dayOfEra % 36524, by omega⟩
  obtain ⟨century, inCentury, hera, hcentury⟩ := hcentury
  have hyear : ∃ year rest : Int, inCentury % 1461 = 365 * year + rest ∧ 0 ≤ year ∧ year ≤ 3 ∧
      0 ≤ rest ∧ rest ≤ 365 ∧ (rest = 365 → year = 3) := by
    by_cases hlast : inCentury % 1461 = 1460
    · exact ⟨3, 365, by omega⟩
    · exact ⟨inCentury % 1461 / 365, inCentury % 1461 % 365, by omega⟩
  obtain ⟨year, day, hspan, hyear⟩ := hyear
  refine ⟨century, inCentury / 1461, year, day, ?_, ?_, ?_, ?_, ?_, ?_⟩
  all_goals omega

/-- The date of a day of a year that begins in March. -/
def ofYearDay (year day : Int) : CivilDate :=
  let monthOfYear := (5 * day + 2) / 153
  let month := if monthOfYear < 10 then monthOfYear + 3 else monthOfYear - 9
  { year := if month ≤ 2 then year + 1 else year, month := month.toNat,
    day := (day - (153 * monthOfYear + 2) / 5 + 1).toNat }

theorem InEra.yearOfEra (h : InEra dayOfEra century span year day) :
    (dayOfEra - dayOfEra / 1460 + dayOfEra / 36524 - dayOfEra / 146096) / 365 =
      100 * century + 4 * span + year := by
  obtain ⟨heq, hcentury, hspan, hyear, hday, hleap⟩ := h
  -- Each of the quotients is at most by one too large, and then the day is late in its year.
  have hspans : ∃ late : Int, dayOfEra / 1460 = 25 * century + span + late ∧ 0 ≤ late ∧ late ≤ 1 ∧
      (late = 0 → day ≤ 364) ∧ (late = 1 → 1 ≤ day) := by
    refine ⟨if 1460 ≤ 24 * century + span + 365 * year + day then 1 else 0, ?_⟩
    split <;> omega
  have hlast : ∃ last : Int, dayOfEra / 36524 = century + last ∧ dayOfEra / 146096 = last := by
    refine ⟨if dayOfEra = 146096 then 1 else 0, ?_⟩
    split <;> omega
  obtain ⟨late, hspans, hlate⟩ := hspans
  obtain ⟨last, hcenturies, heras⟩ := hlast
  rw [hspans, hcenturies, heras, heq]
  clear heq hspans hcenturies heras
  omega

theorem InEra.dayOfYear (h : InEra dayOfEra century span year day) :
    dayOfEra - (365 * (100 * century + 4 * span + year) +
      (100 * century + 4 * span + year) / 4 - (100 * century + 4 * span + year) / 100) = day := by
  obtain ⟨heq, hcentury, hspan, hyear, -, -⟩ := h
  have hquarter : (100 * century + 4 * span + year) / 4 = 25 * century + span := by omega
  have hcenturies : (100 * century + 4 * span + year) / 100 = century := by omega
  rw [hquarter, hcenturies, heq]
  omega

theorem ofDays_eq (h : InEra ((days + epochShift) % eraDays) century span year day) :
    ofDays days =
      ofYearDay (100 * century + 4 * span + year + (days + epochShift) / eraDays * 400) day := by
  simp only [ofDays, ofYearDay, h.yearOfEra, h.dayOfYear]

/-- The days of a month in a year that begins in March, where January and February are the last. -/
theorem ofYearDay_cases (h : 0 ≤ day) (h' : day ≤ 365) (year : Int) :
    ∃ month dayOfMonth : Nat, month ≤ 11 ∧ (dayOfMonth : Int) = day - (153 * month + 2) / 5 + 1 ∧
      (153 * month + 2) / 5 ≤ day ∧ day < (153 * (month + 1) + 2) / 5 ∧
      ofYearDay year day =
        if month < 10 then ⟨year, month + 3, dayOfMonth⟩ else ⟨year + 1, month - 9, dayOfMonth⟩ := by
  obtain ⟨month, hmonth⟩ := Int.eq_ofNat_of_zero_le (show 0 ≤ (5 * day + 2) / 153 by omega)
  have hfirst : (153 * (month : Int) + 2) / 5 ≤ day := by omega
  obtain ⟨dayOfMonth, hday⟩ := Int.eq_ofNat_of_zero_le
    (show 0 ≤ day - (153 * (month : Int) + 2) / 5 + 1 by omega)
  refine ⟨month, dayOfMonth, by omega, hday.symm, hfirst, by omega, ?_⟩
  simp only [ofYearDay, hmonth, hday, Int.toNat_natCast]
  by_cases hearly : month < 10
  · have hearly' : (month : Int) < 10 := by omega
    simp only [hearly, hearly', if_true]
    rw [if_neg (by omega)]
    congr 1
  · have hlate : ¬ (month : Int) < 10 := by omega
    simp only [hearly, hlate, if_false]
    rw [if_pos (by omega)]
    congr 1
    omega

theorem toDays_ofYearDay (h : 0 ≤ day) (h' : day ≤ 365) (year : Int) :
    (ofYearDay year day).toDays = year / 400 * eraDays + yearStart (year % 400) + day - epochShift := by
  obtain ⟨month, dayOfMonth, hmonth, hday, -, -, heq⟩ := ofYearDay_cases h h' year
  rw [heq, toDays_eq]
  split
  · have hstart : (((month + 3 : Nat) : Int) + 9) % 12 = month := by omega
    simp only [monthStart, hstart, eraDays, epochShift]
    rw [if_neg (by omega)]
    omega
  · have hstart : (((month - 9 : Nat) : Int) + 9) % 12 = month := by omega
    simp only [monthStart, hstart, eraDays, epochShift]
    rw [if_pos (by omega), Int.add_sub_cancel]
    omega

theorem isValid_ofYearDay (h : 0 ≤ day) (h' : day ≤ 365) (year : Int)
    (hleap : day = 365 → isLeapYear (year + 1)) : (ofYearDay year day).isValid := by
  obtain ⟨month, dayOfMonth, hmonth, hday, hfirst, hlast, heq⟩ := ofYearDay_cases h h' year
  rw [heq]
  simp only [isValid, Bool.and_eq_true, decide_eq_true_eq]
  split
  · refine ⟨by simp only; omega, ?_⟩
    simp only [daysInMonth]
    rw [if_neg (by omega)]
    split
    · next hshort =>
      rcases hshort with hmonth | hmonth | hmonth | hmonth <;> cases hmonth <;> omega
    · omega
  · refine ⟨by simp only; omega, ?_⟩
    simp only [daysInMonth]
    by_cases hfebruary : month = 11
    · subst hfebruary
      rw [if_pos rfl]
      split
      · omega
      · next hnot =>
        have hday' : day ≠ 365 := fun hlong => hnot (hleap hlong)
        omega
    · rw [if_neg (by omega), if_neg (by omega)]
      omega

/-- Every day has a date on the calendar, and it is the day of this date. -/
theorem toDays_ofDays (days : Int) : (ofDays days).isValid ∧ (ofDays days).toDays = days := by
  have hera := Int.emod_nonneg (days + epochShift) (show eraDays ≠ 0 by decide)
  have hera' := Int.emod_lt_of_pos (days + epochShift) (show 0 < eraDays by decide)
  have hdays := Int.mul_ediv_add_emod (days + epochShift) eraDays
  obtain ⟨century, span, year, day, h⟩ := exists_inEra hera hera'
  rw [ofDays_eq h]
  obtain ⟨heq, hcentury, hspan, hyear, hday, hleap⟩ := h
  rw [heq] at hdays
  generalize (days + epochShift) / eraDays = era at hdays
  refine ⟨isValid_ofYearDay hday.1 hday.2 _ fun hlast => ?_, ?_⟩
  · obtain ⟨rfl, hlast⟩ := hleap hlast
    simp only [isLeapYear, Bool.and_eq_true, Bool.or_eq_true, beq_iff_eq, bne_iff_ne]
    omega
  · have hyearOfEra : (100 * century + 4 * span + year + era * 400) % 400 =
        100 * century + 4 * span + year := by omega
    have heras : (100 * century + 4 * span + year + era * 400) / 400 = era := by omega
    rw [toDays_ofYearDay hday.1 hday.2, heras, hyearOfEra, yearStart]
    simp only [eraDays, epochShift] at hdays ⊢
    omega

end CivilDate

/-! ### Times -/

namespace DateTime
open Digits
variable {width n : Nat}

theorem bind_of_eq_some {α β : Type} {x : Option α} {a : α} (h : x = some a)
    (f : α → Option β) : (x >>= f) = f a := by
  rw [h]
  rfl

theorem takeNumber?_digits {ds : List Char} (h : ∀ c ∈ ds, c.isDigit = true) (acc : Nat)
    (rest : List Char) : takeNumber? ds.length acc (ds ++ rest) = some (value acc ds, rest) := by
  induction ds generalizing acc with
  | nil => rfl
  | cons c ds ih =>
    rw [List.forall_mem_cons] at h
    rw [List.length_cons, List.cons_append, takeNumber?, if_pos h.1, ih h.2, value_cons]

/-- A number is read from its digits, if it has no more of them than are read. -/
theorem takeNumber?_padded (hwidth : 0 < width) (h : n < 10 ^ width) (rest : List Char) :
    takeNumber? width 0 (padded width n ++ rest) = some (n, rest) := by
  have hdigits : ∀ c ∈ padded width n, c.isDigit = true := fun _ => isDigit_padded
  have hread := takeNumber?_digits hdigits 0 rest
  rwa [length_padded hwidth h, value_padded] at hread

/-- The nanoseconds are printed without the zeros at their end. -/
theorem fractionText_eq (hn : 0 < n) (h : n < 1000000000) : ∃ (kept : List Char) (zeros : Nat),
    fractionText n = '.' :: kept ∧ padded 9 n = kept ++ List.replicate zeros '0' ∧ kept ≠ [] ∧
      kept.length + zeros = 9 := by
  have hsplit := List.takeWhile_append_dropWhile (p := (· == '0')) (l := (padded 9 n).reverse)
  have hzeros : (padded 9 n).reverse.takeWhile (· == '0') =
      List.replicate ((padded 9 n).reverse.takeWhile (· == '0')).length '0' := by
    refine List.eq_replicate_of_mem fun c hc => ?_
    simpa using List.all_eq_true.1 List.all_takeWhile c hc
  generalize ((padded 9 n).reverse.takeWhile (· == '0')).length = zeros at hzeros
  have hpadded : padded 9 n =
      ((padded 9 n).reverse.dropWhile (· == '0')).reverse ++ List.replicate zeros '0' := by
    rw [hzeros] at hsplit
    refine List.reverse_injective ?_
    rw [List.reverse_append, List.reverse_reverse, List.reverse_replicate, hsplit]
  have hlength := congrArg List.length hpadded
  rw [length_padded (by decide) h, List.length_append, List.length_replicate] at hlength
  refine ⟨_, zeros, by rw [fractionText, if_neg (Nat.ne_of_gt hn)], hpadded, fun hempty => ?_,
    hlength.symm⟩
  have hvalue := value_padded 9 n
  rw [hpadded, hempty, List.nil_append, value_zeros] at hvalue
  omega

/-- The text goes on with neither a digit nor a point. -/
def Ends (cs : List Char) : Prop := ∀ c ∈ cs.head?, c.isDigit = false ∧ c ≠ '.'

theorem Ends.digits {cs : List Char} (h : Ends cs) :
    cs.takeWhile Char.isDigit = [] ∧ cs.dropWhile Char.isDigit = cs := by
  cases cs with
  | nil => exact ⟨rfl, rfl⟩
  | cons c rest =>
    have hc : ¬ c.isDigit = true := by simp [(h c rfl).1]
    exact ⟨List.takeWhile_cons_of_neg hc, List.dropWhile_cons_of_neg hc⟩

theorem takeFraction?_fractionText (h : n < 1000000000) {rest : List Char} (hrest : Ends rest) :
    takeFraction? (fractionText n ++ rest) = some (n, rest) := by
  rcases Nat.eq_zero_or_pos n with rfl | hpos
  · rw [fractionText, if_pos rfl, List.nil_append]
    unfold takeFraction?
    split
    · exact absurd rfl (hrest '.' rfl).2
    · rfl
  · obtain ⟨kept, zeros, htext, hpadded, hkept, hlength⟩ := fractionText_eq hpos h
    have hdigits : ∀ c ∈ kept, c.isDigit = true := by
      intro c hc
      have hmem : c ∈ padded 9 n := by
        rw [hpadded]
        exact List.mem_append_left _ hc
      exact isDigit_padded hmem
    have htake : (kept ++ rest).takeWhile Char.isDigit = kept := by
      rw [List.takeWhile_append_of_pos hdigits, hrest.digits.1, List.append_nil]
    have hdrop : (kept ++ rest).dropWhile Char.isDigit = rest := by
      rw [List.dropWhile_append_of_pos hdigits, hrest.digits.2]
    have hvalue : value 0 kept * 10 ^ (9 - kept.length) = n := by
      rw [← value_zeros, ← value_append, show 9 - kept.length = zeros by omega, ← hpadded,
        value_padded]
    rw [htext, List.cons_append, takeFraction?]
    simp only [htake, hdrop, List.isEmpty_iff, if_neg hkept]
    rw [List.take_of_length_le (by omega)]
    exact congrArg (fun n => some (n, rest)) hvalue

theorem takeOffset?_signed {hours minutes : Nat} (h : hours ≤ 23) (h' : minutes ≤ 59) :
    takeOffset? ('-' :: padded 2 hours ++ ':' :: padded 2 minutes) =
        some (-((hours : Int) * 60 + minutes)) ∧
      takeOffset? ('+' :: padded 2 hours ++ ':' :: padded 2 minutes) =
        some ((hours : Int) * 60 + minutes) := by
  have hhours := takeNumber?_padded (n := hours) (by decide : 0 < 2) (by omega)
    (':' :: padded 2 minutes)
  have hminutes := takeNumber?_padded (n := minutes) (by decide : 0 < 2) (by omega) []
  rw [List.append_nil] at hminutes
  constructor
  · simp [takeOffset?, hhours, hminutes, expect?, h, h']
  · simp [takeOffset?, hhours, hminutes, expect?, h, h']

theorem takeOffset?_offsetText {minutes : Int} (h : -1439 ≤ minutes) (h' : minutes ≤ 1439) :
    takeOffset? (offsetText minutes) = some minutes := by
  obtain ⟨hminus, hplus⟩ := takeOffset?_signed (show minutes.natAbs / 60 ≤ 23 by omega)
    (show minutes.natAbs % 60 ≤ 59 by omega)
  have habs : ((minutes.natAbs / 60 : Nat) : Int) * 60 + (minutes.natAbs % 60 : Nat) =
      minutes.natAbs := by
    omega
  rw [habs] at hminus hplus
  unfold offsetText
  split
  · next hzero =>
    rw [hzero]
    rfl
  · by_cases hneg : minutes < 0
    · rw [if_pos hneg, hminus]
      congr 1
      omega
    · rw [if_neg hneg, hplus]
      congr 1
      omega

theorem ends_offsetText (minutes : Int) : Ends (offsetText minutes) := by
  unfold offsetText
  split
  · simp [Ends]
  · split <;> simp [Ends]

theorem expect?_cons (c : Char) (rest : List Char) : expect? c (c :: rest) = some rest :=
  if_pos rfl

/-- An instant is read from its text. -/
theorem ofText?_toText? {t : DateTime} (h : -1439 ≤ t.offsetMinutes) (h' : t.offsetMinutes ≤ 1439)
    {text : String} (htext : t.toText? = some text) : ofText? text = some t := by
  obtain ⟨hvalid, hdays⟩ := CivilDate.toDays_ofDays (t.localNanos / nanosPerDay)
  unfold toText? at htext
  simp only at htext
  split at htext
  case isFalse => cases htext
  next hyears =>
  cases htext
  generalize CivilDate.ofDays (t.localNanos / nanosPerDay) = date at hvalid hdays hyears
  obtain ⟨time, htime⟩ := Int.eq_ofNat_of_zero_le
    (Int.emod_nonneg t.localNanos (show nanosPerDay ≠ 0 by decide))
  rw [htime, Int.toNat_natCast]
  have hlocal : t.localNanos = date.toDays * 86400000000000 + time ∧ time < 86400000000000 := by
    simp only [nanosPerDay, nanosPerSecond] at hdays htime
    omega
  have hdate : date.month < 10 ^ 2 ∧ date.day < 10 ^ 2 := by
    have hshort := CivilDate.daysInMonth_le date.year date.month
    simp only [CivilDate.isValid, Bool.and_eq_true, decide_eq_true_eq] at hvalid
    omega
  have hyear : date.year.toNat < 10 ^ 4 := by omega
  have hhour : time / 1000000000 / 3600 < 10 ^ 2 := by omega
  have hminute : time / 1000000000 / 60 % 60 < 10 ^ 2 := by omega
  have hsecond : time / 1000000000 % 60 < 10 ^ 2 := by omega
  have hnanos : time % 1000000000 < 1000000000 := by omega
  -- Each part is read up to where the next one begins.
  unfold ofText?
  rw [String.toList_ofList]
  simp -zeta only [List.append_assoc, List.cons_append]
  rw [bind_of_eq_some (takeNumber?_padded (by decide) hyear _),
    bind_of_eq_some (expect?_cons '-' _),
    bind_of_eq_some (takeNumber?_padded (by decide) hdate.1 _),
    bind_of_eq_some (expect?_cons '-' _),
    bind_of_eq_some (takeNumber?_padded (by decide) hdate.2 _)]
  -- Any one byte may stand between date and time.
  dsimp only
  rw [if_pos (by decide), bind_of_eq_some rfl,
    bind_of_eq_some (takeNumber?_padded (by decide) hhour _),
    bind_of_eq_some (expect?_cons ':' _),
    bind_of_eq_some (takeNumber?_padded (by decide) hminute _),
    bind_of_eq_some (expect?_cons ':' _),
    bind_of_eq_some (takeNumber?_padded (by decide) hsecond _),
    bind_of_eq_some (takeFraction?_fractionText hnanos (ends_offsetText _)),
    bind_of_eq_some (takeOffset?_offsetText h h')]
  -- What was read is the date and the time of day, none of it a leap second.
  have heq : (⟨date.year.toNat, date.month, date.day⟩ : CivilDate) = date := by
    rw [Int.toNat_of_nonneg hyears.1]
  have hleap : (time / 1000000000 % 60 == 60) = false := by
    rw [beq_eq_false_iff_ne]
    omega
  have hinside : (!date.isValid || decide (23 < time / 1000000000 / 3600) ||
      decide (59 < time / 1000000000 / 60 % 60) || decide (60 < time / 1000000000 % 60)) = false := by
    simp only [hvalid, Bool.not_true, Bool.or_eq_false_iff, decide_eq_false_iff_not, true_and]
    omega
  simp only [heq, hleap, hinside, Bool.false_and, Bool.false_eq_true, if_false]
  obtain ⟨nanoseconds, offset⟩ := t
  simp only [localNanos, nanosPerSecond] at hlocal ⊢
  congr 2
  omega

theorem takeOffset?_bounds {cs : List Char} {minutes : Int} (h : takeOffset? cs = some minutes) :
    -1439 ≤ minutes ∧ minutes ≤ 1439 := by
  unfold takeOffset? at h
  split at h
  · cases h
    decide
  · cases h
    decide
  · -- Hours and minutes are bounded whatever the sign is.
    dsimp only at h
    split at h
    on_goal 2 => split at h
    all_goals
      obtain ⟨negative, -, h⟩ := Option.bind_eq_some_iff.1 h
      obtain ⟨⟨hours, _⟩, -, h⟩ := Option.bind_eq_some_iff.1 h
      obtain ⟨_, -, h⟩ := Option.bind_eq_some_iff.1 h
      obtain ⟨⟨minutes, _⟩, -, h⟩ := Option.bind_eq_some_iff.1 h
      dsimp only at h
      split at h
      · cases h
        split <;> omega
      · cases h
  · cases h

/-- An instant that was read has the offset of a clock. -/
theorem offset_ofText? {text : String} {t : DateTime} (h : ofText? text = some t) :
    -1439 ≤ t.offsetMinutes ∧ t.offsetMinutes ≤ 1439 := by
  unfold ofText? at h
  -- The date and its two dashes, then the time and its two colons, and last the fraction.
  iterate 5 obtain ⟨_, -, h⟩ := Option.bind_eq_some_iff.1 h
  dsimp only at h
  split at h
  case h_2 => cases h
  split at h
  case isFalse => cases h
  iterate 7 obtain ⟨_, -, h⟩ := Option.bind_eq_some_iff.1 h
  obtain ⟨offset, hoffset, h⟩ := Option.bind_eq_some_iff.1 h
  have heq : t.offsetMinutes = offset := by grind
  rw [heq]
  exact takeOffset?_bounds hoffset

/-- The year on the clock of the offset. -/
def localYear (t : DateTime) : Int := (CivilDate.ofDays (t.localNanos / nanosPerDay)).year

theorem offset_ofMillis? {millis : Int} {t : DateTime} (h : ofMillis? millis = some t) :
    t.offsetMinutes = 0 := by
  simp only [ofMillis?] at h
  split at h <;> cases h
  rfl

theorem isSome_toText?_iff {t : DateTime} :
    t.toText?.isSome ↔ 0 ≤ t.localYear ∧ t.localYear ≤ 9999 := by
  simp only [toText?, localYear]
  split
  · next hyear => simp [hyear]
  · next hyear => simp [hyear]

/-- An instant that was read from text is also read from its milliseconds, unless it is beyond the year
9999 of UTC. -/
theorem ofMillis?_of_ofText? {text : String} {t : DateTime} {millis : Int} (h : ofText? text = some t)
    (hmillis : t.nanoseconds = millis * 1000000) : Json.isInt64 millis = true ∧ ofMillis? millis =
      if t.nanoseconds < (CivilDate.mk 10000 1 1).toDays * nanosPerDay then some ⟨t.nanoseconds, 0⟩
      else none := by
  have hyear := isSome_toText?_iff.1 (isSome_toText? h)
  have hoffset := offset_ofText? h
  obtain ⟨hvalid, hdays⟩ := CivilDate.toDays_ofDays (t.localNanos / nanosPerDay)
  have hbounds := CivilDate.toDays_bounds hvalid hyear.1 hyear.2
  rw [hdays] at hbounds
  simp only [localNanos, nanosPerDay, nanosPerSecond] at hbounds
  have hfirst : (CivilDate.mk (-9999) 1 1).toDays * 86400000 = -377705116800000 := by decide
  have hlast : (CivilDate.mk 10000 1 1).toDays * 86400000 = 253402300800000 := by decide
  have hlimit : (CivilDate.mk 10000 1 1).toDays * nanosPerDay = 253402300800000000000 := by decide
  constructor
  · have hrange : Json.intLimit = 9223372036854775808 := rfl
    rw [Json.isInt64, Bool.and_eq_true]
    exact ⟨decide_eq_true (by omega), decide_eq_true (by omega)⟩
  · rw [ofMillis?, hlimit]
    simp only [hfirst, hlast]
    by_cases hbefore : millis < 253402300800000
    · rw [if_pos ⟨by omega, hbefore⟩, if_pos (by omega), hmillis]
    · rw [if_neg fun h => hbefore h.2, if_neg (by omega)]

end DateTime

end RelationalStore

import RelationalStore.Proofs.OpenedDirectories

/- A value has no stored form if it has a time outside the years 0 to 9999, which has no text. A
   time that was read from text lies within them on its own clock (`DateTime.isSome_toText?`), and
   so the rows of a document that could be read have a document again (`Row.isSome_documentText?`). -/
namespace RelationalStore
open SortedMap

/-! ### Dates -/

namespace CivilDate

theorem daysInMonth_le (year : Int) (month : Nat) : daysInMonth year month ≤ 31 := by
  unfold daysInMonth
  split
  · split <;> omega
  · split <;> omega

/-- The days of an era before a year of it. -/
def yearStart (year : Int) : Int := year * 365 + year / 4 - year / 100

/-- The days of a year, from March on, before a month of it. -/
def monthStart (month : Nat) : Int := (153 * (((month : Int) + 9) % 12) + 2) / 5

theorem toDays_eq (date : CivilDate) :
    let year := if date.month ≤ 2 then date.year - 1 else date.year
    date.toDays = year / 400 * 146097 + yearStart (year % 400) + monthStart date.month + date.day - 719469 := by
  simp only [toDays, eraDays, epochShift, yearStart, monthStart]
  split <;> omega

theorem yearStart_nonneg {year : Int} (h : 0 ≤ year) : 0 ≤ yearStart year := by
  unfold yearStart
  omega

theorem yearStart_mono {year last : Int} (h : year ≤ last) : yearStart year ≤ yearStart last := by
  unfold yearStart
  omega

/-- January and February are the last months of their year. -/
theorem monthStart_late {month : Nat} (h : 1 ≤ month) (h' : month ≤ 2) :
    306 ≤ monthStart month ∧ monthStart month ≤ 337 := by
  unfold monthStart
  omega

theorem monthStart_early {month : Nat} (h : 3 ≤ month) (h' : month ≤ 12) :
    0 ≤ monthStart month ∧ monthStart month ≤ 275 := by
  unfold monthStart
  omega

/-- The days of the dates from the year 0 to the year 9999. -/
theorem toDays_bounds {date : CivilDate} (h : date.isValid) (h0 : 0 ≤ date.year)
    (h9999 : date.year ≤ 9999) : -719528 ≤ date.toDays ∧ date.toDays ≤ 2932896 := by
  simp only [isValid, Bool.and_eq_true, decide_eq_true_eq] at h
  obtain ⟨⟨⟨hfirst, hlast⟩, hone⟩, hday⟩ := h
  have hday : date.day ≤ 31 := Nat.le_trans hday (daysInMonth_le _ _)
  rw [toDays_eq]
  split
  · next hle =>
    -- The year is counted from the March before, of the era before in the year 0.
    obtain ⟨hmonth, hmonth'⟩ := monthStart_late hfirst hle
    have hera : -1 ≤ (date.year - 1) / 400 ∧ (date.year - 1) / 400 ≤ 24 := by omega
    have hyear : 0 ≤ (date.year - 1) % 400 ∧ (date.year - 1) % 400 ≤ 399 := by omega
    have hbefore : (date.year - 1) / 400 = -1 → (date.year - 1) % 400 = 399 := by omega
    have hafter : (date.year - 1) / 400 = 24 → (date.year - 1) % 400 ≤ 398 := by omega
    generalize (date.year - 1) / 400 = era at *
    generalize (date.year - 1) % 400 = year at *
    have hstart : 0 ≤ yearStart year ∧ yearStart year ≤ 145731 :=
      ⟨yearStart_nonneg hyear.1, yearStart_mono hyear.2⟩
    have hstart₁ : era = -1 → yearStart year = 145731 := fun h => by rw [hbefore h]; rfl
    have hstart₂ : era = 24 → yearStart year ≤ 145366 := fun h => yearStart_mono (hafter h)
    omega
  · next hlt =>
    obtain ⟨hmonth, hmonth'⟩ := monthStart_early (by omega) hlast
    have hera : 0 ≤ date.year / 400 ∧ date.year / 400 ≤ 24 := by omega
    have hyear : 0 ≤ date.year % 400 ∧ date.year % 400 ≤ 399 := by omega
    have hstart : 0 ≤ yearStart (date.year % 400) ∧ yearStart (date.year % 400) ≤ 145731 :=
      ⟨yearStart_nonneg hyear.1, yearStart_mono hyear.2⟩
    omega

theorem year_ofDays {days : Int} (h : -719528 ≤ days) (h' : days ≤ 2932896) :
    0 ≤ (ofDays days).year ∧ (ofDays days).year ≤ 9999 := by
  simp only [ofDays, eraDays, epochShift]
  omega

end CivilDate

/-! ### Times -/

namespace DateTime
variable {cs rest : List Char} {n width : Nat}

theorem digit_le {c : Char} (h : c.isDigit) : c.toNat - 48 ≤ 9 := by
  simp only [Char.isDigit, Bool.and_eq_true, decide_eq_true_eq] at h
  have hle : c.toNat ≤ 57 := h.2
  omega

theorem takeNumber?_lt {acc bound : Nat} (h : takeNumber? width acc cs = some (n, rest))
    (hacc : acc < bound) : n < bound * 10 ^ width := by
  induction width generalizing acc bound cs with
  | zero =>
    cases h
    simpa using hacc
  | succ width ih =>
    cases cs with
    | nil => cases h
    | cons c more =>
      rw [takeNumber?] at h
      split at h
      · next hdigit =>
        have hc := digit_le hdigit
        have hlt := ih h (show acc * 10 + (c.toNat - 48) < bound * 10 by omega)
        rw [Nat.pow_succ', ← Nat.mul_assoc]
        exact hlt
      · cases h

theorem foldl_digits_lt {ds : List Char} (hds : ∀ c ∈ ds, c.isDigit) {acc bound : Nat}
    (hacc : acc < bound) :
    ds.foldl (fun n c => n * 10 + (c.toNat - 48)) acc < bound * 10 ^ ds.length := by
  induction ds generalizing acc bound with
  | nil => simpa using hacc
  | cons c rest ih =>
    rw [List.forall_mem_cons] at hds
    have hc := digit_le hds.1
    have hlt := ih hds.2 (show acc * 10 + (c.toNat - 48) < bound * 10 by omega)
    rw [List.length_cons, Nat.pow_succ', ← Nat.mul_assoc]
    exact hlt

theorem takeFraction?_lt (h : takeFraction? cs = some (n, rest)) : n < 1000000000 := by
  unfold takeFraction? at h
  split at h
  · next more =>
    simp only at h
    split at h
    · cases h
    · cases h
      generalize hkept : (more.takeWhile Char.isDigit).take 9 = kept
      have hdigits : ∀ c ∈ kept, c.isDigit := fun c hc => by
        rw [← hkept] at hc
        exact List.all_eq_true.1 (List.all_takeWhile) c (List.mem_of_mem_take hc)
      have hlen : kept.length ≤ 9 := by
        rw [← hkept]
        exact List.length_take_le _ _
      have hlt := foldl_digits_lt hdigits Nat.zero_lt_one
      rw [Nat.one_mul] at hlt
      calc kept.foldl (fun n c => n * 10 + (c.toNat - 48)) 0 * 10 ^ (9 - kept.length)
          < 10 ^ kept.length * 10 ^ (9 - kept.length) :=
            Nat.mul_lt_mul_of_pos_right hlt (Nat.pow_pos (by decide))
        _ = 1000000000 := by rw [← Nat.pow_add, Nat.add_sub_cancel' hlen]
  · cases h
    decide

/-- A time that was read from text has a text. -/
theorem isSome_toText? {text : String} {t : DateTime} (h : ofText? text = some t) :
    t.toText?.isSome := by
  unfold ofText? at h
  obtain ⟨⟨year, _⟩, hyear, h⟩ := Option.bind_eq_some_iff.1 h
  obtain ⟨_, -, h⟩ := Option.bind_eq_some_iff.1 h
  obtain ⟨⟨month, _⟩, -, h⟩ := Option.bind_eq_some_iff.1 h
  obtain ⟨_, -, h⟩ := Option.bind_eq_some_iff.1 h
  obtain ⟨⟨day, _⟩, -, h⟩ := Option.bind_eq_some_iff.1 h
  simp only at h
  split at h
  case h_2 => cases h
  split at h
  case isFalse => cases h
  obtain ⟨_, -, h⟩ := Option.bind_eq_some_iff.1 h
  obtain ⟨⟨hour, _⟩, -, h⟩ := Option.bind_eq_some_iff.1 h
  obtain ⟨_, -, h⟩ := Option.bind_eq_some_iff.1 h
  obtain ⟨⟨minute, _⟩, -, h⟩ := Option.bind_eq_some_iff.1 h
  obtain ⟨_, -, h⟩ := Option.bind_eq_some_iff.1 h
  obtain ⟨⟨second, _⟩, -, h⟩ := Option.bind_eq_some_iff.1 h
  obtain ⟨⟨nanos, _⟩, hnanos, h⟩ := Option.bind_eq_some_iff.1 h
  obtain ⟨offset, -, h⟩ := Option.bind_eq_some_iff.1 h
  have hyear : year < 1 * 10 ^ 4 := takeNumber?_lt hyear Nat.zero_lt_one
  have hnanos := takeFraction?_lt hnanos
  simp only at h
  split at h
  · cases h
  next hinside =>
  simp only [Bool.or_eq_true, decide_eq_true_eq, not_or, Bool.not_eq_true', Bool.not_eq_false,
    Nat.not_lt] at hinside
  obtain ⟨⟨⟨hvalid, hhour⟩, hminute⟩, hsecond⟩ := hinside
  -- A leap second is the last nanosecond of the second before.
  generalize hn : (if (second == 60) = true then 999999999 else nanos) = n at h
  generalize hs : (if (second == 60) = true then 59 else second) = sec at h
  have hn : n < 1000000000 := by grind
  have hs : sec ≤ 59 := by grind
  split at h
  · cases h
  cases h
  obtain ⟨hfirst, hlast⟩ := CivilDate.toDays_bounds hvalid (Int.natCast_nonneg year)
    (show (year : Int) ≤ 9999 by omega)
  generalize (CivilDate.mk year month day).toDays = days at hfirst hlast
  have hdays : (localNanos ⟨(days * 86400 + hour * 3600 + minute * 60 + sec - offset * 60) *
      nanosPerSecond + n, offset⟩) / nanosPerDay = days := by
    simp only [localNanos, nanosPerDay, nanosPerSecond]
    omega
  have hyears := CivilDate.year_ofDays hfirst hlast
  rw [← hdays] at hyears
  simp only [toText?, if_pos hyears, Option.isSome_some]

end DateTime

/-! ### Rows -/

section
variable {α β : Type} {f : α → Option β} {as : List α} {bs : List β}

theorem Option.mapM_eq_some :
    as.mapM f = some bs ↔ List.Forall₂ (fun a b => f a = some b) as bs := by
  induction as generalizing bs with
  | nil =>
    rw [List.forall₂_nil_left_iff]
    exact ⟨fun h => by cases h; rfl, fun h => by rw [h]; rfl⟩
  | cons a rest ih =>
    simp only [List.mapM_cons, Option.bind_eq_bind, Option.bind_eq_some_iff, ih,
      List.forall₂_cons_left_iff]
    constructor
    · rintro ⟨b, hb, more, hmore, h⟩
      cases h
      exact ⟨b, more, hb, hmore, rfl⟩
    · rintro ⟨b, more, hb, hmore, rfl⟩
      exact ⟨b, hb, more, hmore, rfl⟩

theorem Option.isSome_mapM (h : ∀ a ∈ as, (f a).isSome) : (as.mapM f).isSome := by
  induction as with
  | nil => rfl
  | cons a rest ih =>
    rw [List.forall_mem_cons] at h
    obtain ⟨b, hb⟩ := Option.isSome_iff_exists.1 h.1
    obtain ⟨more, hmore⟩ := Option.isSome_iff_exists.1 (ih h.2)
    simp [List.mapM_cons, hb, hmore]

end

namespace Value

mutual

/-- A value that was read has a stored form. -/
theorem isSome_toStored? (j : Json) (v : Value) (h : ofStored? j = some v) : v.toStored?.isSome := by
  unfold ofStored? at h
  split at h
  · split at h
    · cases h
      rfl
    · cases h
  · next kind j' =>
    split at h
    case h_1 =>
      split at h
      · cases h
        rfl
      · cases h
    case h_8 =>
      obtain ⟨t, ht, rfl⟩ := Option.map_eq_some_iff.1 h
      obtain ⟨text, -, htext⟩ := Option.bind_eq_some_iff.1 ht
      simpa [toStored?] using DateTime.isSome_toText? htext
    case h_10 =>
      cases h
      rfl
    case h_11 =>
      split at h
      · next items =>
        obtain ⟨values, hvalues, rfl⟩ := Option.map_eq_some_iff.1 h
        simpa [toStored?] using isSome_toStoredItems? items values hvalues
      · cases h
    case h_12 => cases h
    all_goals
      obtain ⟨_, -, rfl⟩ := Option.map_eq_some_iff.1 h
      rfl
  · cases h

theorem isSome_toStoredItems? (js : List Json) (vs : List Value) (h : ofStoredItems? js = some vs) :
    (toStoredItems? vs).isSome := by
  cases js with
  | nil =>
    cases h
    rfl
  | cons j rest =>
    obtain ⟨v, hv, h⟩ := Option.bind_eq_some_iff.1 h
    obtain ⟨more, hmore, h⟩ := Option.bind_eq_some_iff.1 h
    cases h
    obtain ⟨stored, hstored⟩ := Option.isSome_iff_exists.1 (isSome_toStored? j v hv)
    obtain ⟨others, hothers⟩ := Option.isSome_iff_exists.1 (isSome_toStoredItems? rest more hmore)
    simp [toStoredItems?, hstored, hothers]

end

end Value

namespace Row

/-- Each of its values has a stored form. -/
def Writable (row : Row) : Prop := row.toStored?.isSome = true

theorem writable_of_ofStored? {j : Json} {row : Row} (h : ofStored? j = some row) : row.Writable := by
  obtain ⟨members, -, h⟩ := Option.bind_eq_some_iff.1 h
  obtain ⟨fields, hfields, h⟩ := Option.bind_eq_some_iff.1 h
  cases h
  rw [Writable, toStored?, Option.bind_eq_bind, Option.isSome_bind, Option.any_eq_true]
  obtain ⟨stored, hstored⟩ : ∃ stored, (ofList fields).toList.mapM
      (fun f : String × Value => f.2.toStored?.map (f.1, ·)) = some stored := by
    refine Option.isSome_iff_exists.1 (Option.isSome_mapM fun f hf => ?_)
    -- A field of the row is one of those that were read.
    have hmem : f ∈ fields := mem_of_get?_ofList ((ordered_ofList fields).get?_eq_some_iff.2 hf)
    obtain ⟨m, -, hm⟩ := exists_of_forall₂_right (Option.mapM_eq_some.1 hfields) hmem
    obtain ⟨v, hv, rfl⟩ := Option.map_eq_some_iff.1 hm
    simpa using Value.isSome_toStored? m.2 v hv
  exact ⟨stored, hstored, rfl⟩

/-- Rows that were read can be written. -/
theorem writable_of_ofDocumentText? {text : String} {rows : List Row}
    (h : ofDocumentText? text = some rows) : ∀ row ∈ rows, row.Writable := by
  intro row hrow
  obtain ⟨j, -, h⟩ := Option.bind_eq_some_iff.1 h
  obtain ⟨items, -, h⟩ := Option.bind_eq_some_iff.1 h
  obtain ⟨item, -, hitem⟩ := exists_of_forall₂_right (Option.mapM_eq_some.1 h) hrow
  exact writable_of_ofStored? hitem

theorem isSome_documentText? {rows : List Row} (h : ∀ row ∈ rows, row.Writable) :
    (documentText? rows).isSome := by
  rw [documentText?, Option.isSome_map]
  exact Option.isSome_mapM h

end Row

end RelationalStore

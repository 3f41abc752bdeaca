import Mathlib.Data.List.TakeWhile
import RelationalStore.Proofs.RewrittenRows
import RelationalStore.Proofs.JsonText
import RelationalStore.Value.Kind

/- Numbers and their digits. A number is written with its digits in base ten and read from left to
   right, so whatever reads digits ends at the number they stand for (`Digits.value`). That is
   enough for big integers (`ScalarKind.bigintOfText?_toString`). A decimal is written with all its
   places, and a reader of digits that has room for the whole mantissa drops none of them. What
   coercion relies on of the readers of decimals is that text without an exponent is read that way
   and that what is read has this room (`Decimal.Readers.Lawful`); so the text of what was read is
   read again (`Decimal.Readers.Lawful.text_toText`), whatever is done with exponents. -/
namespace RelationalStore

/-! ### Digits -/

namespace Digits
variable {ds : List Char} {acc n width : Nat}

/-- The number that digits stand for, behind those that were read. -/
def value (acc : Nat) (ds : List Char) : Nat := ds.foldl (fun n c => n * 10 + (c.toNat - 48)) acc

theorem value_nil (acc : Nat) : value acc [] = acc := rfl

theorem value_cons (acc : Nat) (c : Char) (ds : List Char) :
    value acc (c :: ds) = value (acc * 10 + (c.toNat - 48)) ds :=
  List.foldl_cons ..

theorem value_append (acc : Nat) (ds more : List Char) :
    value acc (ds ++ more) = value (value acc ds) more :=
  List.foldl_append

/-- More digits do not make a number smaller. -/
theorem le_value (acc : Nat) (ds : List Char) : acc ≤ value acc ds := by
  rw [value, ← List.foldl_map (f := fun c : Char => c.toNat - 48) (g := fun n d => n * 10 + d)]
  exact Json.le_natOf _ acc

theorem value_toDigits (n : Nat) : value 0 (Nat.toDigits 10 n) = n := by
  rw [value, ← List.foldl_map (f := fun c : Char => c.toNat - 48) (g := fun n d => n * 10 + d)]
  exact Json.natOf_digitsOf n

/-- Zeros at the end move the other digits to the left. -/
theorem value_zeros (acc k : Nat) : value acc (List.replicate k '0') = acc * 10 ^ k := by
  induction k generalizing acc with
  | zero => rw [List.replicate_zero, value_nil, Nat.pow_zero, Nat.mul_one]
  | succ k ih =>
    rw [List.replicate_succ, value_cons, ih, Nat.pow_succ', ← Nat.mul_assoc]
    rfl

open DateTime (padded)

theorem value_padded (width n : Nat) : value 0 (padded width n) = n := by
  rw [padded, value_append, value_zeros, Nat.zero_mul, value_toDigits]

theorem isDigit_padded {c : Char} (h : c ∈ padded width n) : c.isDigit = true := by
  rcases List.mem_append.1 h with hzero | hdigit
  · rw [(List.mem_replicate.1 hzero).2]
    decide
  · exact Nat.isDigit_of_mem_toDigits (by decide) (by decide) hdigit

theorem le_length_padded (width n : Nat) : width ≤ (padded width n).length := by
  rw [padded, List.length_append, List.length_replicate]
  omega

theorem length_padded (hwidth : 0 < width) (h : n < 10 ^ width) : (padded width n).length = width := by
  have hle : (Nat.toDigits 10 n).length ≤ width :=
    (Nat.length_toDigits_le_iff (by decide) hwidth).2 h
  rw [padded, List.length_append, List.length_replicate]
  omega

/-- Digits are none of the signs that a reader looks for. -/
theorem ne_of_isDigit {c d : Char} (hc : c.isDigit = true) (hd : d.isDigit = false) : c ≠ d := by
  rintro rfl
  rw [hc] at hd
  cases hd

theorem isBlank_of_isDigit {c : Char} (h : c.isDigit = true) : Text.isBlank c = false := by
  simp only [Char.isDigit, Bool.and_eq_true, decide_eq_true_eq] at h
  have hlow : 48 ≤ c.toNat := h.1
  have hhigh : c.toNat ≤ 57 := h.2
  simp only [Text.isBlank, Bool.or_eq_false_iff, Bool.and_eq_false_iff, decide_eq_false_iff_not,
    beq_eq_false_iff_ne, ne_eq]
  omega

end Digits

/-- A text without blanks is left as it is. -/
theorem Text.trim_eq_self {s : String} (h : ∀ c ∈ s.toList, isBlank c = false) : trim s = s := by
  have hdrop {cs : List Char} (hcs : ∀ c ∈ cs, isBlank c = false) : cs.dropWhile isBlank = cs := by
    cases cs with
    | nil => rfl
    | cons c rest => exact List.dropWhile_cons_of_neg (by simp [hcs c List.mem_cons_self])
  rw [trim, hdrop h, hdrop fun c hc => h c (List.mem_reverse.1 hc), List.reverse_reverse,
    String.ofList_toList]

/-- Digits behind a sign. -/
theorem Decimal.splitSign_digits {c : Char} (hc : c.isDigit = true) (negative : Bool)
    (rest : List Char) :
    splitSign ((if negative then ['-'] else []) ++ c :: rest) = (negative, c :: rest) := by
  cases negative with
  | true => rfl
  | false =>
    have hminus : c ≠ '-' := Digits.ne_of_isDigit hc (by decide)
    have hplus : c ≠ '+' := Digits.ne_of_isDigit hc (by decide)
    simp [splitSign, hminus, hplus]

/-! ### Big integers -/

namespace ScalarKind
open Digits

theorem digitsToNat?_eq {ds : List Char} (h : ∀ c ∈ ds, c.isDigit = true) (acc : Nat) :
    digitsToNat? acc ds = some (value acc ds) := by
  induction ds generalizing acc with
  | nil => rfl
  | cons c ds ih =>
    rw [List.forall_mem_cons] at h
    rw [digitsToNat?, if_pos h.1, ih h.2, value_cons]

theorem toList_toString (n : Int) :
    (toString n).toList = (if decide (n < 0) then ['-'] else []) ++ Nat.toDigits 10 n.natAbs := by
  cases n with
  | ofNat m => simp [toString, Int.repr, Nat.toList_repr]
  | negSucc m => simp [toString, Int.repr, Nat.toList_repr]

/-- A big integer is read from its text. -/
theorem bigintOfText?_toString (n : Int) : bigintOfText? (Text.trim (toString n)) = some n := by
  have hdigits : ∀ c ∈ Nat.toDigits 10 n.natAbs, c.isDigit = true :=
    fun c hc => Nat.isDigit_of_mem_toDigits (by decide) (by decide) hc
  have hblank : ∀ c ∈ (toString n).toList, Text.isBlank c = false := by
    intro c hc
    rw [toList_toString, List.mem_append] at hc
    rcases hc with hsign | hdigit
    · split at hsign
      · rw [List.mem_singleton.1 hsign]
        decide
      · cases hsign
    · exact isBlank_of_isDigit (hdigits c hdigit)
  obtain ⟨c, rest, hcons⟩ := List.exists_cons_of_ne_nil (Nat.toDigits_ne_nil (n := n.natAbs) (b := 10))
  rw [hcons] at hdigits
  have hc : c.isDigit = true := hdigits c List.mem_cons_self
  have hvalue : value 0 (c :: rest) = n.natAbs := by rw [← hcons, value_toDigits]
  rw [Text.trim_eq_self hblank, bigintOfText?, toList_toString, hcons, Decimal.splitSign_digits hc]
  simp only [if_neg (ne_of_isDigit hc (show '_'.isDigit = false by decide)),
    digitsToNat?_eq hdigits, hvalue, Option.map_some, decide_eq_true_eq]
  split <;> congr 1 <;> omega

end ScalarKind

/-! ### Decimals -/

namespace Decimal
open Digits DateTime
variable {n places : Nat}

theorem fits_mono {magnitude scale : Nat} (h : fits n places = true) (hmagnitude : magnitude ≤ n)
    (hscale : scale ≤ places) : fits magnitude scale = true := by
  simp only [fits, Bool.and_eq_true, decide_eq_true_eq] at h ⊢
  exact ⟨hmagnitude.trans h.1, hscale.trans h.2⟩

/-- An integer of 64 bits fits. -/
theorem fits_ofInt {n : Int} (h : n.natAbs < 2 ^ 64) :
    fits (ofInt n).magnitude (ofInt n).scale = true := by
  have hroom : 2 ^ 64 ≤ maxMantissa := by decide
  rw [fits, Bool.and_eq_true]
  exact ⟨decide_eq_true (h.le.trans hroom), decide_eq_true (Nat.zero_le _)⟩

/-- Digits that fit are read one by one, behind the point each as another place. -/
theorem readDigits_digits {ds : List Char} (h : ∀ c ∈ ds, c.isDigit = true) {digit point : Bool}
    (hfits : fits (value n ds) (places + if point then ds.length else 0) = true)
    (rest : List Char) : readDigits ⟨n, places, digit, point⟩ (ds ++ rest) =
      readDigits ⟨value n ds, places + if point then ds.length else 0, digit || !ds.isEmpty, point⟩
        rest := by
  induction ds generalizing n places digit with
  | nil => simp [value_nil]
  | cons c ds ih =>
    rw [List.forall_mem_cons] at h
    have hplaces : (if point then places + 1 else places) + (if point then ds.length else 0) =
        places + if point then (c :: ds).length else 0 := by
      cases point
      · rfl
      · simp only [if_true, List.length_cons]
        omega
    rw [← hplaces, value_cons] at hfits
    -- What is read up to here has no more digits and places than the whole.
    have hfirst := fits_mono hfits (le_value _ ds) (Nat.le_add_right _ _)
    rw [List.cons_append, readDigits]
    simp only [h.1, if_true, hfirst]
    rw [ih h.2 hfits, hplaces, value_cons]
    simp

/-- All digits are read, those in front of the point and those behind it. -/
theorem readDigits_places {whole places : List Char} (hwhole : whole ≠ [])
    (h : ∀ c ∈ whole ++ places, c.isDigit = true)
    (hfits : fits (value (value 0 whole) places) places.length = true) :
    readDigits ⟨0, 0, false, false⟩ (whole ++ if places.isEmpty then [] else '.' :: places) =
      some ⟨value (value 0 whole) places, places.length, true, !places.isEmpty⟩ := by
  rw [List.forall_mem_append] at h
  have hempty : (!whole.isEmpty) = true := by simpa using hwhole
  have hfirst := fits_mono hfits (le_value _ places) (Nat.zero_le _)
  rw [readDigits_digits h.1 hfirst, hempty]
  cases places with
  | nil => rfl
  | cons place places =>
    calc readDigits ⟨value 0 whole, 0, true, false⟩ ('.' :: place :: places)
        = readDigits ⟨value 0 whole, 0, true, true⟩ (place :: places ++ []) := by
          rw [List.append_nil, readDigits]
          simp
      _ = _ := by
          have hscale : 0 + (place :: places).length = (place :: places).length := Nat.zero_add _
          rw [readDigits_digits h.2] <;> simp only [if_true, hscale]
          · rfl
          · exact hfits

/-- The digits of a decimal in front of the point, and those behind it. -/
theorem toText_split (d : Decimal) : ∃ whole places : List Char,
    d.toText.toList = (if d.negative then ['-'] else []) ++ whole ++
        (if places.isEmpty then [] else '.' :: places) ∧
      whole ≠ [] ∧ places.length = d.scale ∧ (∀ c ∈ whole ++ places, c.isDigit = true) ∧
      value (value 0 whole) places = d.magnitude := by
  have hlength := le_length_padded (d.scale + 1) d.magnitude
  generalize hpadded : padded (d.scale + 1) d.magnitude = digits at hlength
  have happend := List.take_append_drop (digits.length - d.scale) digits
  refine ⟨digits.take (digits.length - d.scale), digits.drop (digits.length - d.scale), ?_, ?_, ?_,
    ?_, ?_⟩
  · rw [← hpadded, toText, String.toList_ofList]
    rfl
  · rw [Ne, List.take_eq_nil_iff, not_or, ← List.length_eq_zero_iff]
    omega
  · rw [List.length_drop]
    omega
  · rw [happend, ← hpadded]
    exact fun c hc => isDigit_padded hc
  · rw [← value_append, happend, ← hpadded, value_padded]

/-- The text of a decimal has no blank and no exponent. -/
theorem plain_toText (d : Decimal) :
    ∀ c ∈ d.toText.toList, Text.isBlank c = false ∧ isMark c = false := by
  obtain ⟨whole, places, htext, -, -, hdigits, -⟩ := toText_split d
  intro c hc
  by_cases hdigit : c.isDigit = true
  · exact ⟨isBlank_of_isDigit hdigit, by
      simp [isMark, ne_of_isDigit hdigit (show 'e'.isDigit = false by decide),
        ne_of_isDigit hdigit (show 'E'.isDigit = false by decide)]⟩
  · have hsign : c = '-' ∨ c = '.' := by
      rw [htext] at hc
      grind
    rcases hsign with rfl | rfl <;> decide

theorem trim_toText (d : Decimal) : Text.trim d.toText = d.toText :=
  Text.trim_eq_self fun c hc => (d.plain_toText c hc).1

/-- A decimal is read from its text, except that zero has no sign. -/
theorem ofDigits?_toText {d : Decimal} (h : fits d.magnitude d.scale = true) :
    ofDigits? d.toText = some (ofParts d.negative d.magnitude d.scale) := by
  obtain ⟨whole, places, htext, hwhole, hlength, hdigits, hvalue⟩ := toText_split d
  have hread := readDigits_places hwhole hdigits (by rw [hvalue, hlength]; exact h)
  obtain ⟨c, rest, rfl⟩ := List.exists_cons_of_ne_nil hwhole
  rw [ofDigits?, readPlain?, htext, List.append_assoc, List.cons_append,
    splitSign_digits (hdigits c (by simp)), ← List.cons_append]
  simp only [hread, hvalue, hlength, Option.map_some]

/-- What is read without an exponent has no sign at a zero. -/
theorem ofParts_of_ofDigits? {text : String} {d : Decimal} (h : ofDigits? text = some d) :
    ofParts d.negative d.magnitude d.scale = d := by
  obtain ⟨p, -, rfl⟩ := Option.map_eq_some_iff.1 h
  simp only [ofParts]
  cases (splitSign text.toList).1 <;> simp

/-! What is read fits, so it can be read again from its text. -/

theorem fits_roundBy {p q : Progress} (h : fits p.mantissa p.scale = true) {digit : Nat}
    (hround : p.roundBy digit = some q) : fits q.mantissa q.scale = true := by
  unfold Progress.roundBy at hround
  split at hround
  · cases hround
    exact h
  · split at hround
    · next hlt =>
      cases hround
      simp only [fits, Bool.and_eq_true, decide_eq_true_eq] at h ⊢
      exact ⟨hlt, h.2⟩
    · split at hround
      · cases hround
      · cases hround
        exact fits_mono h (by simp only; omega) (Nat.sub_le _ 1)

theorem fits_readDigits {cs : List Char} {p q : Progress} (h : fits p.mantissa p.scale = true)
    (hread : readDigits p cs = some q) : fits q.mantissa q.scale = true := by
  induction cs generalizing p with
  | nil =>
    rw [readDigits] at hread
    split at hread
    · cases hread
      exact h
    · cases hread
  | cons c rest ih =>
    rw [readDigits] at hread
    simp only at hread
    split at hread
    · generalize (if p.point = true then p.scale + 1 else p.scale) = places at hread
      split at hread
      · next hfits => exact ih (p := ⟨_, places, true, p.point⟩) hfits hread
      · split at hread
        · exact fits_roundBy h hread
        · cases hread
    · split at hread
      · exact ih (p := { p with point := true }) h hread
      · split at hread
        · split at hread
          · split at hread
            · cases hread
              exact h
            · cases hread
          · exact ih h hread
        · cases hread

theorem fits_readPlain? {cs : List Char} {d : Decimal} (h : readPlain? cs = some d) :
    fits d.magnitude d.scale = true := by
  obtain ⟨p, hp, rfl⟩ := Option.map_eq_some_iff.1 h
  exact fits_readDigits (by decide) hp

theorem fits_shiftRight? {d e : Decimal} {places : Nat} (h : fits d.magnitude d.scale = true)
    (hshift : d.shiftRight? places = some e) : fits e.magnitude e.scale = true := by
  unfold shiftRight? at hshift
  split at hshift
  · cases hshift
  · split at hshift
    · cases hshift
      exact fits_mono h le_rfl (Nat.sub_le _ _)
    · simp only at hshift
      split at hshift
      · next hle =>
        cases hshift
        simpa [fits] using hle
      · cases hshift

/-- Rounding after a division does not go beyond the number that is divided. -/
theorem fits_shiftLeft? {d e : Decimal} {places : Nat} (h : fits d.magnitude d.scale = true)
    (hshift : d.shiftLeft? places = some e) : fits e.magnitude e.scale = true := by
  unfold shiftLeft? at hshift
  split at hshift
  · cases hshift
  · cases hshift
    simp only [fits, Bool.and_eq_true, decide_eq_true_eq] at h ⊢
    have hunit : 0 < Nat.pow 10 (d.scale + places - maxScale) := Nat.pow_pos (by decide)
    generalize Nat.pow 10 (d.scale + places - maxScale) = unit at hunit
    have hle : (d.magnitude + unit / 2) / unit ≤ d.magnitude := by
      rw [← Nat.lt_succ_iff, Nat.div_lt_iff_lt_mul hunit, Nat.succ_mul]
      have hmul : d.magnitude ≤ d.magnitude * unit := Nat.le_mul_of_pos_right _ hunit
      omega
    exact ⟨hle.trans h.1, Nat.min_le_right _ _⟩

theorem fits_ofScientific? {text : String} {d : Decimal} (h : ofScientific? text = some d) :
    fits d.magnitude d.scale = true := by
  unfold ofScientific? at h
  split at h
  · cases h
  · obtain ⟨base, hbase, h⟩ := Option.bind_eq_some_iff.1 h
    obtain ⟨⟨left, places⟩, -, h⟩ := Option.bind_eq_some_iff.1 h
    have hfits := fits_readPlain? hbase
    cases left with
    | true => exact fits_shiftLeft? hfits h
    | false => exact fits_shiftRight? hfits h

theorem fits_ofText? {text : String} {d : Decimal} (h : ofText? text = some d) :
    fits d.magnitude d.scale = true := by
  unfold ofText? at h
  split at h
  · exact fits_ofScientific? h
  · exact fits_readPlain? h

/-- What coercion relies on of the readers of decimal text. -/
structure Readers.Lawful (lib : Readers) : Prop where
  /-- Text without an exponent is read digit by digit. -/
  digits : ∀ text : String, (∀ c ∈ text.toList, isMark c = false) → lib.text text = ofDigits? text
  /-- Such text is not read as one with an exponent. -/
  exponent : ∀ text : String, (∀ c ∈ text.toList, isMark c = false) → lib.scientific text = none
  /-- A decimal that was read has a mantissa of 96 bits and at most 28 places. -/
  fits : ∀ text d, lib.text text = some d ∨ lib.scientific text = some d →
    Decimal.fits d.magnitude d.scale = true

theorem readers_lawful : readers.Lawful where
  digits text htext := if_neg (by simpa using htext)
  exponent text htext := by
    have hnone : text.toList.dropWhile (!isMark ·) = [] := by
      rw [List.dropWhile_eq_nil_iff]
      exact fun c hc => by simp [htext c hc]
    simp only [readers, ofScientific?, hnone]
  fits text d h := h.elim fits_ofText? fits_ofScientific?

theorem Readers.Lawful.text_toText {lib : Readers} (h : lib.Lawful) {d : Decimal}
    (hfits : Decimal.fits d.magnitude d.scale = true) :
    lib.text (Text.trim d.toText) = some (ofParts d.negative d.magnitude d.scale) := by
  rw [trim_toText, h.digits d.toText fun c hc => (d.plain_toText c hc).2, ofDigits?_toText hfits]

end Decimal
end RelationalStore

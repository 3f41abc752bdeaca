import RelationalStore.Proofs.FieldTests
import RelationalStore.Proofs.InstantText

/- Values that are shown. A record shows its values as JSON, and literals are JSON, so what was
   shown can be handed back. What a kind makes of a literal is one of a few forms
   (`ScalarKind.Makes`), and in each of them the value shows something that the same kind reads as
   this value (`ScalarKind.Makes.coerce_toJson`): a number is in the range of its kind, and a text
   is read by the reader of the kind. For decimals that is any reader that reads digits as they are
   written (`Decimal.Readers.Lawful`). Zero is one decimal whatever sign a reader leaves at it
   (`Value.plain`), and no comparison looks at that. -/
namespace RelationalStore

/-! ### Numbers of literals -/

namespace Binary64
variable {negative : Bool} {num den : Nat}

theorem isFinite_zero (negative : Bool) : (zero negative).isFinite = true := by
  cases negative <;> decide

theorem nearestEven_le (num den : Nat) : nearestEven num den ≤ num / den + 1 := by
  simp only [nearestEven]
  split
  · omega
  · split
    · omega
    · split <;> omega

/-- Bits below those of infinity. -/
theorem isFinite_of_lt {n : Nat} (h : n < 2047 * 2 ^ 52) (sign : Nat) (hsign : sign < 2) :
    isFinite ⟨UInt64.ofNat (sign * 2 ^ 63 + n)⟩ = true := by
  have hbits : (UInt64.ofNat (sign * 2 ^ 63 + n)).toNat = sign * 2 ^ 63 + n :=
    UInt64.toNat_ofNat_of_lt' (by simp only [UInt64.size]; omega)
  have hbiased : (sign * 2 ^ 63 + n) / 2 ^ 52 % 2 ^ 11 < 2047 := by omega
  rw [isFinite, biased, hbits, bne_iff_ne]
  exact Nat.ne_of_lt hbiased

/-- At this exponent the quotient takes no more than 54 bits. -/
theorem scaleDown_lt {q : Int} (h : num.log2 ≤ q + 53) :
    (scaleDown num 1 q).1 / (scaleDown num 1 q).2 < 2 ^ 54 := by
  have hnum : num < 2 ^ (num.log2 + 1) := Nat.lt_log2_self
  unfold scaleDown
  split
  · next hneg =>
    have hexp : num.log2 + 1 + (-q).toNat ≤ 54 := by omega
    rw [Nat.div_one]
    calc num * 2 ^ (-q).toNat < 2 ^ (num.log2 + 1) * 2 ^ (-q).toNat :=
          Nat.mul_lt_mul_of_pos_right hnum (Nat.pow_pos (by decide))
      _ = 2 ^ (num.log2 + 1 + (-q).toNat) := (Nat.pow_add ..).symm
      _ ≤ 2 ^ 54 := Nat.pow_le_pow_right (by decide) hexp
  · next hpos =>
    have hexp : num.log2 + 1 ≤ 54 + q.toNat := by omega
    show num / (1 * 2 ^ q.toNat) < 2 ^ 54
    rw [Nat.one_mul, Nat.div_lt_iff_lt_mul (Nat.pow_pos (by decide))]
    calc num < 2 ^ (num.log2 + 1) := hnum
      _ ≤ 2 ^ (54 + q.toNat) := Nat.pow_le_pow_right (by decide) hexp
      _ = 2 ^ 54 * 2 ^ q.toNat := Nat.pow_add ..

/-- A whole number of 64 bits is far below infinity. -/
theorem isFinite_ofRatio (h : num < 2 ^ 64) : (ofRatio negative num 1).isFinite = true := by
  unfold ofRatio
  split
  · exact isFinite_zero negative
  next hzero =>
  have hlog : num.log2 < 64 := (Nat.log2_lt hzero).2 h
  have hone : Nat.log2 1 = 0 := by decide
  simp only [hone]
  generalize hlow : max ((num.log2 : Int) - (0 : Nat) - 53) (-1074) = low
  generalize hq : (if Nat.pow 2 53 ≤ (scaleDown num 1 low).1 / (scaleDown num 1 low).2 then low + 1
    else low) = q
  have hexp : num.log2 ≤ q + 53 ∧ q ≤ 11 := by
    split at hq <;> omega
  have hquotient := scaleDown_lt hexp.1
  have hnearest := nearestEven_le (scaleDown num 1 q).1 (scaleDown num 1 q).2
  generalize nearestEven (scaleDown num 1 q).1 (scaleDown num 1 q).2 = nearest at hnearest
  have hbound : (q + 1074).toNat * 2 ^ 52 + nearest < 2047 * 2 ^ 52 := by
    omega
  simp only [Nat.pow_eq]
  rw [if_neg (Nat.not_le.2 hbound)]
  cases negative with
  | false =>
    have hfinite := isFinite_of_lt hbound 0 (by decide)
    rwa [Nat.zero_mul] at hfinite
  | true => exact isFinite_of_lt hbound 1 (by decide)

theorem isFinite_ofInt {n : Int} (h : n.natAbs < 2 ^ 64) : (ofInt n).isFinite = true :=
  isFinite_ofRatio h

end Binary64

/-- A number is an integer of 64 bits, with a sign or without one, or a finite floating-point number. -/
def Json.InRange : Json → Prop
  | .int n => -2 ^ 63 ≤ n ∧ n < 2 ^ 64
  | .float x => x.isFinite = true
  | _ => True

/-- The number or text has no exponent. -/
def Json.Plain : Json → Prop
  | .float x => ∀ text ∈ x.text?, ∀ c ∈ text.toList, Decimal.isMark c = false
  | .string s => ∀ c ∈ s.toList, Decimal.isMark c = false
  | _ => True

/-! ### Values of literals -/

/-- The value, but with no sign at a zero. -/
def Value.plain : Value → Value
  | .decimal d => .decimal (.ofParts d.negative d.magnitude d.scale)
  | v => v

namespace ScalarKind
variable {k : ScalarKind} {lib : Decimal.Readers} {j : Json} {v : Value}

/-- The values that a kind makes of literals. -/
inductive Makes : ScalarKind → Value → Prop
  | null (k : ScalarKind) : Makes k .null
  | string (s : String) : Makes .string (.string s)
  | int (n : Int) (h : Json.isInt64 n = true) : Makes .int (.int n)
  | float (x : Binary64) (h : x.isFinite = true) : Makes .float (.float x)
  | boolean (b : Bool) : Makes .boolean (.bool b)
  | bytes (bs : List UInt8) : Makes .bytes (.bytes bs)
  | datetime (t : DateTime) (h : -1439 ≤ t.offsetMinutes ∧ t.offsetMinutes ≤ 1439) :
    Makes .datetime (.datetime t)
  | bigint (n : Int) : Makes .bigint (.bigint n)
  | decimal (d : Decimal) (h : Decimal.fits d.magnitude d.scale = true) : Makes .decimal (.decimal d)
  | json (j : Json) (h : j.isNull = false) : Makes .json (.json j)

theorem mapM_byteOf? (bs : List UInt8) :
    (bs.map fun b => Json.int b.toNat).mapM byteOf? = some bs := by
  rw [Option.mapM_eq_some, List.forall₂_map_left_iff, List.forall₂_same]
  intro b _
  have hlt : b.toNat < 256 := b.toNat_lt
  simp [byteOf?, Json.natural?, hlt]

theorem coerceWith_datetime (lib : Decimal.Readers) (s : String) :
    datetime.coerceWith lib (.string s) =
      (DateTime.ofText? s).elim (.error (.notDateTime s)) fun t => .ok (.datetime t) := rfl

theorem coerceWith_bigint (lib : Decimal.Readers) (s : String) : bigint.coerceWith lib (.string s) =
    (bigintOfText? (Text.trim s)).elim (.error (.notBigint s)) fun n => .ok (.bigint n) := rfl

theorem coerceWith_decimal (lib : Decimal.Readers) (s : String) :
    decimal.coerceWith lib (.string s) =
      (lib.text (Text.trim s)).elim (.error (.notDecimal s)) fun d => .ok (.decimal d) := rfl

theorem elim_eq_ok {α : Type} {x : Option α} {cause : CoercionError} {f : α → Value} :
    x.elim (.error cause) (fun a => Except.ok (f a)) = .ok v ↔ ∃ a, x = some a ∧ f a = v := by
  cases x <;> simp

theorem makes_of_coerceWith (hlib : lib.Lawful) (hj : j.InRange) (h : k.coerceWith lib j = .ok v) :
    k.Makes v := by
  unfold coerceWith at h
  simp only at h
  split at h
  · cases h
    exact .null k
  next hnull =>
  rw [Bool.not_eq_true] at hnull
  cases k <;> simp only [Option.elim_ok_eq_ok, Option.map_eq_some_iff] at h
  case string =>
    obtain ⟨s, -, rfl⟩ := h
    exact .string s
  case int =>
    obtain ⟨n, hn, rfl⟩ := h
    refine .int n ?_
    cases j <;> simp only [Json.int64?, reduceCtorEq] at hn
    split at hn <;> cases hn
    assumption
  case float =>
    obtain ⟨x, hx, rfl⟩ := h
    refine .float x ?_
    cases j <;> cases hx
    · exact Binary64.isFinite_ofInt (by simp only [Json.InRange] at hj; omega)
    · exact hj
  case boolean =>
    obtain ⟨b, -, rfl⟩ := h
    exact .boolean b
  case bytes =>
    obtain ⟨items, -, h⟩ := Option.bind_eq_some_iff.1 h
    obtain ⟨bs, -, rfl⟩ := Option.map_eq_some_iff.1 h
    exact .bytes bs
  case datetime =>
    split at h
    · obtain ⟨t, ht, rfl⟩ := elim_eq_ok.1 h
      exact .datetime t (DateTime.offset_ofText? ht)
    · split at h
      · cases h
      · obtain ⟨t, ht, rfl⟩ := elim_eq_ok.1 h
        refine .datetime t ?_
        rw [DateTime.offset_ofMillis? ht]
        decide
    · cases h
  case bigint =>
    split at h
    · cases h
      exact .bigint _
    · obtain ⟨n, -, rfl⟩ := elim_eq_ok.1 h
      exact .bigint n
    · cases h
  case decimal =>
    split at h
    · cases h
      refine .decimal _ (Decimal.fits_ofInt ?_)
      simp only [Json.InRange] at hj
      omega
    · obtain ⟨d, hd, rfl⟩ := elim_eq_ok.1 h
      obtain ⟨text, -, hd⟩ := Option.bind_eq_some_iff.1 hd
      exact .decimal d (hlib.fits text d (((Option.orElse_eq_some ..).1 hd).imp_right And.right))
    · obtain ⟨d, hd, rfl⟩ := elim_eq_ok.1 h
      exact .decimal d (hlib.fits _ d (.inl hd))
    · cases h
  case json =>
    cases h
    exact .json j hnull

theorem Makes.isOf (h : k.Makes v) : v.isOf k = true := by
  cases h with
  | null => cases k <;> rfl
  | _ => rfl

/-- What such a value shows is read as it again. -/
theorem Makes.coerce_toJson (hlib : lib.Lawful) (h : k.Makes v)
    (hyear : ∀ t, v = .datetime t → 0 ≤ t.localYear ∧ t.localYear ≤ 9999) :
    k.coerceWith lib v.toJson = .ok v.plain := by
  cases h with
  | null => rfl
  | string s => rfl
  | int n h => simp [coerceWith, Value.toJson, Json.isNull, Json.int64?, h, Value.plain]
  | float x h => simp [coerceWith, Value.toJson, Json.isNull, Json.float?, h, Value.plain]
  | boolean b => rfl
  | bytes bs =>
    show (((bs.map fun b => Json.int b.toNat).mapM byteOf?).map Value.bytes).elim _ Except.ok = _
    rw [mapM_byteOf?]
    rfl
  | datetime t h =>
    obtain ⟨text, htext⟩ := Option.isSome_iff_exists.1 (DateTime.isSome_toText?_iff.2 (hyear t rfl))
    rw [Value.toJson, htext, Option.elim_some, coerceWith_datetime, DateTime.ofText?_toText? h.1 h.2 htext,
      Option.elim_some]
    rfl
  | bigint n =>
    rw [Value.toJson, coerceWith_bigint, bigintOfText?_toString, Option.elim_some]
    rfl
  | decimal d h =>
    rw [Value.toJson, coerceWith_decimal, hlib.text_toText h, Option.elim_some, Value.plain]
  | json j h => simp [coerceWith, Value.toJson, h, Value.plain]

end ScalarKind

/-! ### Values that are equal -/

theorem Decimal.mantissa_ofParts (d : Decimal) :
    (ofParts d.negative d.magnitude d.scale).mantissa = d.mantissa := by
  obtain ⟨negative, magnitude, scale⟩ := d
  cases magnitude with
  | zero => simp [ofParts, mantissa]
  | succ n => simp [ofParts, mantissa]

theorem Decimal.compare_ofParts (d : Decimal) :
    Ord.compare d (ofParts d.negative d.magnitude d.scale) = .eq := by
  show compareValue d _ = _
  rw [compareValue, unitsAt, unitsAt, d.mantissa_ofParts]
  simp [ofParts, Std.ReflOrd.compare_self]

namespace Value

theorem isNull_plain (v : Value) : v.plain.isNull = v.isNull := by
  cases v <;> rfl

theorem within_plain (c : NumberClass) (v : Value) : v.plain.within c = v.within c := by
  cases v <;> rfl

theorem toJsonItems_eq (vs : List Value) : toJsonItems vs = vs.map toJson := by
  induction vs with
  | nil => rfl
  | cons v rest ih => rw [toJsonItems, ih, List.map_cons]

/-- The same value; of decimals, the same number with the same scale. -/
def Same (v w : Value) : Prop :=
  v = w ∨ ∃ d d', v = .decimal d ∧ w = .decimal d' ∧ d.mantissa = d'.mantissa ∧ d.scale = d'.scale

theorem same_plain (v : Value) : v.Same v.plain := by
  cases v with
  | decimal d => exact .inr ⟨d, _, rfl, rfl, d.mantissa_ofParts.symm, rfl⟩
  | _ => exact .inl rfl

theorem compare_self (v : Value) : compare v v = .eq := Std.ReflCmp.compare_self

theorem compare_plain (v : Value) : compare v v.plain = .eq := by
  cases v with
  | decimal d => exact Decimal.compare_ofParts d
  | _ => exact compare_self _

theorem compareIn_plain (mode : TextMode) (v : Value) : Entity.compareIn mode v v.plain = .eq := by
  cases mode with
  | sensitive => exact compare_plain v
  | insensitive =>
    cases v with
    | string s => exact Std.ReflOrd.compare_self
    | _ => exact compare_plain _

end Value

namespace Entity
variable {e : Entity} {f : FieldDef} {v : Value} {mode : TextMode}

/-- What a field shows finds the rows that have it. -/
theorem accepts_toJson (hlist : f.list = false) (hmode : f.Admits mode)
    (h : f.kind.coerce v.toJson = .ok v.plain) :
    e.Accepts f v { equals := some v.toJson, mode } := by
  have hcoerce : e.coerce f v.toJson = .ok v.plain := by
    rw [coerce, hlist, coerceItem, h]
    rfl
  rw [Accepts, passes_equals hmode, equalsLiteral, hcoerce, Except.ok_bind, Value.isNull_plain]
  cases hnull : v.isNull with
  | true => rfl
  | false => simp [hlist, Value.compareIn_plain, pure, Except.pure]

theorem accepts_toJson_list {vs : List Value} (hlist : f.list = true)
    (hkind : ∀ v ∈ vs, v.isOf f.kind = true)
    (h : ∀ v ∈ vs, f.kind.coerce v.toJson = .ok v.plain) :
    e.Accepts f (.list vs) { equals := some (Value.list vs).toJson } := by
  have hitems : (vs.map Value.toJson).mapM (e.coerceItem f) = .ok (vs.map Value.plain) := by
    rw [Except.mapM_eq_ok, List.forall₂_map_left_iff, List.forall₂_map_right_iff, List.forall₂_same]
    intro v hv
    rw [coerceItem, h v hv]
    rfl
  have hcoerce : e.coerce f (.array (vs.map Value.toJson)) = .ok (.list (vs.map Value.plain)) := by
    simp only [coerce, hlist, Json.isNull, Json.array?, hitems]
    rfl
  have hwithin : ∀ v ∈ vs, v.within f.kind.numbers := fun v hv => Value.within_of_isOf (hkind v hv)
  have hwithin' : ∀ v ∈ vs.map Value.plain, v.within f.kind.numbers := by
    refine List.forall_mem_map.2 fun v hv => ?_
    rw [Value.within_plain]
    exact hwithin v hv
  have hsame : sameItems vs (vs.map Value.plain) = true := by
    refine (sameItems_iff hwithin hwithin').2 ⟨_, ?_, .refl _⟩
    rw [List.forall₂_map_right_iff, List.forall₂_same]
    exact fun v _ => Value.compare_plain v
  rw [Accepts, passes_equals (.inl rfl), Value.toJson, Value.toJsonItems_eq, equalsLiteral, hcoerce,
    Except.ok_bind]
  simp [hlist, hsame, Value.isNull, Value.list?, pure, Except.pure]

end Entity

/-! ### Literals that are shown -/

/-- Text without an exponent stays so when it is trimmed. -/
theorem Text.mem_of_mem_trim {s : String} {c : Char} (h : c ∈ (trim s).toList) : c ∈ s.toList := by
  rw [trim, String.toList_ofList] at h
  have hdrop := (List.dropWhile_suffix _).subset (List.mem_reverse.1 h)
  exact (List.dropWhile_suffix _).subset (List.mem_reverse.1 hdrop)

namespace ScalarKind
variable {k : ScalarKind} {lib : Decimal.Readers} {v : Value}

/-- Without an exponent, zero has no sign. -/
theorem plain_of_coerceWith (hlib : lib.Lawful) {j : Json} (hj : j.InRange) (hplain : j.Plain)
    (h : k.coerceWith lib j = .ok v) : v.plain = v := by
  have hdigits {text : String} {d : Decimal} (htext : ∀ c ∈ text.toList, Decimal.isMark c = false)
      (hread : lib.text text = some d) : (Value.decimal d).plain = .decimal d := by
    rw [hlib.digits text htext] at hread
    rw [Value.plain, Decimal.ofParts_of_ofDigits? hread]
  cases makes_of_coerceWith hlib hj h with
  | decimal d hfits =>
    cases j with
    | int n =>
      obtain rfl : Decimal.ofInt n = d := by simpa [coerceWith, Json.isNull] using h
      simp only [Value.plain, Decimal.ofInt, Decimal.ofParts, Value.decimal.injEq,
        Decimal.mk.injEq, and_true]
      cases n <;> simp
    | float x =>
      obtain ⟨d', hread, hd'⟩ := elim_eq_ok.1 h
      cases hd'
      obtain ⟨text, htext, hread⟩ := Option.bind_eq_some_iff.1 hread
      rcases (Option.orElse_eq_some ..).1 hread with hread | ⟨-, hread⟩
      · exact hdigits (hplain text htext) hread
      · rw [hlib.exponent text (hplain text htext)] at hread
        cases hread
    | string s =>
      obtain ⟨d', hread, hd'⟩ := elim_eq_ok.1 h
      cases hd'
      exact hdigits (fun c hc => hplain c (Text.mem_of_mem_trim hc)) hread
    | _ => cases h
  | _ => rfl

/-- The kind makes the value of some literal; a time has a year that can be written. -/
def Offers (k : ScalarKind) (v : Value) : Prop :=
  ∃ j : Json, j.InRange ∧ k.coerce j = .ok v ∧
    ∀ t, v = .datetime t → 0 ≤ t.localYear ∧ t.localYear ≤ 9999

theorem Offers.coerce_toJson (h : k.Offers v) : k.coerce v.toJson = .ok v.plain := by
  obtain ⟨j, hj, hv, hyear⟩ := h
  exact (makes_of_coerceWith Decimal.readers_lawful hj hv).coerce_toJson Decimal.readers_lawful hyear

theorem coerce_millis {s : String} {t : DateTime} {millis : Int}
    (h : datetime.coerce (.string s) = .ok (.datetime t)) (hmillis : t.nanoseconds = millis * 1000000) :
    datetime.coerce (.int millis) =
      if t.nanoseconds < (CivilDate.mk 10000 1 1).toDays * DateTime.nanosPerDay then
        .ok (.datetime ⟨t.nanoseconds, 0⟩)
      else .error (.timestampOutOfRange millis) := by
  rw [coerce, coerceWith_datetime, elim_eq_ok] at h
  obtain ⟨_, h, ⟨⟩⟩ := h
  obtain ⟨hint, hread⟩ := DateTime.ofMillis?_of_ofText? h hmillis
  have hcoerce : datetime.coerce (.int millis) = (DateTime.ofMillis? millis).elim
      (.error (.timestampOutOfRange millis)) fun t => .ok (.datetime t) := by
    simp only [coerce, coerceWith, Json.int64?, hint]
    rfl
  rw [hcoerce, hread]
  split <;> rfl

/-- What a kind makes of a literal is made again of the JSON that it shows, whatever reads decimals, as
long as it reads digits as they are written. An RFC 3339 text and the milliseconds of one instant are
equal values, up to the year 9999 of UTC. And in a filter what is shown finds what shows it. -/
theorem coerce_shown (k : ScalarKind) :
    (∀ lib : Decimal.Readers, lib.Lawful → ∀ j v, j.InRange → k.coerceWith lib j = .ok v →
      (∀ t, v = .datetime t → 0 ≤ t.localYear ∧ t.localYear ≤ 9999) →
        ∃ w, k.coerceWith lib v.toJson = .ok w ∧ v.Same w ∧ v.compare w = .eq ∧
          (j.Plain → v = w)) ∧
    (∀ s t millis, datetime.coerce (.string s) = .ok (.datetime t) →
      t.nanoseconds = millis * 1000000 →
      if t.nanoseconds < (CivilDate.mk 10000 1 1).toDays * DateTime.nanosPerDay then
        ∃ v, datetime.coerce (.int millis) = .ok v ∧ (Value.datetime t).compare v = .eq
      else datetime.coerce (.int millis) = .error (.timestampOutOfRange millis)) ∧
    ∀ (e : Entity) (f : FieldDef), f.kind = k →
      (∀ v mode, f.list = false → f.Admits mode → k.Offers v →
        e.Accepts f v { equals := some v.toJson, mode }) ∧
      ∀ vs, f.list = true → (∀ v ∈ vs, k.Offers v) →
        e.Accepts f (.list vs) { equals := some (Value.list vs).toJson } := by
  refine ⟨fun lib hlib j v hj h hyear => ?_, fun s t millis h hmillis => ?_, ?_⟩
  · exact ⟨v.plain, (makes_of_coerceWith hlib hj h).coerce_toJson hlib hyear, v.same_plain,
      v.compare_plain, fun hplain => (plain_of_coerceWith hlib hj hplain h).symm⟩
  · have hcoerce := coerce_millis h hmillis
    split
    · next hbefore =>
      rw [if_pos hbefore] at hcoerce
      refine ⟨_, hcoerce, ?_⟩
      show Ord.compare t.nanoseconds t.nanoseconds = .eq
      exact Std.ReflOrd.compare_self
    · next hafter => rwa [if_neg hafter] at hcoerce
  · rintro e f rfl
    refine ⟨fun v mode hlist hmode h => Entity.accepts_toJson hlist hmode h.coerce_toJson,
      fun vs hlist h => ?_⟩
    refine Entity.accepts_toJson_list hlist (fun v hv => ?_) fun v hv => (h v hv).coerce_toJson
    obtain ⟨j, hj, hmade, -⟩ := h v hv
    exact (makes_of_coerceWith Decimal.readers_lawful hj hmade).isOf

/-- A price with the places that it was written with, which finds itself alone and in a list, and a time
with an offset. -/
theorem coerce_shown_samples :
    let cost := Value.decimal ⟨true, 150, 2⟩
    let noon : DateTime := ⟨1709204400500000000, 60⟩
    let price : FieldDef := { name := "price", kind := .decimal }
    let prices : FieldDef := { name := "prices", kind := .decimal, list := true }
    (decimal.coerce (.string " -1_.50") = .ok cost ∧ decimal.coerce cost.toJson = .ok cost) ∧
      (datetime.Offers (.datetime noon) ∧
        datetime.coerce (Value.datetime noon).toJson = .ok (.datetime noon)) ∧
      (∃ v, datetime.coerce (.int 1709204400500) = .ok v ∧ (Value.datetime noon).compare v = .eq) ∧
      Entity.song.Accepts price cost { equals := some cost.toJson } ∧
      Entity.song.Accepts prices (.list [cost, cost])
        { equals := some (Value.list [cost, cost]).toJson } := by
  intro cost noon price prices
  have hread : decimal.coerce (.string " -1_.50") = .ok cost := by rfl
  have hcost : decimal.Offers cost := ⟨.string _, trivial, hread, nofun⟩
  have htext : datetime.coerce (.string "2024-02-29T12:00:00.5+01:00") = .ok (.datetime noon) := by rfl
  have hyear : ∀ t, Value.datetime noon = .datetime t → 0 ≤ t.localYear ∧ t.localYear ≤ 9999 := by
    intro t ht
    cases ht
    decide
  have hmillis := (coerce_shown .datetime).2.1 _ noon 1709204400500 htext (by decide)
  rw [if_pos (by decide)] at hmillis
  obtain ⟨hdecimal, -, hfinds⟩ := coerce_shown .decimal
  obtain ⟨w, hw, -, -, hsame⟩ := hdecimal _ Decimal.readers_lawful (.string _) cost trivial hread nofun
  obtain ⟨w', hw', hsame', -⟩ := (coerce_shown .datetime).1 _ Decimal.readers_lawful (.string _) _
    trivial htext hyear
  obtain rfl := hsame (show ∀ c ∈ " -1_.50".toList, Decimal.isMark c = false by simp [Decimal.isMark])
  obtain rfl : w' = .datetime noon := by
    rcases hsame' with rfl | ⟨_, _, hdecimal, -⟩
    · rfl
    · cases hdecimal
  refine ⟨⟨hread, hw⟩, ⟨⟨.string _, trivial, htext, hyear⟩, hw'⟩, hmillis,
    (hfinds _ price rfl).1 cost .sensitive rfl (.inl rfl) hcost,
    (hfinds _ prices rfl).2 _ rfl fun v hv => ?_⟩
  have hv : v = cost := by simpa using hv
  rwa [hv]

/-- The milliseconds of a time in the year 10000 of UTC are no literal. -/
theorem not_coerce_shown :
    ∃ t, datetime.coerce (.string "9999-12-31T23:59:59-01:00") = .ok (.datetime t) ∧
      t.localYear = 9999 ∧ t.nanoseconds = 253402304399000 * 1000000 ∧
      datetime.coerce (.int 253402304399000) = .error (.timestampOutOfRange 253402304399000) :=
  ⟨⟨253402304399000 * 1000000, -60⟩, by rfl, by decide, rfl, by rfl⟩

end ScalarKind
end RelationalStore

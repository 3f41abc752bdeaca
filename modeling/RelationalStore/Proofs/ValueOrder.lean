import RelationalStore.Value.Kind

/- The order of values. Comparing two values the other way round gives the opposite answer, for all
   values. The order is not transitive on all of them, because an integer and a floating-point
   number meet as floating-point numbers and two integers do not. It is transitive on the values
   whose numbers are all integers, all integers or decimals, or all floating-point numbers
   (`NumberClass`), however deep the numbers lie in lists. A column that holds one kind of value
   keeps to one class (`ScalarKind.numbers`), so its values are in order, and so are keys whose
   parts keep to a class each (`Key.within`). -/
namespace RelationalStore

/-- The order is transitive on the members of `P`. -/
def TransOn {α : Type} (order : α → α → Ordering) (P : α → Prop) : Prop :=
  ∀ a b c, P a → P b → P c → (order a b).isLE → (order b c).isLE → (order a c).isLE

namespace TransOn
variable {α : Type} {order : α → α → Ordering} {P : α → Prop} [Std.OrientedCmp order] {a b c : α}

/-- On the members alone the order is lawful. -/
theorem lawful (h : TransOn order P) : Std.TransCmp fun a b : Subtype P => order a.1 b.1 where
  eq_swap := Std.OrientedCmp.eq_swap
  isLE_trans {a b c} := h a.1 b.1 c.1 a.2 b.2 c.2

theorem lt_of_lt_of_isLE (h : TransOn order P) (ha : P a) (hb : P b) (hc : P c)
    (hab : order a b = .lt) (hbc : (order b c).isLE) : order a c = .lt :=
  @Std.TransCmp.lt_of_lt_of_isLE _ _ h.lawful ⟨a, ha⟩ ⟨b, hb⟩ ⟨c, hc⟩ hab hbc

theorem lt_trans (h : TransOn order P) (ha : P a) (hb : P b) (hc : P c)
    (hab : order a b = .lt) (hbc : order b c = .lt) : order a c = .lt :=
  @Std.TransCmp.lt_trans _ _ h.lawful ⟨a, ha⟩ ⟨b, hb⟩ ⟨c, hc⟩ hab hbc

theorem eq_trans (h : TransOn order P) (ha : P a) (hb : P b) (hc : P c)
    (hab : order a b = .eq) (hbc : order b c = .eq) : order a c = .eq :=
  @Std.TransCmp.eq_trans _ _ h.lawful ⟨a, ha⟩ ⟨b, hb⟩ ⟨c, hc⟩ hab hbc

theorem congr_left (h : TransOn order P) (ha : P a) (hb : P b) (hc : P c)
    (hab : order a b = .eq) : order a c = order b c :=
  @Std.TransCmp.congr_left _ _ h.lawful ⟨a, ha⟩ ⟨b, hb⟩ ⟨c, hc⟩ hab

theorem congr_right (h : TransOn order P) (ha : P a) (hb : P b) (hc : P c)
    (hbc : order b c = .eq) : order a b = order a c :=
  @Std.TransCmp.congr_right _ _ h.lawful ⟨a, ha⟩ ⟨b, hb⟩ ⟨c, hc⟩ hbc

end TransOn

/-! ### Numbers -/

instance : Std.TransOrd Binary64 where
  eq_swap {x y} := @Std.OrientedOrd.eq_swap Int _ _ x.orderKey y.orderKey
  isLE_trans {x y z} := @Std.TransOrd.isLE_trans Int _ _ x.orderKey y.orderKey z.orderKey

instance : Std.TransOrd DateTime where
  eq_swap {x y} := @Std.OrientedOrd.eq_swap Int _ _ x.nanoseconds y.nanoseconds
  isLE_trans {x y z} :=
    @Std.TransOrd.isLE_trans Int _ _ x.nanoseconds y.nanoseconds z.nanoseconds

namespace Decimal

theorem unitsAt_add (d : Decimal) (scale more : Nat) (h : d.scale ≤ scale) :
    d.unitsAt (scale + more) = d.unitsAt scale * Nat.pow 10 more := by
  have hs : scale + more - d.scale = (scale - d.scale) + more := by omega
  simp only [unitsAt, hs, Nat.pow_eq, Nat.pow_add, Int.natCast_mul, Int.mul_assoc]

theorem compare_mul_right (x y : Int) (n : Nat) (hn : 0 < n) :
    compare (x * n) (y * n) = compare x y := by
  have hn : (0 : Int) < n := by omega
  rcases Int.lt_trichotomy x y with h | h | h
  · rw [Std.compare_eq_lt.2 h, Std.compare_eq_lt.2 (Int.mul_lt_mul_of_pos_right h hn)]
  · subst h
    simp [Std.ReflOrd.compare_self]
  · rw [Std.compare_eq_gt.2 h, Std.compare_eq_gt.2 (Int.mul_lt_mul_of_pos_right h hn)]

/-- Decimals compare as integers at any number of places that both can be written with. -/
theorem compareValue_eq (a b : Decimal) (scale : Nat) (ha : a.scale ≤ scale)
    (hb : b.scale ≤ scale) : compareValue a b = compare (a.unitsAt scale) (b.unitsAt scale) := by
  obtain ⟨more, rfl⟩ : ∃ more, scale = max a.scale b.scale + more :=
    ⟨scale - max a.scale b.scale, by omega⟩
  rw [unitsAt_add a _ _ (by omega), unitsAt_add b _ _ (by omega),
    compare_mul_right _ _ (Nat.pow 10 more) (Nat.pow_pos (by decide))]
  rfl

instance : Std.TransOrd Decimal where
  eq_swap {a b} := by
    show compareValue a b = (compareValue b a).swap
    rw [compareValue_eq a b (max a.scale b.scale) (by omega) (by omega),
      compareValue_eq b a (max a.scale b.scale) (by omega) (by omega)]
    exact Std.OrientedOrd.eq_swap
  isLE_trans {a b c} := by
    show (compareValue a b).isLE → (compareValue b c).isLE → (compareValue a c).isLE
    -- All three are written with one number of places.
    let scale := max a.scale (max b.scale c.scale)
    rw [compareValue_eq a b scale (by omega) (by omega),
      compareValue_eq b c scale (by omega) (by omega),
      compareValue_eq a c scale (by omega) (by omega)]
    exact Std.TransOrd.isLE_trans

theorem compare_ofInt (m n : Int) : compare (ofInt m) (ofInt n) = compare m n := by
  show compareValue (ofInt m) (ofInt n) = compare m n
  rw [compareValue_eq _ _ 0 (by simp [ofInt]) (by simp [ofInt])]
  simp [unitsAt]

end Decimal

/-- Numbers that are in order among themselves. -/
inductive NumberClass where
  /-- Integers and big integers. -/
  | whole
  /-- Integers and decimals. -/
  | exact
  | floating
  deriving DecidableEq

/-- The class that the numbers of a kind belong to; a kind that has none can take any. -/
def ScalarKind.numbers : ScalarKind → NumberClass
  | .float => .floating
  | .decimal => .exact
  | _ => .whole

namespace Value

/-- Whether the value is null or a value of the kind. -/
def isOf : ScalarKind → Value → Bool
  | _, .null => true
  | .string, .string _ => true
  | .int, .int _ => true
  | .float, .float _ => true
  | .boolean, .bool _ => true
  | .bytes, .bytes _ => true
  | .datetime, .datetime _ => true
  | .bigint, .bigint _ => true
  | .decimal, .decimal _ => true
  | .json, .json _ => true
  | _, _ => false

mutual

/-- Whether every number in the value belongs to the class. -/
def within (c : NumberClass) : Value → Bool
  | .int _ => c != .floating
  | .bigint _ => c == .whole
  | .decimal _ => c == .exact
  | .float _ => c == .floating
  | .list items => allWithin c items
  | _ => true

def allWithin (c : NumberClass) : List Value → Bool
  | [] => true
  | v :: rest => within c v && allWithin c rest

end

theorem allWithin_iff {c : NumberClass} {items : List Value} :
    allWithin c items = true ↔ ∀ v ∈ items, within c v = true := by
  induction items with
  | nil => simp [allWithin]
  | cons v rest ih => simp [allWithin, ih]

theorem within_of_isOf {kind : ScalarKind} {v : Value} (h : v.isOf kind) :
    v.within kind.numbers := by
  cases kind <;> cases v <;> simp [isOf, within, ScalarKind.numbers] at h ⊢

/-! ### Comparing the other way round -/

theorem compareSimple_of_rank_ne (a b : Value) (h : a.rank ≠ b.rank) :
    compareSimple a b = Ord.compare a.rank b.rank := by
  cases a <;> cases b <;> first | rfl | exact absurd rfl h

theorem compareLists_eq_swap {α : Type} (order : α → α → Ordering) [Std.OrientedCmp order] :
    ∀ xs ys : List α, compareLists order xs ys = (compareLists order ys xs).swap
  | [], [] => rfl
  | [], _ :: _ => rfl
  | _ :: _, [] => rfl
  | x :: xs, y :: ys => by
    have hswap : order x y = (order y x).swap := Std.OrientedCmp.eq_swap
    have ih := compareLists_eq_swap order xs ys
    cases h : order y x <;> simp_all [compareLists]

/-- The order of bytes. -/
theorem oriented_bytes : Std.OrientedCmp fun x y : UInt8 => Ord.compare x.toNat y.toNat where
  eq_swap := Std.OrientedOrd.eq_swap

theorem compareSimple_eq_swap (a b : Value) : compareSimple a b = (compareSimple b a).swap := by
  have := oriented_bytes
  by_cases h : a.rank = b.rank
  · cases a <;> cases b <;> first
      | exact absurd h (by decide)
      | exact Std.OrientedOrd.eq_swap
      | rfl
      | exact compareLists_eq_swap _ _ _
  · rw [compareSimple_of_rank_ne a b h, compareSimple_of_rank_ne b a (Ne.symm h)]
    exact Std.OrientedOrd.eq_swap

theorem compareItems_eq_compareLists :
    ∀ xs ys : List Value, compareItems xs ys = compareLists compare xs ys
  | [], [] => rfl
  | [], _ :: _ => rfl
  | _ :: _, [] => rfl
  | x :: xs, y :: ys => by
    rw [compareItems, compareLists, compareItems_eq_compareLists xs ys]

theorem compare_of_not_list {a b : Value} (h : a.list? = none ∨ b.list? = none) :
    compare a b = compareSimple a b := by
  cases a <;> cases b <;> first | rfl | simp [list?] at h

mutual

theorem compare_eq_swap : ∀ a b : Value, compare a b = (compare b a).swap
  | .list xs, .list ys => by
    rw [compare, compare, compareItems_eq_swap xs ys]
  | .null, b | .bool _, b | .int _, b | .float _, b | .string _, b | .bigint _, b | .decimal _, b
  | .datetime _, b | .bytes _, b | .json _, b => by
    rw [compare_of_not_list (.inl rfl), compare_of_not_list (.inr rfl), compareSimple_eq_swap]
  | .list xs, b => by
    cases b with
    | list ys => rw [compare, compare, compareItems_eq_swap xs ys]
    | _ => rw [compare_of_not_list (.inr rfl), compare_of_not_list (.inl rfl), compareSimple_eq_swap]

theorem compareItems_eq_swap :
    ∀ xs ys : List Value, compareItems xs ys = (compareItems ys xs).swap
  | [], [] => rfl
  | [], _ :: _ => rfl
  | _ :: _, [] => rfl
  | x :: xs, y :: ys => by
    have hx := compare_eq_swap x y
    have ih := compareItems_eq_swap xs ys
    cases h : compare y x <;> simp_all [compareItems]

end

instance : Std.OrientedCmp compare := ⟨compare_eq_swap _ _⟩

instance : Std.OrientedOrd Value := ⟨compare_eq_swap _ _⟩

/-! ### Transitivity -/

/-- Lists are in order if at every place their items are. -/
theorem compareLists_isLE_trans {α : Type} {order : α → α → Ordering} [Std.OrientedCmp order]
    (P : Nat → α → Prop) (h : ∀ i, TransOn order (P i)) :
    TransOn (compareLists order) fun xs => ∀ i x, xs[i]? = some x → P i x
  | [], _, zs, _, _, _, _, _ => by cases zs <;> rfl
  | _ :: _, [], _, _, _, _, hxy, _ => by cases hxy
  | _ :: _, _ :: _, [], _, _, _, _, hyz => by cases hyz
  | x :: xs, y :: ys, z :: zs, hx, hy, hz, hxy, hyz => by
    have hx0 := hx 0 x rfl
    have hy0 := hy 0 y rfl
    have hz0 := hz 0 z rfl
    have ih := compareLists_isLE_trans (fun i => P (i + 1)) (fun i => h (i + 1)) xs ys zs
      (fun i => hx (i + 1)) (fun i => hy (i + 1)) (fun i => hz (i + 1))
    simp only [compareLists] at hxy hyz ⊢
    cases h₁ : order x y with
    | gt => simp [h₁] at hxy
    | lt =>
      have hyz : (order y z).isLE := by
        cases h₂ : order y z <;> simp_all
      rw [(h 0).lt_of_lt_of_isLE hx0 hy0 hz0 h₁ hyz]
      rfl
    | eq =>
      rw [(h 0).congr_left hx0 hy0 hz0 h₁]
      rw [h₁] at hxy
      cases h₂ : order y z with
      | gt => simp [h₂] at hyz
      | lt => rfl
      | eq =>
        rw [h₂] at hyz
        exact ih hxy hyz

theorem bytes_isLE_trans :
    TransOn (fun x y : UInt8 => Ord.compare x.toNat y.toNat) fun _ => True :=
  fun _ _ _ _ _ _ => Std.TransOrd.isLE_trans

/-- A number that is an integer or a decimal, as a decimal. -/
def asDecimal : Value → Decimal
  | .int n => .ofInt n
  | .decimal d => d
  | _ => default

/-- A number that is an integer, big or not. -/
def asInt : Value → Int
  | .int n => n
  | .bigint n => n
  | _ => default

theorem compareSimple_whole {x y : Value} (hx : x.rank = 2) (hy : y.rank = 2)
    (hxc : x.within .whole) (hyc : y.within .whole) :
    compareSimple x y = Ord.compare x.asInt y.asInt := by
  cases x <;> simp [rank, within] at hx hxc <;> cases y <;> simp [rank, within] at hy hyc <;> rfl

theorem compareSimple_exact {x y : Value} (hx : x.rank = 2) (hy : y.rank = 2)
    (hxc : x.within .exact) (hyc : y.within .exact) :
    compareSimple x y = Ord.compare x.asDecimal y.asDecimal := by
  cases x <;> simp [rank, within] at hx hxc <;> cases y <;> simp [rank, within] at hy hyc <;>
    first | rfl | exact (Decimal.compare_ofInt _ _).symm

theorem compareSimple_number_isLE_trans (c : NumberClass) :
    TransOn compareSimple fun v => v.within c ∧ v.rank = 2 := by
  intro x y z hx hy hz
  obtain ⟨hx, hx2⟩ := hx
  obtain ⟨hy, hy2⟩ := hy
  obtain ⟨hz, hz2⟩ := hz
  cases c with
  | whole =>
    rw [compareSimple_whole hx2 hy2 hx hy, compareSimple_whole hy2 hz2 hy hz,
      compareSimple_whole hx2 hz2 hx hz]
    exact Std.TransOrd.isLE_trans
  | exact =>
    rw [compareSimple_exact hx2 hy2 hx hy, compareSimple_exact hy2 hz2 hy hz,
      compareSimple_exact hx2 hz2 hx hz]
    exact Std.TransOrd.isLE_trans
  | floating =>
    cases x <;> simp [rank, within] at hx2 hx
    cases y <;> simp [rank, within] at hy2 hy
    cases z <;> simp [rank, within] at hz2 hz
    exact @Std.TransOrd.isLE_trans Binary64 _ _ _ _ _

/-- Values of one rank, other than lists. -/
theorem compareSimple_isLE_trans_of_rank {c : NumberClass} {x y z : Value}
    (hx : x.within c) (hy : y.within c) (hz : z.within c) (hxy : x.rank = y.rank)
    (hyz : y.rank = z.rank) (hl : x.list? = none) (h₁ : (compareSimple x y).isLE)
    (h₂ : (compareSimple y z).isLE) : (compareSimple x z).isLE := by
  by_cases hx2 : x.rank = 2
  · exact compareSimple_number_isLE_trans c x y z ⟨hx, hx2⟩ ⟨hy, by omega⟩ ⟨hz, by omega⟩ h₁ h₂
  · have := oriented_bytes
    cases x <;> simp [rank] at hx2 <;> cases y <;> simp [rank] at hxy <;>
      cases z <;> simp [rank] at hyz
    case null => rfl
    case bool => exact @Std.TransOrd.isLE_trans Nat _ _ _ _ _ h₁ h₂
    case string => exact @Std.TransOrd.isLE_trans String _ _ _ _ _ h₁ h₂
    case datetime => exact @Std.TransOrd.isLE_trans DateTime _ _ _ _ _ h₁ h₂
    case bytes xs ys zs =>
      exact compareLists_isLE_trans (fun _ _ => True) (fun _ => bytes_isLE_trans) xs ys zs (by simp)
        (by simp) (by simp) h₁ h₂
    case json => exact @Std.TransOrd.isLE_trans String _ _ _ _ _ h₁ h₂
    case list => simp [list?] at hl

theorem list?_eq_none {v : Value} (h : v.rank ≠ 7) : v.list? = none := by
  cases v <;> first | rfl | exact absurd rfl h

theorem rank_eq_seven {v : Value} (h : v.rank = 7) : ∃ items, v = .list items := by
  cases v <;> simp [rank] at h
  exact ⟨_, rfl⟩

theorem compare_of_rank_ne {x y : Value} (h : x.rank ≠ y.rank) :
    compare x y = Ord.compare x.rank y.rank := by
  rw [compare_of_not_list, compareSimple_of_rank_ne x y h]
  cases x <;> cases y <;> simp_all [list?, rank]

theorem rank_le_of_isLE {x y : Value} (h : (compare x y).isLE) : x.rank ≤ y.rank := by
  by_cases hr : x.rank = y.rank
  · omega
  · rw [compare_of_rank_ne hr, Nat.isLE_compare] at h
    exact h

theorem isNull_iff {v : Value} : v.isNull = true ↔ v.rank = 0 := by
  cases v <;> simp [isNull, rank]

theorem isNull_eq_of_compare {x y : Value} (h : compare x y = .eq) : x.isNull = y.isNull := by
  have hxy : x.rank ≤ y.rank := rank_le_of_isLE (by rw [h]; rfl)
  have hyx : y.rank ≤ x.rank := rank_le_of_isLE (by rw [compare_eq_swap, h]; rfl)
  rw [Bool.eq_iff_iff, isNull_iff, isNull_iff]
  omega

/-- Values of a class are in order: by rank, and within one rank by the order of that rank, where
the items of two lists are compared in the same way. -/
theorem compare_isLE_trans (c : NumberClass) : TransOn compare fun v => v.within c := by
  suffices h : ∀ n, TransOn compare fun v => v.within c ∧ sizeOf v < n by
    intro x y z hx hy hz
    exact h (sizeOf x + sizeOf y + sizeOf z + 1) x y z ⟨hx, by omega⟩ ⟨hy, by omega⟩
      ⟨hz, by omega⟩
  intro n
  induction n with
  | zero =>
    intro x y z hx
    exact absurd hx.2 (Nat.not_lt_zero _)
  | succ n ih =>
    -- The induction is on the size because the items of lists are lists again.
    intro x y z hx hy hz h₁ h₂
    obtain ⟨hx, hxn⟩ := hx
    obtain ⟨hy, hyn⟩ := hy
    obtain ⟨hz, hzn⟩ := hz
    have hxy := rank_le_of_isLE h₁
    have hyz := rank_le_of_isLE h₂
    by_cases hr : x.rank = z.rank
    · by_cases h7 : x.rank = 7
      · obtain ⟨xs, rfl⟩ := rank_eq_seven h7
        obtain ⟨ys, rfl⟩ := rank_eq_seven (v := y) (by omega)
        obtain ⟨zs, rfl⟩ := rank_eq_seven (v := z) (by omega)
        simp only [compare, compareItems_eq_compareLists] at h₁ h₂ ⊢
        simp only [within, allWithin_iff, list.sizeOf_spec] at hx hy hz hxn hyn hzn
        have smaller {items : List Value} (hc : ∀ v ∈ items, v.within c) (hn : 1 + sizeOf items < n + 1)
            (i : Nat) (v : Value) (hv : items[i]? = some v) : v.within c ∧ sizeOf v < n := by
          have hmem := List.mem_of_getElem? hv
          have := List.sizeOf_lt_of_mem hmem
          exact ⟨hc v hmem, by omega⟩
        exact compareLists_isLE_trans _ (fun _ => ih) xs ys zs (smaller hx hxn) (smaller hy hyn)
          (smaller hz hzn) h₁ h₂
      · have hx7 := list?_eq_none h7
        have hy7 := list?_eq_none (v := y) (by omega)
        rw [compare_of_not_list (.inl hx7)] at h₁ ⊢
        rw [compare_of_not_list (.inl hy7)] at h₂
        exact compareSimple_isLE_trans_of_rank hx hy hz (by omega) (by omega) hx7 h₁ h₂
    · rw [compare_of_rank_ne hr, Nat.isLE_compare]
      omega

end Value

/-! ### Keys -/

instance : Std.OrientedOrd Key := ⟨Value.compareItems_eq_swap _ _⟩

namespace Key

/-- Every part of the key keeps to the class of its column, where `κ` gives each column a class. -/
def Fits (κ : String → NumberClass) (columns : List String) (k : Key) : Prop :=
  ∀ (i : Nat) (v : Value), k.parts[i]? = some v → v.within ((columns[i]?).elim .whole κ)

/-- A key with one part for each column fits if each part keeps to its column's class. -/
theorem fits_of_zip {κ : String → NumberClass} {columns : List String} {k : Key}
    (hlen : k.parts.length = columns.length)
    (h : ∀ p ∈ columns.zip k.parts, p.2.within (κ p.1)) : k.Fits κ columns := by
  intro i v hv
  obtain ⟨hi, -⟩ := List.getElem?_eq_some_iff.1 hv
  have hc : columns[i]? = some columns[i] := List.getElem?_eq_getElem (by omega)
  rw [hc]
  refine h (columns[i], v) (List.mem_of_getElem? (i := i) ?_)
  simp [List.getElem?_zip_eq_some, hc, hv]

/-- In each place the part keeps to the class of the place. -/
def Within (classes : Nat → NumberClass) (k : Key) : Prop :=
  ∀ (i : Nat) (v : Value), k.parts[i]? = some v → v.within (classes i)

theorem compare_isLE_trans_within (classes : Nat → NumberClass) :
    TransOn (compare : Key → Key → Ordering) (Within classes) := by
  intro a b c ha hb hc
  show (Value.compareItems _ _).isLE → (Value.compareItems _ _).isLE → (Value.compareItems _ _).isLE
  simp only [Value.compareItems_eq_compareLists]
  exact Value.compareLists_isLE_trans _ (fun i => Value.compare_isLE_trans (classes i))
    a.parts b.parts c.parts ha hb hc

theorem compare_isLE_trans (κ : String → NumberClass) (columns : List String) :
    TransOn (compare : Key → Key → Ordering) (Fits κ columns) :=
  compare_isLE_trans_within fun i => (columns[i]?).elim .whole κ

theorem equiv_iff {a b : Key} : a.equiv b = true ↔ compare a b = .eq := by
  simp [equiv]

/-- A null is equal to nothing else, so of two equal keys both have one or neither has. -/
theorem hasNull_eq_of_compare {a b : Key} (h : compare a b = .eq) : a.hasNull = b.hasNull := by
  obtain ⟨xs⟩ := a
  obtain ⟨ys⟩ := b
  change Value.compareItems xs ys = .eq at h
  show xs.any Value.isNull = ys.any Value.isNull
  induction xs generalizing ys with
  | nil =>
    cases ys with
    | nil => rfl
    | cons y ys => cases h
  | cons x xs ih =>
    cases ys with
    | nil => cases h
    | cons y ys =>
      simp only [Value.compareItems] at h
      split at h
      · next hxy => rw [List.any_cons, List.any_cons, Value.isNull_eq_of_compare hxy, ih ys h]
      · next hne => exact absurd h hne

/-- Equal keys have equally many parts. -/
theorem length_eq_of_compare {a b : Key} (h : compare a b = .eq) :
    a.parts.length = b.parts.length := by
  obtain ⟨xs⟩ := a
  obtain ⟨ys⟩ := b
  change Value.compareItems xs ys = .eq at h
  show xs.length = ys.length
  induction xs generalizing ys with
  | nil =>
    cases ys with
    | nil => rfl
    | cons y ys => cases h
  | cons x xs ih =>
    cases ys with
    | nil => cases h
    | cons y ys =>
      simp only [Value.compareItems] at h
      split at h
      · rw [List.length_cons, List.length_cons, ih ys h]
      · next hne => exact absurd h hne

end Key

namespace Row

/-- What the row holds in the columns keeps to their classes. -/
def Fits (κ : String → NumberClass) (columns : List String) (row : Row) : Prop :=
  ∀ c ∈ columns, (row.value c).within (κ c)

theorem Fits.key {κ : String → NumberClass} {columns : List String} {row : Row}
    (h : row.Fits κ columns) : (Key.ofRow columns row).Fits κ columns := by
  intro i v hv
  simp only [Key.ofRow, List.getElem?_map, Option.map_eq_some_iff] at hv
  obtain ⟨c, hc, rfl⟩ := hv
  rw [hc]
  exact h c (List.mem_of_getElem? hc)

/-- Every value of the row keeps to the class of its column. -/
def Within (κ : String → NumberClass) (row : Row) : Prop := ∀ c, (row.value c).within (κ c)

theorem Within.fits {κ : String → NumberClass} {columns : List String} {row : Row}
    (h : row.Within κ) : row.Fits κ columns :=
  fun c _ => h c

theorem Fits.mono {κ : String → NumberClass} {columns some : List String} {row : Row}
    (h : row.Fits κ columns) (hs : ∀ c ∈ some, c ∈ columns) : row.Fits κ some :=
  fun c hc => h c (hs c hc)

end Row

end RelationalStore

import RelationalStore.Proofs.StoredRows

/- Sorting rows and keeping one of each, against what they should give. `SortedStably` says of a
   list that it has the members of another, in order, and that members which were in order before
   follow each other as they did. `firstOfEach` keeps a row where no row before it has the same
   values in some fields.

   The engine sorts by keys that it reads off each row, and remembers the values that it has seen in
   a set that is sorted itself. Either is right where the order is one: where the values that are
   compared have their numbers in one class. For the sort this is a fact about the whole order
   (`Comparable`): what a clause compares in the rows, or in the rows that a relation joins to them,
   is of one class, so that the keys of any of the rows are under the same leaves
   (`sortKeys_aligned`, by recursion on the order). -/
namespace RelationalStore
open SortedMap Read

/-! ### Stable sorting -/

/-- The same members in order, those that were in order already as they were. -/
structure SortedStably {α : Type} (le : α → α → Prop) (l sorted : List α) : Prop where
  perm : sorted.Perm l
  ordered : sorted.Pairwise le
  stable : ∀ kept : List α, kept.Pairwise le → kept.Sublist l → kept.Sublist sorted

/-- Members that are in order already are given back among each other as they were. -/
theorem SortedStably.filter_eq {α : Type} {le : α → α → Prop} {l sorted : List α}
    (h : SortedStably le l sorted) {p : α → Bool} (hp : (l.filter p).Pairwise le) :
    sorted.filter p = l.filter p := by
  have hsub : (l.filter p).Sublist (sorted.filter p) := by
    have hkept := (h.stable _ hp List.filter_sublist).filter p
    rwa [List.filter_filter, funext fun a => Bool.and_self (p a)] at hkept
  exact (hsub.eq_of_length (h.perm.filter p).length_eq.symm).symm

section MergeSort
variable {α : Type} {le : α → α → Bool} {P : α → Prop} {l : List α}

/-- Sorting a list looks at its members alone. -/
theorem mergeSort_congr {le' : α → α → Bool} (h : ∀ a ∈ l, ∀ b ∈ l, le a b = le' a b) :
    l.mergeSort le = l.mergeSort le' := by
  have := List.map_mergeSort (f := id) h
  simpa using this

/-- It is enough that the order is one among the members of the list. -/
theorem sortedStably_mergeSort
    (htrans : ∀ a b c, P a → P b → P c → le a b → le b c → le a c)
    (htotal : ∀ a b, P a → P b → (le a b || le b a)) (hl : ∀ a ∈ l, P a) :
    SortedStably (fun a b => le a b) l (l.mergeSort le) := by
  classical
  -- The other elements come after, all alike, which makes the order total.
  let whole (a b : α) : Bool := if P b then decide (P a) && le a b else true
  have hwhole : ∀ a b, P a → P b → whole a b = le a b := by
    intro a b ha hb
    simp [whole, ha, hb]
  have hw : ∀ a ∈ l, ∀ b ∈ l, le a b = whole a b :=
    fun a ha b hb => (hwhole a b (hl a ha) (hl b hb)).symm
  have hwtrans : ∀ a b c, whole a b → whole b c → whole a c := by
    intro a b c hab hbc
    by_cases hc : P c
    · by_cases hb : P b
      · by_cases ha : P a
        · rw [hwhole _ _ ha hb] at hab
          rw [hwhole _ _ hb hc] at hbc
          rw [hwhole _ _ ha hc]
          exact htrans a b c ha hb hc hab hbc
        · simp [whole, ha, hb] at hab
      · simp [whole, hb, hc] at hbc
    · simp [whole, hc]
  have hwtotal : ∀ a b, (whole a b || whole b a) := by
    intro a b
    by_cases ha : P a <;> by_cases hb : P b <;> simp [whole, ha, hb]
    simpa using htotal a b ha hb
  have hmem : ∀ a ∈ l.mergeSort le, P a := fun a ha => hl a (by simpa using ha)
  refine ⟨List.mergeSort_perm l le, ?_, ?_⟩
  · rw [mergeSort_congr hw] at hmem ⊢
    refine (List.pairwise_mergeSort hwtrans hwtotal l).imp_of_mem fun ha hb hab => ?_
    rwa [hwhole _ _ (hmem _ ha) (hmem _ hb)] at hab
  · intro kept hkept hsub
    rw [mergeSort_congr hw]
    refine List.sublist_mergeSort hwtrans hwtotal (hkept.imp_of_mem fun ha hb hab => ?_) hsub
    rwa [hwhole _ _ (hl _ (hsub.subset ha)) (hl _ (hsub.subset hb))]

end MergeSort

/-! ### Sort keys -/

namespace SortKey

/-- The order of two values under one leaf. -/
def order (direction : Direction) (nulls : Option NullsPlace) (a b : Value) : Ordering :=
  compare ⟨a, direction, nulls⟩ ⟨b, direction, nulls⟩

section Order
variable {direction : Direction} {nulls : Option NullsPlace} {a b : Value}

theorem order_asc (ha : a.isNull = false) (hb : b.isNull = false) :
    order .asc nulls a b = Ord.compare a b := by
  simp [order, compare, ha, hb]

theorem order_desc (ha : a.isNull = false) (hb : b.isNull = false) :
    order .desc nulls a b = Ord.compare b a := by
  rw [show Ord.compare b a = (Ord.compare a b).swap from Std.OrientedOrd.eq_swap]
  simp [order, compare, ha, hb]

theorem order_null (ha : a.isNull = true) (hb : b.isNull = true) :
    order direction nulls a b = .eq := by
  simp [order, compare, ha, hb]

theorem order_null_left (ha : a.isNull = true) (hb : b.isNull = false) :
    order direction nulls a b = if nullsFirst ⟨.null, direction, nulls⟩ then .lt else .gt := by
  simp only [order, compare, ha, hb]
  rfl

theorem order_null_right (ha : a.isNull = false) (hb : b.isNull = true) :
    order direction nulls a b = if nullsFirst ⟨.null, direction, nulls⟩ then .gt else .lt := by
  simp only [order, compare, ha, hb]
  rfl

instance : Std.OrientedCmp (order direction nulls) where
  eq_swap {a b} := by
    cases ha : a.isNull <;> cases hb : b.isNull
    · cases direction with
      | asc => rw [order_asc ha hb, order_asc hb ha, Std.OrientedOrd.eq_swap]
      | desc => rw [order_desc ha hb, order_desc hb ha, Std.OrientedOrd.eq_swap]
    · rw [order_null_right ha hb, order_null_left hb ha]
      split <;> rfl
    · rw [order_null_left ha hb, order_null_right hb ha]
      split <;> rfl
    · rw [order_null ha hb, order_null hb ha]
      rfl

/-- Under one leaf the values of a class are in order, the nulls before or after all others. -/
theorem order_isLE_trans (direction : Direction) (nulls : Option NullsPlace) (c : NumberClass) :
    TransOn (order direction nulls) fun v => v.within c := by
  intro x y z hx hy hz hxy hyz
  cases hxn : x.isNull <;> cases hyn : y.isNull <;> cases hzn : z.isNull
  case false.false.false =>
    have htrans := Value.compare_isLE_trans c
    cases direction with
    | asc =>
      rw [order_asc hxn hyn] at hxy
      rw [order_asc hyn hzn] at hyz
      rw [order_asc hxn hzn]
      exact htrans x y z hx hy hz hxy hyz
    | desc =>
      rw [order_desc hxn hyn] at hxy
      rw [order_desc hyn hzn] at hyz
      rw [order_desc hxn hzn]
      exact htrans z y x hz hy hx hyz hxy
  all_goals
    cases hfirst : nullsFirst ⟨.null, direction, nulls⟩ <;>
      simp_all [order_null, order_null_left, order_null_right]

end Order

/-- What the keys under one leaf have in common: the class of their numbers, and how they are
compared. -/
structure Leaf where
  numbers : NumberClass
  direction : Direction
  nulls : Option NullsPlace

/-- The key is one of the leaf. -/
structure Under (leaf : Leaf) (k : SortKey) : Prop where
  within : k.value.within leaf.numbers
  direction : k.direction = leaf.direction
  nulls : k.nulls = leaf.nulls

/-- The keys of a row under an order with those leaves. -/
def Aligned (leaves : List Leaf) (keys : List SortKey) : Prop :=
  List.Forall₂ (fun leaf k => Under leaf k) leaves keys

theorem compare_under {leaf : Leaf} {a b : SortKey} (ha : Under leaf a) (hb : Under leaf b) :
    compare a b = order leaf.direction leaf.nulls a.value b.value := by
  obtain ⟨x, direction, nulls⟩ := a
  obtain ⟨y, direction', nulls'⟩ := b
  obtain ⟨-, rfl, rfl⟩ := ha
  obtain ⟨-, rfl, rfl⟩ := hb
  rfl

theorem compareAll_eq_swap {leaves : List Leaf} {as bs : List SortKey} (ha : Aligned leaves as)
    (hb : Aligned leaves bs) : compareAll as bs = (compareAll bs as).swap := by
  induction ha generalizing bs with
  | nil =>
    cases hb
    rfl
  | @cons leaf a leaves as ha _ ih =>
    cases hb with
    | @cons _ b _ bs hb hbs =>
      have hswap : order leaf.direction leaf.nulls a.value b.value =
          (order leaf.direction leaf.nulls b.value a.value).swap := Std.OrientedCmp.eq_swap
      rw [compareAll, compareAll, Ordering.swap_then, compare_under ha hb, compare_under hb ha,
        hswap, ih hbs]

/-- Rows are in order by keys under the same leaves. -/
theorem compareAll_isLE_trans (leaves : List Leaf) : TransOn compareAll (Aligned leaves) := by
  induction leaves with
  | nil =>
    intro as bs cs ha hb hc _ _
    cases ha
    cases hc
    rfl
  | cons leaf leaves ih =>
    intro as bs cs ha hb hc hab hbc
    cases ha with
    | @cons _ a _ as ha has =>
    cases hb with
    | @cons _ b _ bs hb hbs =>
    cases hc with
    | @cons _ c _ cs hc hcs =>
      have htrans := order_isLE_trans leaf.direction leaf.nulls leaf.numbers
      simp only [compareAll, compare_under ha hb, compare_under hb hc, compare_under ha hc] at *
      cases h₁ : order leaf.direction leaf.nulls a.value b.value with
      | gt => simp [h₁] at hab
      | lt =>
        have hle : (order leaf.direction leaf.nulls b.value c.value).isLE := by
          cases h₂ : order leaf.direction leaf.nulls b.value c.value <;> simp_all
        rw [htrans.lt_of_lt_of_isLE ha.within hb.within hc.within h₁ hle]
        rfl
      | eq =>
        rw [htrans.congr_left ha.within hb.within hc.within h₁]
        rw [h₁] at hab
        cases h₂ : order leaf.direction leaf.nulls b.value c.value with
        | gt => simp [h₂] at hbc
        | lt => rfl
        | eq =>
          rw [h₂] at hbc
          exact ih as bs cs has hbs hcs hab hbc

end SortKey

namespace View
variable {v : View} {κ : String → String → NumberClass}

/-- The rows that a relation joins to a row are rows of its target's table. -/
theorem Gives.joined {Q : String → Row → Prop} (hv : v.Gives Q) {r : Relation} {target : Entity}
    (htarget : v.schema.require r.target = .ok target) (row : Row) :
    Reads (v.relatedRows r row) (Q target.name) := by
  refine .ite (fun _ => .pure (by simp)) fun _ => ?_
  refine .bind (R := (· = target)) (.of_ok ?_ fun _ _ => trivial) fun t ht => ?_
  · intro t ht
    rw [htarget] at ht
    exact (Except.ok.inj ht).symm
  · rw [ht]
    exact hv.rowsWhere target r.far _

/-! ### What a clause compares -/

/-- The value of a field, or null where there is no row. -/
def fieldOf (row : Option Row) (name : String) : Value := row.elim .null (Row.value · name)

/-- The number of rows that a relation joins to a row, or null where there is no row. -/
def headcount (v : View) (r : Relation) (row : Option Row) : Value :=
  row.elim .null fun row => .int ((v.relatedRows r row).toOption.getD []).length

/-- The row that a to-one relation joins to a row. -/
def partner (v : View) (r : Relation) (row : Option Row) : Option Row :=
  row.bind fun row => (v.relatedRows r row).toOption.bind List.head?

section Leaves
variable {e : Entity} {name : String} {row : Option Row} {keys : List SortKey}

theorem leafKeys_scalar {direction : Direction} {nulls : Option NullsPlace}
    (h : v.leafKeys e row name (.scalar direction nulls) = .ok keys) :
    keys = [⟨fieldOf row name, direction, nulls⟩] := by
  rw [leafKeys] at h
  obtain ⟨f, hf, h⟩ := Except.bind_eq_ok.1 h
  have hname : f.name = name := by simpa using List.find?_some (Option.elim_ok_eq_ok.1 hf)
  split at h
  · cases h
  · cases h
    rw [hname]
    rfl

theorem leafKeys_count {direction : Direction}
    (h : v.leafKeys e row name (.count direction) = .ok keys) :
    ∃ r, e.relation? name = some r ∧ keys = [⟨v.headcount r row, direction, none⟩] := by
  rw [leafKeys] at h
  obtain ⟨r, hr, h⟩ := Except.bind_eq_ok.1 h
  refine ⟨r, Option.elim_ok_eq_ok.1 hr, ?_⟩
  split at h
  · cases h
  · obtain ⟨n, hn, h⟩ := Except.bind_eq_ok.1 h
    cases h
    cases row with
    | none =>
      cases hn
      rfl
    | some row =>
      obtain ⟨rows, hrows, hn⟩ := Except.bind_eq_ok.1 hn
      cases hn
      rw [headcount, Option.elim_some, hrows]
      rfl

theorem leafKeys_relation {clauses : List OrderBy}
    (h : v.leafKeys e row name (.relation clauses) = .ok keys) :
    ∃ r target, e.relation? name = some r ∧ v.schema.entity? r.target = some target ∧
      v.sortKeys target (v.partner r row) clauses = .ok keys := by
  rw [leafKeys] at h
  obtain ⟨r, hr, h⟩ := Except.bind_eq_ok.1 h
  split at h
  · cases h
  · obtain ⟨target, htarget, h⟩ := Except.bind_eq_ok.1 h
    obtain ⟨related, hrelated, h⟩ := Except.bind_eq_ok.1 h
    refine ⟨r, target, Option.elim_ok_eq_ok.1 hr, Option.elim_ok_eq_ok.1 htarget, ?_⟩
    cases row with
    | none =>
      cases hrelated
      exact h
    | some row =>
      obtain ⟨rows, hrows, hrelated⟩ := Except.bind_eq_ok.1 hrelated
      cases hrelated
      rw [partner, Option.bind_some, hrows]
      exact h

theorem headcount_within (r : Relation) : (v.headcount r row).within .whole := by
  cases row <;> rfl

end Leaves

/-! ### Rows that are in order -/

mutual

/-- The values that each clause compares in some rows have their numbers in one class, as have nulls
and values of one kind (`Value.within_of_isOf`). -/
def Comparable (v : View) (e : Entity) (rows : List (Option Row)) : List OrderBy → Prop
  | [] => True
  | clause :: rest => ComparableClause v e rows clause ∧ Comparable v e rows rest

def ComparableClause (v : View) (e : Entity) (rows : List (Option Row)) : OrderBy → Prop
  | ⟨name, key⟩ => ComparableUnder v e rows name key

def ComparableUnder (v : View) (e : Entity) (rows : List (Option Row)) (name : String) :
    OrderKey → Prop
  | .scalar _ _ => ∃ numbers : NumberClass, ∀ row ∈ rows, (fieldOf row name).within numbers
  | .count _ => True
  | .relation clauses =>
    ∀ r target, e.relation? name = some r → v.schema.entity? r.target = some target →
      Comparable v target (rows.map (v.partner r)) clauses

end

section Keys
open SortKey (Aligned Leaf Under)

/-- What a relation joins to rows of one class in each column is of one class there as well. -/
theorem within_partner (hv : v.Gives fun n row => row.Within (κ n)) {r : Relation} {target : Entity}
    (htarget : v.schema.entity? r.target = some target) (row : Option Row) :
    ∀ x ∈ v.partner r row, x.Within (κ target.name) := by
  intro x hx
  obtain ⟨row, -, hx⟩ := Option.bind_eq_some_iff.1 hx
  obtain ⟨rows, hrows, hx⟩ := Option.bind_eq_some_iff.1 hx
  have hjoined := hv.joined (Option.elim_ok_eq_ok.2 htarget) row
  rw [Except.toOption_eq_some.1 hrows] at hjoined
  exact hjoined x (List.mem_of_head? hx)

mutual

theorem Comparable.of_within (hv : v.Gives fun n row => row.Within (κ n)) (e : Entity) :
    ∀ (clauses : List OrderBy) {rows : List (Option Row)},
      (∀ row ∈ rows, ∀ x ∈ row, x.Within (κ e.name)) → v.Comparable e rows clauses
  | [], _, _ => by
    rw [Comparable]
    trivial
  | clause :: rest, _, h => by
    rw [Comparable]
    exact ⟨ComparableClause.of_within hv e clause h, Comparable.of_within hv e rest h⟩

theorem ComparableClause.of_within (hv : v.Gives fun n row => row.Within (κ n)) (e : Entity) :
    ∀ (clause : OrderBy) {rows : List (Option Row)},
      (∀ row ∈ rows, ∀ x ∈ row, x.Within (κ e.name)) → v.ComparableClause e rows clause
  | ⟨name, key⟩, _, h => by
    rw [ComparableClause]
    exact ComparableUnder.of_within hv e name key h

theorem ComparableUnder.of_within (hv : v.Gives fun n row => row.Within (κ n)) (e : Entity)
    (name : String) : ∀ (key : OrderKey) {rows : List (Option Row)},
      (∀ row ∈ rows, ∀ x ∈ row, x.Within (κ e.name)) → v.ComparableUnder e rows name key
  | .scalar _ _, _, h => by
    rw [ComparableUnder]
    refine ⟨κ e.name name, fun row hrow => ?_⟩
    cases row with
    | none => rfl
    | some row => exact h _ hrow row rfl name
  | .count _, _, _ => by
    rw [ComparableUnder]
    trivial
  | .relation clauses, rows, _ => by
    rw [ComparableUnder]
    refine fun r target _ htarget => Comparable.of_within hv target clauses fun row hrow => ?_
    obtain ⟨row, -, rfl⟩ := List.mem_map.1 hrow
    exact within_partner hv htarget row

end

/-- The keys that are read off any of the rows are under the same leaves. -/
def KeysAligned (rows : List (Option Row)) (keys : Option Row → Read (List SortKey)) : Prop :=
  ∃ leaves, ∀ row ∈ rows, ∀ ks, keys row = .ok ks → Aligned leaves ks

mutual

theorem sortKeys_aligned (e : Entity) : ∀ (clauses : List OrderBy) {rows : List (Option Row)},
    v.Comparable e rows clauses → KeysAligned rows (v.sortKeys e · clauses)
  | [], _, _ => by
    refine ⟨[], fun row _ ks h => ?_⟩
    simp only [sortKeys] at h
    cases h
    exact .nil
  | clause :: rest, _, h => by
    rw [Comparable] at h
    obtain ⟨leaves, hclause⟩ := clauseKeys_aligned e clause h.1
    obtain ⟨more, hrest⟩ := sortKeys_aligned e rest h.2
    refine ⟨leaves ++ more, fun row hrow ks h => ?_⟩
    simp only [sortKeys] at h
    obtain ⟨first, hfirst, h⟩ := Except.bind_eq_ok.1 h
    obtain ⟨others, hothers, h⟩ := Except.bind_eq_ok.1 h
    cases h
    exact List.rel_append (hclause row hrow first hfirst) (hrest row hrow others hothers)

theorem clauseKeys_aligned (e : Entity) : ∀ (clause : OrderBy) {rows : List (Option Row)},
    v.ComparableClause e rows clause → KeysAligned rows (v.clauseKeys e · clause)
  | ⟨name, key⟩, _, h => by
    rw [ComparableClause] at h
    obtain ⟨leaves, h⟩ := leafKeys_aligned e name key h
    refine ⟨leaves, fun row hrow ks hks => h row hrow ks ?_⟩
    simpa only [clauseKeys] using hks

theorem leafKeys_aligned (e : Entity) (name : String) :
    ∀ (key : OrderKey) {rows : List (Option Row)},
      v.ComparableUnder e rows name key → KeysAligned rows (v.leafKeys e · name key)
  | .scalar direction nulls, _, h => by
    rw [ComparableUnder] at h
    obtain ⟨numbers, h⟩ := h
    refine ⟨[⟨numbers, direction, nulls⟩], fun row hrow ks hks => ?_⟩
    rw [leafKeys_scalar hks]
    exact .cons ⟨h row hrow, rfl, rfl⟩ .nil
  | .count direction, _, _ => by
    refine ⟨[⟨.whole, direction, none⟩], fun row _ ks hks => ?_⟩
    obtain ⟨r, -, rfl⟩ := leafKeys_count hks
    exact .cons ⟨headcount_within r, rfl, rfl⟩ .nil
  | .relation clauses, _, h => by
    rw [ComparableUnder] at h
    -- The leaves of the target, if the relation has one; otherwise there are no keys.
    by_cases hleads : ∃ r target, e.relation? name = some r ∧ v.schema.entity? r.target = some target
    · obtain ⟨r, target, hr, htarget⟩ := hleads
      obtain ⟨leaves, hkeys⟩ := sortKeys_aligned target clauses (h r target hr htarget)
      refine ⟨leaves, fun row hrow ks hks => ?_⟩
      obtain ⟨r', target', hr', htarget', hks⟩ := leafKeys_relation hks
      obtain rfl := Option.some.inj (hr.symm.trans hr')
      obtain rfl := Option.some.inj (htarget.symm.trans htarget')
      exact hkeys _ (List.mem_map_of_mem hrow) ks hks
    · refine ⟨[], fun row _ ks hks => ?_⟩
      obtain ⟨r, target, hr, htarget, -⟩ := leafKeys_relation hks
      exact absurd ⟨r, target, hr, htarget⟩ hleads

end

/-- A row comes before another one in the order, or neither comes before the other. -/
def Precedes (v : View) (e : Entity) (order : List OrderBy) (a b : Row) : Prop :=
  ∃ as bs, v.sortKeys e (some a) order = .ok as ∧ v.sortKeys e (some b) order = .ok bs ∧
    (SortKey.compareAll as bs).isLE

/-- Rows are sorted along with their keys. -/
theorem sort_ok {e : Entity} {order : List OrderBy} {rows sorted : List Row}
    (h : v.sort e order rows = .ok sorted) :
    ∃ keyed : List (List SortKey × Row), keyed.map (·.2) = rows ∧
      (∀ p ∈ keyed, v.sortKeys e (some p.2) order = .ok p.1) ∧
      sorted = (keyed.mergeSort fun a b => (SortKey.compareAll a.1 b.1).isLE).map (·.2) := by
  obtain ⟨keyed, hkeyed, h⟩ := Except.bind_eq_ok.1 h
  cases h
  have hpairs : List.Forall₂ (fun row (p : List SortKey × Row) => p.2 = id row ∧
      v.sortKeys e (some p.2) order = .ok p.1) rows keyed := by
    refine (Except.mapM_eq_ok.1 hkeyed).imp fun row p hp => ?_
    obtain ⟨ks, hks, hp⟩ := Except.bind_eq_ok.1 hp
    cases hp
    exact ⟨rfl, hks⟩
  refine ⟨keyed, ?_, fun p hp => ?_, rfl⟩
  · simpa using Schema.map_eq_of_forall₂ (hpairs.imp fun _ _ h => h.1)
  · obtain ⟨row, -, -, hks⟩ := exists_of_forall₂_right hpairs hp
    exact hks

theorem sort_perm {e : Entity} {order : List OrderBy} {rows sorted : List Row}
    (h : v.sort e order rows = .ok sorted) : sorted.Perm rows := by
  obtain ⟨keyed, rfl, -, rfl⟩ := sort_ok h
  exact (List.mergeSort_perm keyed _).map _

/-- Rows whose keys are under the same leaves are sorted stably. -/
theorem sort_stably {e : Entity} {order : List OrderBy} {rows sorted : List Row}
    (hrows : KeysAligned (rows.map some) (v.sortKeys e · order))
    (h : v.sort e order rows = .ok sorted) :
    SortedStably (v.Precedes e order) rows sorted := by
  obtain ⟨keyed, hsnd, hkeys, rfl⟩ := sort_ok h
  obtain ⟨leaves, haligned⟩ := hrows
  have hfit : ∀ p ∈ keyed, Aligned leaves p.1 := fun p hp =>
    haligned (some p.2) (List.mem_map_of_mem (hsnd ▸ List.mem_map_of_mem hp)) p.1 (hkeys p hp)
  let le (a b : List SortKey × Row) : Bool := (SortKey.compareAll a.1 b.1).isLE
  have htotal : ∀ a b : List SortKey × Row, Aligned leaves a.1 → Aligned leaves b.1 →
      (le a b || le b a) := by
    intro a b ha hb
    show ((SortKey.compareAll a.1 b.1).isLE || (SortKey.compareAll b.1 a.1).isLE) = true
    rw [SortKey.compareAll_eq_swap ha hb]
    cases SortKey.compareAll b.1 a.1 <;> rfl
  have htrans : ∀ a b c : List SortKey × Row, Aligned leaves a.1 → Aligned leaves b.1 →
      Aligned leaves c.1 → le a b → le b c → le a c :=
    fun a b c => SortKey.compareAll_isLE_trans leaves a.1 b.1 c.1
  obtain ⟨hperm, hordered, hstable⟩ := sortedStably_mergeSort htrans htotal hfit
  have hmem : ∀ p ∈ keyed.mergeSort le, p ∈ keyed := fun p hp => hperm.subset hp
  refine ⟨hsnd ▸ hperm.map _, ?_, ?_⟩
  · refine List.pairwise_map.2 (hordered.imp_of_mem fun ha hb hab => ?_)
    exact ⟨_, _, hkeys _ (hmem _ ha), hkeys _ (hmem _ hb), hab⟩
  · intro kept hkept hsub
    rw [← hsnd] at hsub
    obtain ⟨keptKeyed, hsubKeyed, rfl⟩ := List.sublist_map_iff.1 hsub
    refine (hstable keptKeyed ?_ hsubKeyed).map _
    refine (List.pairwise_map.1 hkept).imp_of_mem fun {a b} ha hb hab => ?_
    obtain ⟨as, bs, has, hbs, hab⟩ := hab
    rw [hkeys a (hsubKeyed.subset ha)] at has
    rw [hkeys b (hsubKeyed.subset hb)] at hbs
    cases has
    cases hbs
    exact hab

end Keys
end View

/-! ### One row of each -/

/-- The rows before which there is none with the same values in the fields. -/
def firstOfEach (fields : List String) : List Row → List Row
  | [] => []
  | row :: rest =>
    row :: (firstOfEach fields rest).filter fun later =>
      !(Key.ofRow fields row).equiv (Key.ofRow fields later)

theorem firstOfEach_sublist (fields : List String) (rows : List Row) :
    (firstOfEach fields rows).Sublist rows := by
  induction rows with
  | nil => exact .slnil
  | cons row rest ih => exact (List.filter_sublist.trans ih).cons_cons row

theorem firstPerKey_sublist (fields : List String) (rows : List Row) :
    (firstPerKey fields rows).Sublist rows := by
  have hgo : ∀ seen, (firstPerKey.go fields seen rows).Sublist rows := by
    induction rows with
    | nil => exact fun seen => .slnil
    | cons row rest ih =>
      intro seen
      rw [firstPerKey.go]
      split
      · exact (ih seen).cons row
      · exact (ih _).cons_cons row
  exact hgo ∅

section Distinct
variable {κ : String → NumberClass} {fields : List String} {seen : SortedSet Key} {k key : Key}

/-- Among keys whose numbers are of one class in each column, a set answers by equality alone. -/
theorem contains_add (hseen : InOrder (Key.Fits κ fields) seen.entries) (hk : k.Fits κ fields)
    (hkey : key.Fits κ fields) :
    (SortedSet.add seen k).contains key = (k.equiv key || seen.contains key) := by
  have hget := get?_insert (v := ()) (Key.compare_isLE_trans κ fields) hseen.keys hk hkey
  have hcontains : ∀ s : SortedSet Key, s.contains key = (s.get? key).isSome := by
    intro s
    rw [SortedMap.contains, SortedMap.get?, Option.isSome_map]
  rw [hcontains, hcontains, SortedSet.add, hget, Bool.eq_iff_iff]
  by_cases heq : compare k key = .eq <;> simp [heq, Key.equiv]

theorem contains_congr (hseen : InOrder (Key.Fits κ fields) seen.entries) (hk : k.Fits κ fields)
    (hkey : key.Fits κ fields) (h : k.equiv key) : seen.contains k = seen.contains key := by
  rw [SortedMap.contains, SortedMap.contains,
    entryAt?_congr (Key.compare_isLE_trans κ fields) hseen hk hkey (Key.equiv_iff.1 h)]

theorem firstPerKey_go {rows : List Row} (hrows : ∀ row ∈ rows, row.Fits κ fields)
    (hseen : InOrder (Key.Fits κ fields) seen.entries) :
    firstPerKey.go fields seen rows =
      (firstOfEach fields rows).filter fun row => !seen.contains (Key.ofRow fields row) := by
  induction rows generalizing seen with
  | nil => rfl
  | cons row rest ih =>
    obtain ⟨hrow, hrest⟩ := List.forall_mem_cons.1 hrows
    have hfits : ∀ later ∈ firstOfEach fields rest, (Key.ofRow fields later).Fits κ fields :=
      fun later hlater => (hrest later ((firstOfEach_sublist fields rest).subset hlater)).key
    rw [firstPerKey.go, firstOfEach, List.filter_cons, List.filter_filter]
    by_cases hnew : seen.contains (Key.ofRow fields row) = true
    · simp only [hnew, if_true, Bool.not_true, Bool.false_eq_true, if_false]
      rw [ih hrest hseen]
      refine List.filter_congr fun later hlater => ?_
      -- What was not seen is not equal to a row that was.
      cases hequiv : (Key.ofRow fields row).equiv (Key.ofRow fields later) with
      | false => simp
      | true => simp [← contains_congr hseen hrow.key (hfits later hlater) hequiv, hnew]
    · rw [Bool.not_eq_true] at hnew
      have hadd : InOrder (Key.Fits κ fields) (SortedSet.add seen (Key.ofRow fields row)).entries :=
        hseen.insert (Key.compare_isLE_trans κ fields) hrow.key
      simp only [hnew, Bool.false_eq_true, if_false, Bool.not_false, if_true]
      rw [ih hrest hadd]
      refine congrArg _ (List.filter_congr fun later hlater => ?_)
      rw [contains_add hseen hrow.key (hfits later hlater), Bool.not_or, Bool.and_comm]

/-- Of rows whose numbers are of one class in each field, the first one is kept for each
combination of values. -/
theorem firstPerKey_eq {rows : List Row} (hrows : ∀ row ∈ rows, row.Fits κ fields) :
    firstPerKey fields rows = firstOfEach fields rows := by
  have hempty : InOrder (Key.Fits κ fields) (∅ : SortedSet Key).entries := .nil
  rw [firstPerKey, firstPerKey_go hrows hempty]
  exact List.filter_eq_self.2 fun _ _ => rfl

end Distinct

end RelationalStore

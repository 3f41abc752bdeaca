import RelationalStore.Proofs.ReadPipeline

/- Rows in the order of their clauses. `compareRows` compares two rows, either of which may be
   absent, clause by clause: the values of a field, the numbers of related rows, or the related rows
   by the clauses that are given for them. It follows the clauses and knows of no keys. The engine
   reads a list of keys off each row instead, in which the clauses of a related row lie flat among
   the others; the keys of two rows have the same length, whether the related rows are there or not,
   so that comparing them decides the same (`sortKeys_compare`). Where the values that a clause
   compares are of one class (`Comparable`), the keys are under the same leaves and the sort is
   stable (`sort_clauses`). -/
namespace RelationalStore
open SortedMap Read

/-! ### The order of two rows -/

/-- Where a clause puts the rows without a value: unless it says so itself, first in increasing and
last in decreasing order. -/
def Direction.placeOfNulls (direction : Direction) (nulls : Option NullsPlace) : NullsPlace :=
  nulls.getD (match direction with
    | .asc => .first
    | .desc => .last)

namespace Value

/-- On which side of the nulls' place a value stands: null before the others or after them. -/
def side (place : NullsPlace) (v : Value) : Bool :=
  match place with
  | .first => !v.isNull
  | .last => v.isNull

/-- The order of two values in a direction. -/
def compareTowards (direction : Direction) (a b : Value) : Ordering :=
  match direction with
  | .asc => Ord.compare a b
  | .desc => Ord.compare b a

/-- The order of two values under a clause: nulls in their place, the others by their own order in the
direction of the clause. -/
def compareUnder (direction : Direction) (nulls : Option NullsPlace) (a b : Value) : Ordering :=
  let place := direction.placeOfNulls nulls
  (Ord.compare (a.side place) (b.side place)).then (a.compareTowards direction b)

end Value

namespace View

mutual

/-- Which of two rows comes first: the first clause that tells them apart decides. -/
def compareRows (v : View) (e : Entity) (a b : Option Row) : List OrderBy → Ordering
  | [] => .eq
  | clause :: rest => (compareClause v e a b clause).then (compareRows v e a b rest)

def compareClause (v : View) (e : Entity) (a b : Option Row) : OrderBy → Ordering
  | ⟨name, key⟩ => compareUnder v e a b name key

/-- Which of two rows comes first by what is compared under one name. -/
def compareUnder (v : View) (e : Entity) (a b : Option Row) (name : String) : OrderKey → Ordering
  | .scalar direction nulls => Value.compareUnder direction nulls (fieldOf a name) (fieldOf b name)
  | .count direction =>
    match e.relation? name with
    | none => .eq
    | some r => Value.compareUnder direction none (v.headcount r a) (v.headcount r b)
  | .relation clauses =>
    match e.relation? name with
    | none => .eq
    | some r =>
      match v.schema.entity? r.target with
      | none => .eq
      | some target => compareRows v target (v.partner r a) (v.partner r b) clauses

end

end View

/-! ### Keys -/

namespace SortKey

/-- Two keys under one leaf are compared as their values. -/
theorem compare_eq (direction : Direction) (nulls : Option NullsPlace) (x y : Value) :
    compare ⟨x, direction, nulls⟩ ⟨y, direction, nulls⟩ = x.compareUnder direction nulls y := by
  have hfirst : nullsFirst ⟨.null, direction, nulls⟩ =
      decide (direction.placeOfNulls nulls = .first) := by
    cases direction <;> rcases nulls with _ | _ | _ <;> rfl
  show order direction nulls x y = _
  rw [Value.compareUnder]
  generalize direction.placeOfNulls nulls = place at *
  cases hx : x.isNull <;> cases hy : y.isNull
  case true.true =>
    rw [order_null hx hy]
    cases x <;> cases hx
    cases y <;> cases hy
    cases place <;> cases direction <;> rfl
  case true.false =>
    rw [order_null_left hx hy, hfirst]
    cases place <;> simp only [Value.side, hx, hy] <;> rfl
  case false.true =>
    rw [order_null_right hx hy, hfirst]
    cases place <;> simp only [Value.side, hx, hy] <;> rfl
  case false.false =>
    have hsides : Ord.compare (x.side place) (y.side place) = .eq := by
      cases place <;> simp [Value.side, hx, hy]
    rw [hsides]
    cases direction with
    | asc => exact order_asc hx hy
    | desc => exact order_desc hx hy

theorem compareAll_append {as bs as' bs' : List SortKey} (h : as.length = bs.length) :
    compareAll (as ++ as') (bs ++ bs') = (compareAll as bs).then (compareAll as' bs') := by
  induction as generalizing bs with
  | nil =>
    rw [List.eq_nil_of_length_eq_zero h.symm]
    rfl
  | cons a as ih =>
    cases bs with
    | nil => cases h
    | cons b bs =>
      rw [List.cons_append, List.cons_append, compareAll, compareAll, ih (Nat.succ.inj h),
        Ordering.then_assoc]

end SortKey

namespace View
variable {v : View} {e : Entity}
open SortKey (compareAll)

/-! ### Comparing keys and comparing rows -/

section Compare
variable {a b : Option Row} {as bs : List SortKey}

mutual

/-- The keys of two rows are equally many, and comparing them compares the rows clause by clause. -/
theorem sortKeys_compare (v : View) (e : Entity) (a b : Option Row) :
    ∀ (clauses : List OrderBy) {as bs : List SortKey}, v.sortKeys e a clauses = .ok as →
      v.sortKeys e b clauses = .ok bs →
        as.length = bs.length ∧ compareAll as bs = v.compareRows e a b clauses
  | [], as, bs, ha, hb => by
    rw [sortKeys] at ha hb
    cases ha
    cases hb
    rw [compareRows]
    exact ⟨rfl, rfl⟩
  | clause :: rest, as, bs, ha, hb => by
    rw [sortKeys] at ha hb
    obtain ⟨as₁, ha₁, ha⟩ := Except.bind_eq_ok.1 ha
    obtain ⟨as₂, ha₂, ha⟩ := Except.bind_eq_ok.1 ha
    obtain ⟨bs₁, hb₁, hb⟩ := Except.bind_eq_ok.1 hb
    obtain ⟨bs₂, hb₂, hb⟩ := Except.bind_eq_ok.1 hb
    cases ha
    cases hb
    obtain ⟨hlen₁, hclause⟩ := clauseKeys_compare v e a b clause ha₁ hb₁
    obtain ⟨hlen₂, hrest⟩ := sortKeys_compare v e a b rest ha₂ hb₂
    refine ⟨by rw [List.length_append, List.length_append, hlen₁, hlen₂], ?_⟩
    rw [SortKey.compareAll_append hlen₁, hclause, hrest, compareRows]

theorem clauseKeys_compare (v : View) (e : Entity) (a b : Option Row) :
    ∀ (clause : OrderBy) {as bs : List SortKey}, v.clauseKeys e a clause = .ok as →
      v.clauseKeys e b clause = .ok bs →
        as.length = bs.length ∧ compareAll as bs = v.compareClause e a b clause
  | ⟨name, key⟩, as, bs, ha, hb => by
    rw [clauseKeys] at ha hb
    rw [compareClause]
    exact leafKeys_compare v e a b name key ha hb

theorem leafKeys_compare (v : View) (e : Entity) (a b : Option Row) (name : String) :
    ∀ (key : OrderKey) {as bs : List SortKey}, v.leafKeys e a name key = .ok as →
      v.leafKeys e b name key = .ok bs →
        as.length = bs.length ∧ compareAll as bs = v.compareUnder e a b name key
  | .scalar direction nulls, as, bs, ha, hb => by
    rw [leafKeys_scalar ha, leafKeys_scalar hb, compareUnder]
    exact ⟨rfl, Ordering.then_eq.trans (SortKey.compare_eq direction nulls _ _)⟩
  | .count direction, as, bs, ha, hb => by
    obtain ⟨r, hr, rfl⟩ := leafKeys_count ha
    obtain ⟨r', hr', rfl⟩ := leafKeys_count hb
    obtain rfl := Option.some.inj (hr.symm.trans hr')
    rw [compareUnder, hr]
    exact ⟨rfl, Ordering.then_eq.trans (SortKey.compare_eq direction none _ _)⟩
  | .relation clauses, as, bs, ha, hb => by
    obtain ⟨r, target, hr, ht, ha⟩ := leafKeys_relation ha
    obtain ⟨r', target', hr', ht', hb⟩ := leafKeys_relation hb
    obtain rfl := Option.some.inj (hr.symm.trans hr')
    obtain rfl := Option.some.inj (ht.symm.trans ht')
    simp only [compareUnder, hr, ht]
    exact sortKeys_compare v target (v.partner r a) (v.partner r b) clauses ha hb

end

end Compare

/-! ### Sorting by clauses -/

section Sorted
variable {order : List OrderBy} {rows sorted : List Row} {a b c : Row}

/-- Each row that was sorted has keys. -/
theorem exists_sortKeys (h : v.sort e order rows = .ok sorted) (ha : a ∈ rows) :
    ∃ as, v.sortKeys e (some a) order = .ok as := by
  obtain ⟨keyed, rfl, hkeys, -⟩ := sort_ok h
  obtain ⟨p, hp, rfl⟩ := List.mem_map.1 ha
  exact ⟨p.1, hkeys p hp⟩

theorem isLE_of_precedes (h : v.Precedes e order a b) :
    (v.compareRows e (some a) (some b) order).isLE := by
  obtain ⟨as, bs, has, hbs, hle⟩ := h
  rwa [(sortKeys_compare v e (some a) (some b) order has hbs).2] at hle

/-- Neither of two rows that tie with a third one comes before the other. -/
theorem precedes_of_ties (hrows : v.Comparable e (rows.map some) order)
    (h : v.sort e order rows = .ok sorted) (ha : a ∈ rows) (hb : b ∈ rows) (hc : c ∈ rows)
    (hab : v.compareRows e (some a) (some b) order = .eq)
    (hac : v.compareRows e (some a) (some c) order = .eq) : v.Precedes e order b c := by
  obtain ⟨leaves, haligned⟩ := sortKeys_aligned e order hrows
  obtain ⟨as, has⟩ := exists_sortKeys h ha
  obtain ⟨bs, hbs⟩ := exists_sortKeys h hb
  obtain ⟨cs, hcs⟩ := exists_sortKeys h hc
  have hfit {row : Row} (hrow : row ∈ rows) {ks : List SortKey}
      (hks : v.sortKeys e (some row) order = .ok ks) : SortKey.Aligned leaves ks :=
    haligned (some row) (List.mem_map_of_mem hrow) ks hks
  rw [← (sortKeys_compare v e (some a) (some b) order has hbs).2] at hab
  rw [← (sortKeys_compare v e (some a) (some c) order has hcs).2] at hac
  refine ⟨bs, cs, hbs, hcs, ?_⟩
  refine SortKey.compareAll_isLE_trans leaves bs as cs (hfit hb hbs) (hfit ha has) (hfit hc hcs) ?_ ?_
  · rw [SortKey.compareAll_eq_swap (hfit hb hbs) (hfit ha has), hab]
    rfl
  · rw [hac]
    rfl

/-- Where the values that a clause compares are null or of one kind, and more generally have their
numbers in one class, the rows that are given back are those to sort, ordered by the first clause
that tells two of them apart; rows which no clause tells apart stay as they were among each other. -/
theorem sort_clauses (hrows : v.Comparable e (rows.map some) order)
    (h : v.sort e order rows = .ok sorted) :
    sorted.Perm rows ∧
      sorted.Pairwise (fun a b => (v.compareRows e (some a) (some b) order).isLE) ∧
      ∀ a ∈ rows, sorted.filter (fun b => v.compareRows e (some a) (some b) order = .eq) =
        rows.filter fun b => v.compareRows e (some a) (some b) order = .eq := by
  have hstably := sort_stably (sortKeys_aligned e order hrows) h
  refine ⟨hstably.perm, hstably.ordered.imp isLE_of_precedes, fun a ha => ?_⟩
  refine hstably.filter_eq (List.pairwise_iff_forall_sublist.2 fun {b c} hsub => ?_)
  have hmem {x : Row} (hx : x ∈ [b, c]) :
      x ∈ rows ∧ v.compareRows e (some a) (some x) order = .eq := by
    simpa using List.mem_filter.1 (hsub.subset hx)
  obtain ⟨hb, hab⟩ := hmem (x := b) (by simp)
  obtain ⟨hc, hac⟩ := hmem (x := c) (by simp)
  exact precedes_of_ties hrows h ha hb hc hab hac

/-! ### Sorting places -/

/-- Whether the keys of a row do not come after those of another one. -/
def keysInOrder (v : View) (e : Entity) (order : List OrderBy) (a b : Row) : Bool :=
  match v.sortKeys e (some a) order, v.sortKeys e (some b) order with
  | .ok as, .ok bs => (SortKey.compareAll as bs).isLE
  | _, _ => false

/-- Sorting rows is sorting their places, by what there is to say of any two of these. -/
theorem sort_of_places (before : Nat → Nat → Bool)
    (hkeys : ∀ row ∈ rows, (v.sortKeys e (some row) order).isOk)
    (hbefore : ∀ i < rows.length, ∀ j < rows.length,
      before i j = v.keysInOrder e order (rows.getD i ∅) (rows.getD j ∅)) :
    v.sort e order rows =
      .ok (((List.range rows.length).mergeSort before).map (rows.getD · ∅)) := by
  let keyed (row : Row) : List SortKey × Row :=
    ((v.sortKeys e (some row) order).toOption.getD [], row)
  have hkeyed : ∀ row ∈ rows, v.sortKeys e (some row) order = .ok (keyed row).1 := by
    intro row hrow
    cases hks : v.sortKeys e (some row) order with
    | ok ks => simp [keyed, hks, Except.toOption]
    | error err => simpa [hks, Except.isOk, Except.toBool] using hkeys row hrow
  have hmap : rows.mapM (fun row => do return (← v.sortKeys e (some row) order, row)) =
      .ok (rows.map keyed) := by
    refine Except.mapM_eq_ok.2 (List.forall₂_map_right_iff.2 (List.forall₂_same.2 fun row hrow => ?_))
    rw [hkeyed row hrow]
    rfl
  have hrows : (List.range rows.length).map (rows.getD · ∅) = rows :=
    List.ext_getElem (by simp) (by simp +contextual)
  have hplaces : rows.map keyed = (List.range rows.length).map fun i => keyed (rows.getD i ∅) := by
    conv_lhs => rw [← hrows]
    rw [List.map_map]
    rfl
  have hgetD : ∀ i ∈ List.range rows.length, rows.getD i ∅ ∈ rows := by
    intro i hi
    simp [List.mem_range.1 hi]
  rw [sort, hmap, Except.ok_bind, hplaces, ← List.map_mergeSort (r := before), List.map_map]
  · rfl
  · intro i hi j hj
    rw [hbefore i (List.mem_range.1 hi) j (List.mem_range.1 hj), keysInOrder,
      hkeyed _ (hgetD i hi), hkeyed _ (hgetD j hj)]

end Sorted

end View

/-! ### A staff -/

/-- Employees with their bosses and those who report to them. -/
def Entity.employee : Entity :=
  { name := "employee"
    fields := [{ name := "id", kind := .int, id := true }, { name := "grade", kind := .int },
      { name := "bossId", kind := .int }]
    relations := [⟨"boss", "employee", .oneOwning, ["bossId"], ["id"], .setNull⟩,
      ⟨"reports", "employee", .many, ["id"], ["bossId"], .setNull⟩]
    idFields := ["id"]
    uniqueGroups := []
    dependents := [] }

namespace View

def employee (id : Int) (grade boss : Value) : Row :=
  SortedMap.ofList [("id", .int id), ("grade", grade), ("bossId", boss)]

def staff : List Row :=
  [employee 1 (.int 9) .null, employee 2 .null (.int 1), employee 3 (.int 4) (.int 1),
   employee 4 (.int 4) (.int 2), employee 5 (.int 4) (.int 3), employee 6 (.int 4) (.int 3)]

def ofEmployees (rows : List Row) : View :=
  let table := (Table.ofRows Entity.employee.tableDef rows).toOption
  ⟨⟨SortedMap.ofList [("employee", .employee)]⟩,
    SortedMap.ofList (table.toList.map (("employee", ·))),
    { id := 0, mode := .readOnly, scope := ["employee"] }⟩

/-- By the grade of the boss, the highest first, then by the number of reports, the most first, then
by grade, those without one first. -/
def byRank : List OrderBy :=
  [⟨"boss", .relation [.desc "grade"]⟩, ⟨"reports", .count .desc⟩,
   ⟨"grade", .scalar .desc (some .first)⟩]

theorem sort_clauses_staff :
    let v := ofEmployees staff
    let sorted := [2, 1, 4, 5, 0, 3].map (staff.getD · ∅)
    v.Comparable .employee (staff.map some) byRank ∧ v.sort .employee byRank staff = .ok sorted ∧
      sorted.Pairwise (fun a b => (v.compareRows .employee (some a) (some b) byRank).isLE) ∧
      ∀ a ∈ staff, sorted.filter (fun b => v.compareRows .employee (some a) (some b) byRank = .eq) =
        staff.filter fun b => v.compareRows .employee (some a) (some b) byRank = .eq := by
  intro v sorted
  have hcomparable : v.Comparable .employee (staff.map some) byRank := by
    simp only [byRank, OrderBy.desc, Comparable, ComparableClause, ComparableUnder]
    refine ⟨fun r target hr htarget => ⟨⟨.whole, ?_⟩, trivial⟩, trivial, ⟨.whole, ?_⟩, trivial⟩
    · obtain rfl := Option.some.inj (hr.symm.trans rfl)
      decide +kernel
    · decide +kernel
  have hsort : v.sort .employee byRank staff = .ok sorted := by
    let rank (i : Nat) : Nat := [4, 1, 0, 5, 2, 2].getD i 0
    rw [sort_of_places (fun i j => rank i ≤ rank j) (by decide +kernel) (by decide +kernel)]
    simp [List.mergeSort, List.MergeSort.Internal.splitInTwo, staff, sorted, rank, List.range,
      List.range.loop]
  obtain ⟨-, hordered, hties⟩ := sort_clauses hcomparable hsort
  exact ⟨hcomparable, hsort, hordered, hties⟩

end View

end RelationalStore

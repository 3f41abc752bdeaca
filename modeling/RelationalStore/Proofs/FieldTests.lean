import Mathlib.Data.List.Perm.Basic
import RelationalStore.Proofs.DeclaredKinds
import RelationalStore.Proofs.FilterSets
import RelationalStore.Proofs.RowOrder

/- The operators on one field, by the laws that they keep among one another. On a scalar field of an
   ordered kind, whatever its value and the mode: less, equal and greater exclude one another and
   leave nothing out, except that null is on no side of any bound; membership is equality with a
   member; and the operators that negate answer the opposite, null values included. On a list field
   the operators are membership, and two lists are equal if one is a permutation of the other.

   The operators of one test are decided one after the other. Each law is about tests of one
   operator, so each operator is first told alone (`passes_equals` and its siblings).

   Lists are compared after they have been sorted. That this finds every permutation needs the order
   to be one on the items, which it is on values of one kind (`sameItems_iff`, by
   `TransOn.forall₂_of_sorted`). -/
namespace RelationalStore
open SortedMap Read

/-! ### Lists with the same items -/

section Sorted
variable {α : Type} {order : α → α → Ordering} [Std.OrientedCmp order] {P : α → Prop}
  {xs ys zs : List α}

/-- Two sorted lists with the same members, up to what the order tells apart, agree place by
place. -/
theorem TransOn.forall₂_of_sorted (h : TransOn order P)
    (hxs : ∀ x ∈ xs, P x) (hys : ∀ y ∈ ys, P y)
    (hx : xs.Pairwise fun a b => (order a b).isLE) (hy : ys.Pairwise fun a b => (order a b).isLE)
    (hxz : List.Forall₂ (fun x z => order x z = .eq) xs zs) (hzy : zs.Perm ys) :
    List.Forall₂ (fun x y => order x y = .eq) xs ys := by
  induction xs generalizing ys zs with
  | nil =>
    obtain rfl := List.forall₂_nil_left_iff.1 hxz
    obtain rfl := List.nil_perm.1 hzy
    exact .nil
  | cons x xs ih =>
    obtain ⟨z, zs, hhead, hrest, rfl⟩ := List.forall₂_cons_left_iff.1 hxz
    cases ys with
    | nil => exact absurd hzy.length_eq (by simp)
    | cons y ys =>
      have hPz := hys z (hzy.mem_iff.1 List.mem_cons_self)
      obtain ⟨hPx, hPxs⟩ := List.forall_mem_cons.1 hxs
      obtain ⟨hPy, hPys⟩ := List.forall_mem_cons.1 hys
      obtain ⟨hleast, hx⟩ := List.pairwise_cons.1 hx
      obtain ⟨hleast', hy⟩ := List.pairwise_cons.1 hy
      rcases List.mem_cons.1 (hzy.mem_iff.2 (List.mem_cons_self (a := y) (l := ys))) with rfl | hmem
      · exact .cons hhead (ih hPxs hPys hx hy hrest hzy.cons_inv)
      · -- The partner of `x` comes later in `ys`, and that of `y` later in `xs`: they change partners.
        obtain ⟨before, after, rfl⟩ := List.append_of_mem hmem
        have hzs : (before ++ y :: after).Perm (y :: (before ++ after)) := List.perm_middle
        have hys : (z :: (before ++ after)).Perm ys :=
          ((List.Perm.swap z y _).trans ((hzs.cons z).symm.trans hzy)).cons_inv
        obtain ⟨us, hus, hpairs⟩ : Relation.Comp List.Perm
            (List.Forall₂ fun x z => order x z = .eq) xs (y :: (before ++ after)) := by
          rw [← List.forall₂_comp_perm_eq_perm_comp_forall₂]
          exact ⟨_, hrest, hzs⟩
        obtain ⟨x', us, hxy', hmatch, rfl⟩ := List.forall₂_cons_right_iff.1 hpairs
        have hx' := hus.mem_iff.2 (List.mem_cons_self (a := x') (l := us))
        have hPx' := hPxs x' hx'
        have hxy : order x y = .eq := by
          have hle : (order x' y).isLE := by rw [hxy']; rfl
          refine Std.OrientedCmp.isLE_antisymm (h x x' y hPx hPx' hPy (hleast x' hx') hle) ?_
          refine h y z x hPy hPz hPx (hleast' z (hys.mem_iff.1 List.mem_cons_self)) ?_
          rw [Std.OrientedCmp.eq_comm.1 hhead]
          rfl
        have hxz' : order x' z = .eq :=
          h.eq_trans hPx' hPy hPz hxy' (h.eq_trans hPy hPx hPz (Std.OrientedCmp.eq_comm.1 hxy) hhead)
        obtain ⟨ws, hws, hperm⟩ := List.perm_comp_forall₂ hus (.cons hxz' hmatch)
        exact .cons hxy (ih hPxs hPys hx hy hws (hperm.trans hys))

end Sorted

namespace Value

/-- One list is a permutation of the other, up to what the order of values tells apart. -/
def Rearranges (xs ys : List Value) : Prop :=
  ∃ zs, List.Forall₂ (fun x z => compare x z = .eq) xs zs ∧ zs.Perm ys

theorem compareItems_eq_iff {xs ys : List Value} :
    compareItems xs ys = .eq ↔ List.Forall₂ (fun x y => compare x y = .eq) xs ys := by
  induction xs generalizing ys with
  | nil => cases ys <;> simp [compareItems]
  | cons x xs ih =>
    cases ys with
    | nil => simp [compareItems]
    | cons y ys =>
      rw [compareItems, List.forall₂_cons, ← ih]
      cases compare x y <;> simp

/-- The items of a list in order. -/
theorem sortedStably_items {c : NumberClass} {items : List Value} (h : ∀ v ∈ items, v.within c) :
    SortedStably (fun a b => (compare a b).isLE) items
      (items.mergeSort fun a b => (compare a b).isLE) := by
  refine sortedStably_mergeSort (P := fun v => v.within c)
    (fun a b d ha hb hd => compare_isLE_trans c a b d ha hb hd) ?_ h
  intro a b _ _
  rw [compare_eq_swap b a]
  cases compare a b <;> rfl

end Value

/-- Sorting finds every permutation of items that are in order. -/
theorem Entity.sameItems_iff {c : NumberClass} {xs ys : List Value} (hxs : ∀ v ∈ xs, v.within c)
    (hys : ∀ v ∈ ys, v.within c) : sameItems xs ys = true ↔ Value.Rearranges xs ys := by
  have hx := Value.sortedStably_items hxs
  have hy := Value.sortedStably_items hys
  rw [sameItems, beq_iff_eq, Value.compareItems_eq_iff]
  constructor
  · intro h
    obtain ⟨zs, hzs, hperm⟩ := List.perm_comp_forall₂ hx.perm.symm h
    exact ⟨zs, hzs, hperm.trans hy.perm⟩
  · rintro ⟨zs, hzs, hperm⟩
    obtain ⟨us, hus, hperm'⟩ := List.perm_comp_forall₂ hx.perm hzs
    exact (Value.compare_isLE_trans c).forall₂_of_sorted (fun v hv => hxs v (hx.perm.subset hv))
      (fun v hv => hys v (hy.perm.subset hv)) hx.ordered hy.ordered hus
      (hperm'.trans (hperm.trans hy.perm.symm))

/-! ### Tests of one operator -/

namespace Read
variable {α : Type} {l : List α} {p : α → Read Bool} {b : Bool}

theorem and_ok_true (a : Read Bool) : a.and (.ok true) = a := by
  rcases a with _ | _ | _ <;> rfl

theorem anyM_eq_ok (h : l.anyM p = .ok b) : b = true ↔ ∃ a ∈ l, p a = .ok true := by
  induction l with
  | nil => simp [← Except.ok.inj h]
  | cons a l ih =>
    obtain ⟨found, hfound, h⟩ := Except.bind_eq_ok.1 h
    cases found with
    | true => simp [← Except.ok.inj h, hfound]
    | false => simpa [hfound] using ih h

theorem allM_eq_ok (h : l.allM p = .ok b) : b = true ↔ ∀ a ∈ l, p a = .ok true := by
  induction l with
  | nil => simp [← Except.ok.inj h]
  | cons a l ih =>
    obtain ⟨found, hfound, h⟩ := Except.bind_eq_ok.1 h
    cases found with
    | true => simpa [hfound] using ih h
    | false => simp [← Except.ok.inj h, hfound]

end Read

/-- The modes that a field admits: text may be compared in either way, anything else in one. -/
def FieldDef.Admits (f : FieldDef) (mode : TextMode) : Prop :=
  mode = .sensitive ∨ (f.kind.capabilities.textual = true ∧ f.list = false)

/-- The test for one outcome of comparing a value with a literal. -/
def ScalarTest.compares (mode : TextMode) (literal : Json) : Ordering → ScalarTest
  | .lt => { lt := some literal, mode }
  | .eq => { equals := some literal, mode }
  | .gt => { gt := some literal, mode }

/-- Every test that compares a value with a literal. -/
def ScalarTest.comparisons (mode : TextMode) (literal : Json) : List ScalarTest :=
  [.compares mode literal .lt, .compares mode literal .eq, .compares mode literal .gt,
    { lte := some literal, mode }, { gte := some literal, mode }]

namespace Entity
variable {e : Entity} {f : FieldDef} {value bound : Value} {mode : TextMode} {literal : Json}

/-- The value passes the test. -/
def Accepts (e : Entity) (f : FieldDef) (value : Value) (test : ScalarTest) : Prop :=
  e.passes f value test = .ok true

/-- The comparisons of a value with a literal exclude one another and leave nothing out, except that
null is on no side of any bound. -/
structure ComparesLawfully (e : Entity) (f : FieldDef) (value : Value) (mode : TextMode)
    (literal : Json) (bound : Value) : Prop where
  evaluates : ∀ test ∈ ScalarTest.comparisons mode literal,
    ∃ held, e.passes f value test = .ok held
  order : ∀ o, e.Accepts f value (.compares mode literal o) ↔
    value.isNull = false ∧ compareIn mode value bound = o
  unique : value.isNull = false → ∃! o, e.Accepts f value (.compares mode literal o)
  lte : e.Accepts f value { lte := some literal, mode } ↔
    e.Accepts f value { lt := some literal, mode } ∨
      e.Accepts f value { equals := some literal, mode }
  gte : e.Accepts f value { gte := some literal, mode } ↔
    e.Accepts f value { gt := some literal, mode } ∨
      e.Accepts f value { equals := some literal, mode }
  null : value.isNull = true →
    ∀ test ∈ ScalarTest.comparisons mode literal, ¬ e.Accepts f value test

/-- What the operators on a scalar field say about one value, each against the others. -/
structure ScalarLaws (e : Entity) (f : FieldDef) (value : Value) (mode : TextMode) : Prop where
  compares : ∀ literal bound, e.coerce f literal = .ok bound → bound.isNull = false →
    e.ComparesLawfully f value mode literal bound
  /-- Membership is equality with a member; neither null nor a null member counts. -/
  isIn : ∀ literals found, e.passes f value { isIn := some literals, mode } = .ok found →
    (found = true ↔ value.isNull = false ∧ ∃ member ∈ literals, member.isNull = false ∧
      e.Accepts f value { equals := some member, mode })
  notIn : ∀ literals, e.passes f value { notIn := some literals, mode } =
    (e.passes f value { isIn := some literals, mode }).not
  notEquals : ∀ literal, e.passes f value { not := some (.literal literal), mode } =
    (e.passes f value { equals := some literal, mode }).not
  not : ∀ test, e.passes f value { not := some (.test test), mode } = (e.passes f value test).not

/-- The stored list, empty where there is none, holds what the literal stands for. -/
def Contains (e : Entity) (f : FieldDef) (value : Value) (literal : Json) : Prop :=
  ∃ wanted, e.coerceItem f literal = .ok wanted ∧
    ∃ item ∈ value.list?.getD [], item.compare wanted = .eq

/-- What the operators on a list field say about one value. -/
structure ListLaws (e : Entity) (f : FieldDef) (value : Value) : Prop where
  has : ∀ literal found, e.passes f value { has := some literal } = .ok found →
    (found = true ↔ e.Contains f value literal)
  hasEvery : ∀ literals found, e.passes f value { hasEvery := some literals } = .ok found →
    (found = true ↔ ∀ literal ∈ literals, e.Contains f value literal)
  hasSome : ∀ literals found, e.passes f value { hasSome := some literals } = .ok found →
    (found = true ↔ ∃ literal ∈ literals, e.Contains f value literal)
  /-- Null counts as an empty list. -/
  isEmpty : ∀ wanted found, e.passes f value { isEmpty := some wanted } = .ok found →
    (found = true ↔ (wanted = true ↔ value = .null ∨ value = .list []))
  equals : ∀ literals found, e.passes f value { equals := some (.array literals) } = .ok found →
    (found = true ↔ ∃ items wanted, value = .list items ∧
      literals.mapM (e.coerceItem f) = .ok wanted ∧ Value.Rearranges items wanted)

section Single

theorem allow_mode (hmode : f.Admits mode) :
    e.allow f (mode == .sensitive || (f.kind.capabilities.textual && !f.list)) "mode" = .ok true := by
  rw [allow, if_pos]
  rcases hmode with rfl | ⟨htext, hlist⟩
  · rfl
  · simp [htext, hlist]

/-- The operators of a test in a mode that the field admits, one after the other. -/
theorem passes_eq {test : ScalarTest} (hmode : f.Admits test.mode) :
    e.passes f value test = Read.all [
      test.equals.elim (.ok true) (e.equalsLiteral f value test.mode),
      test.not.elim (.ok true) fun negation => (e.negated f value test.mode negation).not,
      test.isIn.elim (.ok true) fun literals =>
        (e.allow f (f.kind.capabilities.membership && !f.list) "in").and
          (if value.isNull then .ok false else e.equalsAny f value test.mode literals),
      test.notIn.elim (.ok true) fun literals =>
        (e.allow f (f.kind.capabilities.membership && !f.list) "notIn").and
          (if value.isNull then .ok true else (e.equalsAny f value test.mode literals).not),
      e.within f value test.mode "lt" (· == .lt) test.lt,
      e.within f value test.mode "lte" Ordering.isLE test.lte,
      e.within f value test.mode "gt" (· == .gt) test.gt,
      e.within f value test.mode "gte" Ordering.isGE test.gte,
      e.searched f value test.mode "contains" isPart test.contains,
      e.searched f value test.mode "startsWith" List.isPrefixOf test.startsWith,
      e.searched f value test.mode "endsWith" List.isSuffixOf test.endsWith,
      e.listTest f value test.has test.hasEvery test.hasSome test.isEmpty] := by
  have hallowed := e.allow_mode hmode
  obtain ⟨equals, not⟩ := test
  cases not <;>
  · show Read.and (e.allow f _ "mode") _ = _
    rw [hallowed]
    rfl

-- In a test of one operator the absent ones ask for nothing, those before it and those after it.

theorem passes_equals (hmode : f.Admits mode) :
    e.passes f value { equals := some literal, mode } = e.equalsLiteral f value mode literal := by
  rw [passes_eq hmode]
  exact and_ok_true _

theorem passes_not (hmode : f.Admits mode) (negation : Negation) :
    e.passes f value { not := some negation, mode } = (e.negated f value mode negation).not := by
  rw [passes_eq hmode]
  exact and_ok_true _

theorem passes_lt (hmode : f.Admits mode) :
    e.passes f value { lt := some literal, mode } =
      e.within f value mode "lt" (· == .lt) (some literal) := by
  rw [passes_eq hmode]
  exact and_ok_true _

theorem passes_lte (hmode : f.Admits mode) :
    e.passes f value { lte := some literal, mode } =
      e.within f value mode "lte" Ordering.isLE (some literal) := by
  rw [passes_eq hmode]
  exact and_ok_true _

theorem passes_gt (hmode : f.Admits mode) :
    e.passes f value { gt := some literal, mode } =
      e.within f value mode "gt" (· == .gt) (some literal) := by
  rw [passes_eq hmode]
  exact and_ok_true _

theorem passes_gte (hmode : f.Admits mode) :
    e.passes f value { gte := some literal, mode } =
      e.within f value mode "gte" Ordering.isGE (some literal) := by
  rw [passes_eq hmode]
  exact and_ok_true _

/-- The operators on a list field, one after the other. -/
theorem passes_list (hlist : f.list = true) {has : Option Json}
    {hasEvery hasSome : Option (List Json)} {isEmpty : Option Bool}
    (hsome : (has.isNone && hasEvery.isNone && hasSome.isNone && isEmpty.isNone) = false) :
    e.passes f value { has := has, hasEvery := hasEvery, hasSome := hasSome, isEmpty := isEmpty } =
      Read.all [
        has.elim (.ok true) (e.holds f (value.list?.getD [])),
        hasEvery.elim (.ok true) fun literals => literals.allM (e.holds f (value.list?.getD [])),
        hasSome.elim (.ok true) fun literals => literals.anyM (e.holds f (value.list?.getD [])),
        .ok (isEmpty.elim true ((value.list?.getD []).isEmpty == ·))] := by
  rw [passes_eq (.inl rfl)]
  refine (and_ok_true _).trans ?_
  simp [listTest, hsome, allow, hlist]

theorem passes_has (hlist : f.list = true) :
    e.passes f value { has := some literal } = e.holds f (value.list?.getD []) literal := by
  rw [passes_list hlist rfl]
  exact and_ok_true _

theorem passes_hasEvery (hlist : f.list = true) (literals : List Json) :
    e.passes f value { hasEvery := some literals } =
      literals.allM (e.holds f (value.list?.getD [])) := by
  rw [passes_list hlist rfl]
  exact and_ok_true _

theorem passes_hasSome (hlist : f.list = true) (literals : List Json) :
    e.passes f value { hasSome := some literals } =
      literals.anyM (e.holds f (value.list?.getD [])) := by
  rw [passes_list hlist rfl]
  exact and_ok_true _

theorem passes_isEmpty (hlist : f.list = true) (wanted : Bool) :
    e.passes f value { isEmpty := some wanted } =
      .ok ((value.list?.getD []).isEmpty == wanted) := by
  rw [passes_list hlist rfl]
  exact and_ok_true (.ok ((value.list?.getD []).isEmpty == wanted))

end Single

section Scalar
variable (hlist : f.list = false) (hordered : f.kind.capabilities.ordered = true)
include hlist hordered

/-- Whatever can be compared can be a member. -/
theorem allow_membership (operator : String) :
    e.allow f (f.kind.capabilities.membership && !f.list) operator = .ok true := by
  rw [allow, if_pos]
  rw [hlist]
  cases hkind : f.kind <;> simp_all [ScalarKind.capabilities]

section Bound
variable (hbound : e.coerce f literal = .ok bound) (hnull : bound.isNull = false)
include hbound hnull

theorem within_bound (operator : String) (accepted : Ordering → Bool) :
    e.within f value mode operator accepted (some literal) =
      .ok (!value.isNull && accepted (compareIn mode value bound)) := by
  have hitem : e.coerceItem f literal = .ok bound := by simpa [coerce, hlist] using hbound
  simp [within, allow, hordered, hlist, hitem, hnull, Except.ok_bind, pure, Except.pure]

/-- One outcome of the comparison is found exactly where it is the outcome. -/
theorem passes_compares (hmode : f.Admits mode) (o : Ordering) :
    e.passes f value (.compares mode literal o) =
      .ok (!value.isNull && compareIn mode value bound == o) := by
  cases o with
  | lt => exact (passes_lt hmode).trans (within_bound hlist hordered hbound hnull _ _)
  | gt => exact (passes_gt hmode).trans (within_bound hlist hordered hbound hnull _ _)
  | eq =>
    rw [ScalarTest.compares, passes_equals hmode, equalsLiteral, hbound]
    cases value.isNull <;> simp [Except.ok_bind, hnull, hlist, pure, Except.pure]

/-- The comparisons of a value with a bound exclude one another and leave nothing out, save that
null is on no side of any bound. -/
theorem compares_lawful (hmode : f.Admits mode) :
    e.ComparesLawfully f value mode literal bound := by
  have hcompares (o : Ordering) :
      e.passes f value (.compares mode literal o) =
        .ok (!value.isNull && compareIn mode value bound == o) :=
    passes_compares hlist hordered hbound hnull hmode o
  have hlte : e.passes f value { lte := some literal, mode } =
      .ok (!value.isNull && (compareIn mode value bound).isLE) :=
    (passes_lte hmode).trans (within_bound hlist hordered hbound hnull _ _)
  have hgte : e.passes f value { gte := some literal, mode } =
      .ok (!value.isNull && (compareIn mode value bound).isGE) :=
    (passes_gte hmode).trans (within_bound hlist hordered hbound hnull _ _)
  have hlt : e.passes f value { lt := some literal, mode } = _ := hcompares .lt
  have heq : e.passes f value { equals := some literal, mode } = _ := hcompares .eq
  have hgt : e.passes f value { gt := some literal, mode } = _ := hcompares .gt
  constructor
  case evaluates =>
    simp only [ScalarTest.comparisons, List.forall_mem_cons]
    exact ⟨⟨_, hlt⟩, ⟨_, heq⟩, ⟨_, hgt⟩, ⟨_, hlte⟩, ⟨_, hgte⟩, by simp⟩
  case order =>
    intro o
    simp [Accepts, hcompares]
  case unique =>
    intro hvalue
    refine ⟨compareIn mode value bound, ?_, fun o ho => ?_⟩
    · simp [Accepts, hcompares, hvalue]
    · have ho := Except.ok.inj ((hcompares o).symm.trans ho)
      rw [hvalue] at ho
      exact (beq_iff_eq.1 ho).symm
  case lte =>
    rw [Accepts, Accepts, Accepts, hlte, hlt, heq]
    cases value.isNull <;> cases compareIn mode value bound <;> simp
  case gte =>
    rw [Accepts, Accepts, Accepts, hgte, hgt, heq]
    cases value.isNull <;> cases compareIn mode value bound <;> simp
  case null =>
    intro hvalue
    simp [ScalarTest.comparisons, Accepts, hcompares, hlte, hgte, hvalue]

end Bound

section Member
variable (hmode : f.Admits mode)
include hmode

theorem passes_isIn (literals : List Json) :
    e.passes f value { isIn := some literals, mode } =
      if value.isNull then .ok false else e.equalsAny f value mode literals := by
  rw [passes_eq hmode]
  refine (and_ok_true _).trans ?_
  rw [allow_membership hlist hordered]
  rfl

theorem passes_notIn (literals : List Json) :
    e.passes f value { notIn := some literals, mode } =
      (e.passes f value { isIn := some literals, mode }).not := by
  rw [passes_isIn hlist hordered hmode, passes_eq hmode]
  refine (and_ok_true _).trans ?_
  rw [allow_membership hlist hordered]
  cases value.isNull <;> rfl

theorem isIn_iff {literals : List Json} {found : Bool}
    (h : e.passes f value { isIn := some literals, mode } = .ok found) :
    found = true ↔ value.isNull = false ∧ ∃ member ∈ literals, member.isNull = false ∧
      e.Accepts f value { equals := some member, mode } := by
  rw [passes_isIn hlist hordered hmode] at h
  split at h
  · next hnull => simp [← Except.ok.inj h, hnull]
  · next hvalue =>
    rw [Bool.not_eq_true] at hvalue
    rw [anyM_eq_ok h, and_iff_right hvalue]
    refine exists_congr fun member => and_congr_right fun _ => ?_
    rw [Accepts, passes_equals hmode]
    refine (and_iff_right_of_imp fun hequals => ?_).symm
    -- A null member equals null alone.
    obtain ⟨expected, hexpected, hequals⟩ := Except.bind_eq_ok.1 hequals
    have hyields := e.coerce_yields f member
    rw [hexpected] at hyields
    rw [← hyields.2]
    cases hnull : expected.isNull with
    | false => rfl
    | true => simp [hnull, hvalue, pure, Except.pure] at hequals

end Member

end Scalar

section List

theorem holds_iff {found : Bool} (h : e.holds f (value.list?.getD []) literal = .ok found) :
    found = true ↔ e.Contains f value literal := by
  obtain ⟨wanted, hwanted, h⟩ := Except.bind_eq_ok.1 h
  rw [← Except.ok.inj h]
  simp [Contains, hwanted, Value.equiv]

theorem holds_eq_true :
    e.holds f (value.list?.getD []) literal = .ok true ↔ e.Contains f value literal := by
  constructor
  · exact fun h => (holds_iff h).1 rfl
  · rintro ⟨wanted, hwanted, item, hitem, heq⟩
    have hany : (value.list?.getD []).any (·.equiv wanted) = true :=
      List.any_eq_true.2 ⟨item, hitem, by simp [Value.equiv, heq]⟩
    rw [holds, hwanted, Except.ok_bind, hany]
    rfl

theorem equalsList_iff (hlist : f.list = true) (hvalue : f.takes value = true)
    {literals : List Json} {held : Bool}
    (h : e.passes f value { equals := some (.array literals) } = .ok held) :
    held = true ↔ ∃ items wanted, value = .list items ∧
      literals.mapM (e.coerceItem f) = .ok wanted ∧ Value.Rearranges items wanted := by
  rw [passes_equals (.inl rfl), equalsLiteral] at h
  obtain ⟨expected, hexpected, h⟩ := Except.bind_eq_ok.1 h
  have hcoerce : e.coerce f (.array literals) =
      (literals.mapM (e.coerceItem f) >>= fun items => .ok (.list items)) := by
    simp [coerce, hlist, Json.isNull, Json.array?]
    rfl
  rw [hcoerce] at hexpected
  obtain ⟨wanted, hwanted, hexpected⟩ := Except.bind_eq_ok.1 hexpected
  obtain rfl := Except.ok.inj hexpected
  rw [FieldDef.takes.eq_def, if_pos hlist] at hvalue
  cases value with
  | null =>
    -- A missing list equals no list.
    rw [← Except.ok.inj h]
    simp [Value.isNull]
  | list items =>
    have hitems : ∀ v ∈ items, v.within f.kind.numbers :=
      fun v hv => Value.within_of_isOf (List.all_eq_true.1 hvalue v hv)
    have hwanteds : ∀ v ∈ wanted, v.within f.kind.numbers := by
      have hyields := Yields.mapM (l := literals) fun literal _ => e.coerceItem_isOf f literal
      rw [hwanted] at hyields
      exact fun v hv => Value.within_of_isOf (hyields v hv)
    have hsame : sameItems items wanted = held := by
      simpa [Value.isNull, Value.list?, hlist, pure, Except.pure] using h
    rw [← hsame, sameItems_iff hitems hwanteds]
    constructor
    · exact fun h => ⟨items, wanted, rfl, hwanted, h⟩
    · rintro ⟨_, wanted', heq, hwanted', h⟩
      obtain rfl := Value.list.inj heq
      obtain rfl := Except.ok.inj (hwanted.symm.trans hwanted')
      exact h
  | _ => cases hvalue

theorem isEmpty_iff (hlist : f.list = true) (hvalue : f.takes value = true) :
    (value.list?.getD []).isEmpty = true ↔ value = .null ∨ value = .list [] := by
  rw [FieldDef.takes.eq_def, if_pos hlist] at hvalue
  cases value with
  | null => simp [Value.list?]
  | list items => simp [Value.list?]
  | _ => cases hvalue

end List

/-- The operators of a test follow their laws on every value that a field can hold. -/
theorem tests_lawful (hvalue : f.takes value = true) :
    (f.list = false → f.kind.capabilities.ordered = true →
      ∀ mode, f.Admits mode → e.ScalarLaws f value mode) ∧
    (f.list = true → e.ListLaws f value) := by
  constructor
  · intro hlist hordered mode hmode
    constructor
    case compares =>
      exact fun literal bound hbound hnull =>
        compares_lawful hlist hordered hbound hnull hmode
    case isIn => exact fun literals found h => isIn_iff hlist hordered hmode h
    case notIn => exact passes_notIn hlist hordered hmode
    case notEquals =>
      intro literal
      rw [passes_not hmode, passes_equals hmode, negated]
    case not =>
      intro test
      rw [passes_not hmode, negated]
  · intro hlist
    constructor
    case has =>
      intro literal found h
      exact holds_iff ((passes_has hlist).symm.trans h)
    case hasEvery =>
      intro literals found h
      rw [allM_eq_ok ((passes_hasEvery hlist literals).symm.trans h)]
      exact forall₂_congr fun literal _ => holds_eq_true
    case hasSome =>
      intro literals found h
      rw [anyM_eq_ok ((passes_hasSome hlist literals).symm.trans h)]
      exact exists_congr fun literal => and_congr_right fun _ => holds_eq_true
    case isEmpty =>
      intro wanted found h
      rw [← Except.ok.inj ((passes_isEmpty hlist wanted).symm.trans h), beq_iff_eq,
        Bool.eq_iff_iff, isEmpty_iff hlist hvalue]
      exact iff_comm
    case equals => exact fun literals found h => equalsList_iff hlist hvalue h

/-- Songs by title, with the scores that they got. -/
def song : Entity :=
  { name := "song"
    fields := [{ name := "title", kind := .string, id := true },
      { name := "scores", kind := .int, list := true }]
    relations := []
    idFields := ["title"]
    uniqueGroups := []
    dependents := [] }

/-- Case aside a title is not before itself; scores are equal in any order. -/
theorem tests_lawful_song :
    let title : FieldDef := { name := "title", kind := .string, id := true }
    let scores : FieldDef := { name := "scores", kind := .int, list := true }
    song.ComparesLawfully title (.string "Help") .insensitive (.string "HELP") (.string "HELP") ∧
      song.Accepts title (.string "Help") { lte := some (.string "HELP"), mode := .insensitive } ∧
      ¬ song.Accepts title (.string "Help") { lt := some (.string "HELP"), mode := .insensitive } ∧
      song.Accepts scores (.list [.int 3, .int 1, .int 3])
        { equals := some (.array [.int 1, .int 3, .int 3]) } ∧
      Value.Rearranges [.int 3, .int 1, .int 3] [.int 1, .int 3, .int 3] := by
  intro title scores
  have hscores : scores.takes (.list [.int 3, .int 1, .int 3]) = true := by decide
  have hequals : song.passes scores (.list [.int 3, .int 1, .int 3])
      { equals := some (.array [.int 1, .int 3, .int 3]) } = .ok true := by
    have hsame : sameItems [.int 3, .int 1, .int 3] [.int 1, .int 3, .int 3] = true := by
      rw [sameItems]
      simp [List.mergeSort, List.MergeSort.Internal.splitInTwo, Value.compare,
        Value.compareSimple, Value.compareItems, Ordering.isLE, compare, compareOfLessAndEq]
    rw [passes_equals (.inl rfl)]
    exact congrArg Except.ok hsame
  have htitle : title.takes (.string "Help") = true := by decide
  have hlaws := (tests_lawful (e := song) htitle).1
  refine ⟨(hlaws rfl rfl _ (.inr ⟨rfl, rfl⟩)).compares _ (.string "HELP") rfl rfl, ?_, ?_,
    hequals, ?_⟩
  · rfl
  · intro h
    cases h
  · obtain ⟨items, wanted, hitems, hwanted, h⟩ :=
      (((tests_lawful hscores).2 rfl).equals _ _ hequals).1 rfl
    obtain rfl := Value.list.inj hitems
    cases hwanted
    exact h

end Entity

end RelationalStore

import Mathlib.Data.Set.Lattice
import Mathlib.Logic.Relation
import RelationalStore.Engine.Matching
import RelationalStore.Proofs.OperationTriple

/- What a filter lets through, as a set of rows. `passing` is the set of a filter: the intersection
   of its conditions and its conjuncts and of the union of its alternatives, without the union of
   its exclusions. `meeting` is the set of a condition, in which a relation is read by quantifiers
   over the rows that it joins to a row. Neither has an order, and neither stops early.

   The evaluator does both, and fails where a condition fails. `Decides` says that no condition of a
   filter fails on a row that it can be put to: the row itself, the rows that a relation joins to
   it, the rows joined to these, and so on through the filter. Where it holds, the evaluator answers
   whether the row is in the set (`lets_eq`, by the size of the filter; `meetsOne_eq` is the step
   for a condition). From this `select_passing`: what is selected are the rows in the set, selecting
   again changes nothing, and filters that differ by the order of their parts (`Filter.Reorders`)
   select the same. -/
namespace RelationalStore

/-! ### Readings that succeed -/

theorem Except.ok_bind {ε α β : Type} (a : α) (f : α → Except ε β) : (.ok a >>= f) = f a := rfl

theorem Except.bind_congr {ε α β : Type} {x : Except ε α} {f g : α → Except ε β}
    (h : ∀ a, x = .ok a → f a = g a) : x >>= f = x >>= g := by
  cases x with
  | error err => rfl
  | ok a => exact h a rfl

namespace Read
variable {α : Type} {l : List α} {f : α → Read Bool} {p : α → Bool}

@[simp] theorem ok_and (a : Bool) (b : Read Bool) :
    Read.and (.ok a) b = if a then b else .ok false := rfl

@[simp] theorem not_ok (a : Bool) : Read.not (.ok a) = .ok !a := rfl

/-- A reading that answers whether something is so. -/
theorem ok_eq_decide {b : Bool} {P : Prop} [Decidable P] (h : b = true ↔ P) :
    (.ok b : Read Bool) = .ok (decide P) :=
  congrArg _ (Bool.eq_iff_iff.mpr (h.trans decide_eq_true_iff.symm))

theorem all_ok (bs : List Bool) : Read.all (bs.map .ok) = .ok (bs.all id) := by
  induction bs with
  | nil => rfl
  | cons b bs ih =>
    rw [List.map_cons, Read.all, ok_and, ih, List.all_cons]
    cases b <;> rfl

/-- An operator that may be absent. -/
theorem operator_ok {o : Option α} {P : α → Prop} [∀ a, Decidable (P a)] [Decidable (∀ a ∈ o, P a)]
    (h : ∀ a ∈ o, f a = .ok (decide (P a))) :
    o.elim (.ok true) f = .ok (decide (∀ a ∈ o, P a)) := by
  cases o with
  | none => exact ok_eq_decide (by simp)
  | some a => exact (h a rfl).trans (ok_eq_decide (by simp))

theorem anyM_ok (h : ∀ a ∈ l, f a = .ok (p a)) : l.anyM f = .ok (l.any p) := by
  induction l with
  | nil => rfl
  | cons a l ih =>
    rw [List.anyM, h a List.mem_cons_self, List.any_cons]
    cases p a with
    | true => rfl
    | false => exact ih fun b hb => h b (List.mem_cons_of_mem a hb)

theorem allM_ok (h : ∀ a ∈ l, f a = .ok (p a)) : l.allM f = .ok (l.all p) := by
  induction l with
  | nil => rfl
  | cons a l ih =>
    rw [List.allM, h a List.mem_cons_self, List.all_cons]
    cases p a with
    | true => exact ih fun b hb => h b (List.mem_cons_of_mem a hb)
    | false => rfl

theorem anyM_congr {g : α → Read Bool} (h : ∀ a ∈ l, f a = g a) : l.anyM f = l.anyM g := by
  induction l with
  | nil => rfl
  | cons a l ih =>
    rw [List.anyM, List.anyM, h a List.mem_cons_self, ih fun b hb => h b (List.mem_cons_of_mem a hb)]

theorem allM_congr {g : α → Read Bool} (h : ∀ a ∈ l, f a = g a) : l.allM f = l.allM g := by
  induction l with
  | nil => rfl
  | cons a l ih =>
    rw [List.allM, List.allM, h a List.mem_cons_self, ih fun b hb => h b (List.mem_cons_of_mem a hb)]

theorem filterM_ok (h : ∀ a ∈ l, f a = .ok (p a)) : l.filterM f = .ok (l.filter p) := by
  have aux : ∀ kept : List α, l.filterAuxM f kept = .ok ((l.filter p).reverse ++ kept) := by
    induction l with
    | nil => exact fun kept => rfl
    | cons a l ih =>
      intro kept
      have hl := ih fun b hb => h b (List.mem_cons_of_mem a hb)
      rw [List.filterAuxM, h a List.mem_cons_self, List.filter_cons]
      cases p a with
      | true => exact (hl (a :: kept)).trans (by simp)
      | false => exact hl kept
  rw [List.filterM, aux []]
  simp [pure, Except.pure, bind, Except.bind]

end Read

/-! ### The parts of a filter -/

section Sizes
variable {conjuncts exclusions : List Filter} {alternatives : Option (List Filter)}
  {conditions : List (String × Condition)} {is isNot : Option RelationTarget}
  {every someOf noneOf : Option Filter}

theorem Option.sizeOf_lt_of_mem {α : Type} [SizeOf α] {a : α} {o : Option α} (h : a ∈ o) :
    sizeOf a < sizeOf o := by
  rw [Option.mem_def.mp h, Option.some.sizeOf_spec]
  omega

theorem Filter.sizeOf_conjunct {f : Filter} (h : f ∈ conjuncts) :
    sizeOf f < sizeOf (Filter.mk conjuncts alternatives exclusions conditions) := by
  have := List.sizeOf_lt_of_mem h
  rw [Filter.mk.sizeOf_spec]
  omega

theorem Filter.sizeOf_alternative {f : Filter} {fs : List Filter} (hfs : fs ∈ alternatives)
    (h : f ∈ fs) :
    sizeOf f < sizeOf (Filter.mk conjuncts alternatives exclusions conditions) := by
  have := List.sizeOf_lt_of_mem h
  have := Option.sizeOf_lt_of_mem hfs
  rw [Filter.mk.sizeOf_spec]
  omega

theorem Filter.sizeOf_exclusion {f : Filter} (h : f ∈ exclusions) :
    sizeOf f < sizeOf (Filter.mk conjuncts alternatives exclusions conditions) := by
  have := List.sizeOf_lt_of_mem h
  rw [Filter.mk.sizeOf_spec]
  omega

theorem Filter.sizeOf_condition {c : String × Condition} (h : c ∈ conditions) :
    sizeOf c.2 < sizeOf (Filter.mk conjuncts alternatives exclusions conditions) := by
  have := List.sizeOf_lt_of_mem h
  have : sizeOf c = 1 + sizeOf c.1 + sizeOf c.2 := Prod.mk.sizeOf_spec c.1 c.2
  rw [Filter.mk.sizeOf_spec]
  omega

end Sizes

namespace Condition

/-- The filters that a condition holds. -/
def filters : Condition → List Filter
  | .nested f => [f]
  | .relation ⟨is, isNot, every, someOf, noneOf⟩ =>
    (is.toList ++ isNot.toList).filterMap wanted ++
      (every.toList ++ someOf.toList ++ noneOf.toList)
  | .isNull => []
  | .equals _ => []
  | .scalar _ => []
where
  wanted : RelationTarget → Option Filter
    | .absent => none
    | .passing f => some f

end Condition

/-! ### The sets -/

namespace View

/-- The rows that a relation joins to a row. -/
def joined (v : View) (r : Relation) (row : Row) : Set Row :=
  {x | ∃ rows, v.relatedRows r row = .ok rows ∧ x ∈ rows}

/-- The rows that a relation joins to no row at all. -/
def withNone (v : View) (r : Relation) : Set Row :=
  {row | v.joined r row = ∅}

/-- The rows that a relation joins to some row of a set, which is a set of rows of the entity at
its other end. -/
def withSome (v : View) (r : Relation) (W : Entity → Set Row) : Set Row :=
  {row | ∃ target, v.schema.require r.target = .ok target ∧ ∃ x ∈ v.joined r row, x ∈ W target}

/-- The rows that a relation joins to rows of a set alone. -/
def withOnly (v : View) (r : Relation) (W : Entity → Set Row) : Set Row :=
  {row | ∀ target, v.schema.require r.target = .ok target → ∀ x ∈ v.joined r row, x ∈ W target}

/-- The rows that meet a condition that holds no filter. -/
def meetingPlainly (v : View) (e : Entity) (name : String) (c : Condition) : Set Row :=
  match e.subject name with
  | .ok (.field f) => {row | e.meets f (row.value name) c = .ok true}
  | .ok (.relation r) => v.withNone r
  | _ => ∅

mutual

/-- The rows that a filter lets through: those in the sets of all its conditions and conjuncts, in
the union of its alternatives if it has any, and in the set of no exclusion. -/
def passing (v : View) (e : Entity) : Filter → Set Row
  | ⟨conjuncts, alternatives, exclusions, conditions⟩ =>
    ((⋂ c ∈ conditions, meeting v e c.1 c.2) ∩ (⋂ f ∈ conjuncts, passing v e f) ∩
      ⋂ fs ∈ alternatives, ⋃ f ∈ fs, passing v e f) \ ⋃ f ∈ exclusions, passing v e f
termination_by f => sizeOf f
decreasing_by
  · exact Filter.sizeOf_condition ‹_›
  · exact Filter.sizeOf_conjunct ‹_›
  · exact Filter.sizeOf_alternative ‹_› ‹_›
  · exact Filter.sizeOf_exclusion ‹_›

/-- The rows that meet a condition. -/
def meeting (v : View) (e : Entity) (name : String) : Condition → Set Row
  | .nested f =>
    match e.subject name with
    | .ok (.relation r) => v.withSome r fun target => passing v target f
    | .ok (.compound _) => passing v e f
    | _ => ∅
  | .relation test =>
    match e.subject name with
    | .ok (.relation r) => meetingTest v r test
    | _ => ∅
  | .isNull => v.meetingPlainly e name .isNull
  | .equals literal => v.meetingPlainly e name (.equals literal)
  | .scalar test => v.meetingPlainly e name (.scalar test)
termination_by c => sizeOf c

/-- The rows that meet every operator on the rows that a relation joins to them. -/
def meetingTest (v : View) (r : Relation) : RelationTest → Set Row
  | ⟨is, isNot, every, someOf, noneOf⟩ =>
    (⋂ t ∈ is, meetingTarget v r t) ∩ (⋂ t ∈ isNot, (meetingTarget v r t)ᶜ) ∩
      (⋂ f ∈ every, v.withOnly r fun target => passing v target f) ∩
      (⋂ f ∈ someOf, v.withSome r fun target => passing v target f) ∩
      ⋂ f ∈ noneOf, (v.withSome r fun target => passing v target f)ᶜ
termination_by test => sizeOf test
decreasing_by
  all_goals
    have := Option.sizeOf_lt_of_mem ‹_›
    simp_wf
    omega

def meetingTarget (v : View) (r : Relation) : RelationTarget → Set Row
  | .absent => v.withNone r
  | .passing f => v.withSome r fun target => passing v target f
termination_by t => sizeOf t

end

section Members
variable {v : View} {e : Entity} {row : Row}

theorem mem_passing {f : Filter} :
    row ∈ v.passing e f ↔
      (∀ c ∈ f.conditions, row ∈ v.meeting e c.1 c.2) ∧
      (∀ g ∈ f.conjuncts, row ∈ v.passing e g) ∧
      (∀ gs ∈ f.alternatives, ∃ g ∈ gs, row ∈ v.passing e g) ∧
      ∀ g ∈ f.exclusions, row ∉ v.passing e g := by
  obtain ⟨conjuncts, alternatives, exclusions, conditions⟩ := f
  rw [passing]
  simp only [Set.mem_sdiff, Set.mem_inter_iff, Set.mem_iInter, Set.mem_iUnion, exists_prop,
    not_exists, not_and, and_assoc]

theorem mem_meetingTest {r : Relation} {test : RelationTest} :
    row ∈ v.meetingTest r test ↔
      (∀ t ∈ test.is, row ∈ v.meetingTarget r t) ∧
      (∀ t ∈ test.isNot, row ∉ v.meetingTarget r t) ∧
      (∀ f ∈ test.every, row ∈ v.withOnly r fun target => v.passing target f) ∧
      (∀ f ∈ test.someOf, row ∈ v.withSome r fun target => v.passing target f) ∧
      ∀ f ∈ test.noneOf, row ∉ v.withSome r fun target => v.passing target f := by
  obtain ⟨is, isNot, every, someOf, noneOf⟩ := test
  rw [meetingTest]
  simp only [Set.mem_inter_iff, Set.mem_iInter, Set.mem_compl_iff, and_assoc]

end Members

/-! ### The evaluator -/

/-- The rows that a filter under a name is put to, each with its entity: those that a relation of
that name joins to the row, or the row itself where the name is that of a compound group. -/
inductive PutTo (v : View) (e : Entity) (row : Row) (name : String) : Entity → Row → Prop
  | joined {r : Relation} {target : Entity} {x : Row}
      (hname : e.subject name = .ok (.relation r))
      (htarget : v.schema.require r.target = .ok target) (hx : x ∈ v.joined r row) :
      PutTo v e row name target x
  | own {fields : List String} (hname : e.subject name = .ok (.compound fields)) :
      PutTo v e row name e row

/-- No condition of the filter fails on a row that it can be put to. -/
inductive Decides (v : View) : Entity → Row → Filter → Prop
  | intro {e : Entity} {row : Row} {f : Filter}
      (conditions : ∀ c ∈ f.conditions, ∃ met, v.meetsOne e row c.1 c.2 = .ok met)
      (below : ∀ c ∈ f.conditions, ∀ g ∈ c.2.filters, ∀ target x, v.PutTo e row c.1 target x →
        Decides v target x g)
      (children : ∀ g ∈ f.children, Decides v e row g) : Decides v e row f

section Evaluation
variable {v : View} {e : Entity} {row : Row}

theorem letsEach_eq (fs : List Filter) : v.letsEach e row fs = fs.allM (v.lets e row) := by
  induction fs with
  | nil => rw [letsEach]; rfl
  | cons f fs ih =>
    rw [letsEach, List.allM, ih]
    rcases v.lets e row f with _ | ⟨_ | _⟩ <;> rfl

theorem letsAny_eq (fs : List Filter) : v.letsAny e row fs = fs.anyM (v.lets e row) := by
  induction fs with
  | nil => rw [letsAny]; rfl
  | cons f fs ih =>
    rw [letsAny, List.anyM, ih]
    rcases v.lets e row f with _ | ⟨_ | _⟩ <;> rfl

theorem meetsAll_eq (cs : List (String × Condition)) :
    v.meetsAll e row cs = cs.allM fun c => v.meetsOne e row c.1 c.2 := by
  induction cs with
  | nil => rw [meetsAll]; rfl
  | cons c cs ih =>
    rw [meetsAll, List.allM, ih]
    rcases v.meetsOne e row c.1 c.2 with _ | ⟨_ | _⟩ <;> rfl

/-- A filter is decided part by part. -/
theorem lets_parts (f : Filter) :
    v.lets e row f = Read.all [
      f.conditions.allM fun c => v.meetsOne e row c.1 c.2,
      f.conjuncts.allM (v.lets e row),
      f.alternatives.elim (.ok true) fun gs => gs.anyM (v.lets e row),
      Read.not (f.exclusions.anyM (v.lets e row))] := by
  obtain ⟨conjuncts, alternatives, exclusions, conditions⟩ := f
  rw [lets.eq_def]
  simp only [meetsAll_eq, letsEach_eq, letsAny_eq]
  cases alternatives <;> rfl

section Quantifiers
variable {r : Relation} {target : Entity} {rows : List Row} {W : Entity → Set Row}

theorem mem_joined (hrows : v.relatedRows r row = .ok rows) {x : Row} :
    x ∈ v.joined r row ↔ x ∈ rows := by
  constructor
  · rintro ⟨others, hothers, hx⟩
    rw [hrows] at hothers
    exact Except.ok.inj hothers ▸ hx
  · exact fun hx => ⟨rows, hrows, hx⟩

theorem mem_withNone (hrows : v.relatedRows r row = .ok rows) :
    row ∈ v.withNone r ↔ rows.isEmpty = true := by
  simp only [withNone, Set.mem_ofPred_eq, Set.eq_empty_iff_forall_notMem, mem_joined hrows,
    List.isEmpty_iff, List.eq_nil_iff_forall_not_mem]

theorem mem_withSome (htarget : v.schema.require r.target = .ok target)
    (hrows : v.relatedRows r row = .ok rows) :
    row ∈ v.withSome r W ↔ ∃ x ∈ rows, x ∈ W target := by
  simp [withSome, htarget, mem_joined hrows]

theorem mem_withOnly (htarget : v.schema.require r.target = .ok target)
    (hrows : v.relatedRows r row = .ok rows) :
    row ∈ v.withOnly r W ↔ ∀ x ∈ rows, x ∈ W target := by
  simp [withOnly, htarget, mem_joined hrows]

end Quantifiers

section Related
open Classical

variable {r : Relation} {target : Entity} {rows : List Row} {f : Filter}

theorem anyM_related (htarget : v.schema.require r.target = .ok target)
    (hrows : v.relatedRows r row = .ok rows)
    (ih : ∀ x ∈ rows, v.lets target x f = .ok (decide (x ∈ v.passing target f))) :
    rows.anyM (fun x => v.lets target x f) =
      .ok (decide (row ∈ v.withSome r fun target => v.passing target f)) := by
  rw [Read.anyM_ok ih]
  exact Read.ok_eq_decide (by simp [mem_withSome htarget hrows])

theorem allM_related (htarget : v.schema.require r.target = .ok target)
    (hrows : v.relatedRows r row = .ok rows)
    (ih : ∀ x ∈ rows, v.lets target x f = .ok (decide (x ∈ v.passing target f))) :
    rows.allM (fun x => v.lets target x f) =
      .ok (decide (row ∈ v.withOnly r fun target => v.passing target f)) := by
  rw [Read.allM_ok ih]
  exact Read.ok_eq_decide (by simp [mem_withOnly htarget hrows])

theorem meetsTarget_eq {t : RelationTarget} (htarget : v.schema.require r.target = .ok target)
    (hrows : v.relatedRows r row = .ok rows)
    (ih : ∀ g ∈ Condition.filters.wanted t, ∀ x ∈ rows,
      v.lets target x g = .ok (decide (x ∈ v.passing target g))) :
    v.meetsTarget target rows t = .ok (decide (row ∈ v.meetingTarget r t)) := by
  cases t with
  | absent =>
    rw [meetsTarget, meetingTarget]
    exact Read.ok_eq_decide (mem_withNone hrows).symm
  | passing g =>
    rw [meetsTarget, meetingTarget]
    exact anyM_related htarget hrows (ih g rfl)

theorem meetsTest_many {every someOf noneOf : Option Filter}
    (htarget : v.schema.require r.target = .ok target) (hrows : v.relatedRows r row = .ok rows)
    (hmany : r.isToMany = true) :
    v.meetsTest e r row ⟨none, none, every, someOf, noneOf⟩ = Read.all [
      every.elim (.ok true) fun f => rows.allM fun x => v.lets target x f,
      someOf.elim (.ok true) fun f => rows.anyM fun x => v.lets target x f,
      noneOf.elim (.ok true) fun f => Read.not (rows.anyM fun x => v.lets target x f)] := by
  rw [meetsTest, htarget, Except.ok_bind, if_pos hmany, hrows]
  cases every <;> cases someOf <;> cases noneOf <;> rfl

theorem meetsTest_one {is isNot : Option RelationTarget}
    (htarget : v.schema.require r.target = .ok target) (hrows : v.relatedRows r row = .ok rows)
    (hone : ¬ r.isToMany = true) :
    v.meetsTest e r row ⟨is, isNot, none, none, none⟩ = Read.all [
      is.elim (.ok true) (v.meetsTarget target rows),
      isNot.elim (.ok true) fun t => Read.not (v.meetsTarget target rows t)] := by
  rw [meetsTest, htarget, Except.ok_bind, if_neg hone, hrows]
  cases is <;> cases isNot <;> rfl

/-- A test that does not fail holds operators of the relation's own multiplicity alone. -/
theorem meetsTest_ok {test : RelationTest} {met : Bool} (h : v.meetsTest e r row test = .ok met) :
    ∃ target rows, v.schema.require r.target = .ok target ∧ v.relatedRows r row = .ok rows ∧
      (r.isToMany = true ∧ test.is = none ∧ test.isNot = none ∨
        ¬ r.isToMany = true ∧ test.every = none ∧ test.someOf = none ∧ test.noneOf = none) := by
  obtain ⟨is, isNot, every, someOf, noneOf⟩ := test
  rw [meetsTest] at h
  obtain ⟨target, htarget, h⟩ := Except.bind_eq_ok.mp h
  split at h
  · next hmany =>
    split at h
    · cases h
    · next hone =>
      obtain ⟨rows, hrows, _⟩ := Except.bind_eq_ok.mp h
      exact ⟨target, rows, htarget, hrows, .inl ⟨hmany, by simpa using hone⟩⟩
  · next hone =>
    split at h
    · cases h
    · next hmany =>
      obtain ⟨rows, hrows, _⟩ := Except.bind_eq_ok.mp h
      exact ⟨target, rows, htarget, hrows, .inr ⟨hone, by simpa [and_assoc] using hmany⟩⟩

/-- The operators on the rows that a relation joins to a row, where none of their filters fails on
these rows. -/
theorem meetsTest_eq {test : RelationTest} (hmet : ∃ met, v.meetsTest e r row test = .ok met)
    (ih : ∀ g ∈ (Condition.relation test).filters, ∀ target x,
      v.schema.require r.target = .ok target → x ∈ v.joined r row →
        v.lets target x g = .ok (decide (x ∈ v.passing target g))) :
    v.meetsTest e r row test = .ok (decide (row ∈ v.meetingTest r test)) := by
  obtain ⟨met, hmet⟩ := hmet
  obtain ⟨target, rows, htarget, hrows, htest⟩ := meetsTest_ok hmet
  obtain ⟨is, isNot, every, someOf, noneOf⟩ := test
  have hlets : ∀ g ∈ (Condition.relation ⟨is, isNot, every, someOf, noneOf⟩).filters,
      ∀ x ∈ rows, v.lets target x g = .ok (decide (x ∈ v.passing target g)) :=
    fun g hg x hx => ih g hg target x htarget ⟨rows, hrows, hx⟩
  simp only [Condition.filters, List.mem_append, List.mem_filterMap, Option.mem_toList] at hlets
  obtain ⟨hmany, rfl, rfl⟩ | ⟨hone, rfl, rfl, rfl⟩ := htest
  · have hevery : every.elim (.ok true) (fun f => rows.allM fun x => v.lets target x f) =
        .ok (decide (∀ f ∈ every, row ∈ v.withOnly r fun target => v.passing target f)) :=
      Read.operator_ok fun f hf =>
        allM_related htarget hrows (hlets f (.inr (.inl (.inl hf))))
    have hsome : someOf.elim (.ok true) (fun f => rows.anyM fun x => v.lets target x f) =
        .ok (decide (∀ f ∈ someOf, row ∈ v.withSome r fun target => v.passing target f)) :=
      Read.operator_ok fun f hf =>
        anyM_related htarget hrows (hlets f (.inr (.inl (.inr hf))))
    have hnone : noneOf.elim (.ok true)
          (fun f => Read.not (rows.anyM fun x => v.lets target x f)) =
        .ok (decide (∀ f ∈ noneOf, row ∉ v.withSome r fun target => v.passing target f)) :=
      Read.operator_ok fun f hf => by
        rw [anyM_related htarget hrows (hlets f (.inr (.inr hf))), Read.not_ok]
        exact Read.ok_eq_decide (by simp)
    rw [meetsTest_many htarget hrows hmany, hevery, hsome, hnone]
    exact (Read.all_ok [_, _, _]).trans (Read.ok_eq_decide (by simp [mem_meetingTest]))
  · have his : is.elim (.ok true) (v.meetsTarget target rows) =
        .ok (decide (∀ t ∈ is, row ∈ v.meetingTarget r t)) :=
      Read.operator_ok fun t ht => meetsTarget_eq htarget hrows fun g hg =>
        hlets g (.inl ⟨t, .inl ht, hg⟩)
    have hnot : isNot.elim (.ok true) (fun t => Read.not (v.meetsTarget target rows t)) =
        .ok (decide (∀ t ∈ isNot, row ∉ v.meetingTarget r t)) :=
      Read.operator_ok fun t ht => by
        rw [meetsTarget_eq htarget hrows fun g hg => hlets g (.inl ⟨t, .inr ht, hg⟩), Read.not_ok]
        exact Read.ok_eq_decide (by simp)
    rw [meetsTest_one htarget hrows hone, his, hnot]
    exact (Read.all_ok [_, _]).trans (Read.ok_eq_decide (by simp [mem_meetingTest]))

theorem require_of_plainTarget (h : v.plainTarget e r = .ok target) :
    v.schema.require r.target = .ok target := by
  obtain ⟨t, ht, h⟩ := Except.bind_eq_ok.mp h
  split at h
  · cases h
  · exact Except.ok.inj h ▸ ht

theorem meetsPlainly_eq {name : String} {c : Condition} {met : Bool}
    (h : v.meetsPlainly e row name c = .ok met) :
    v.meetsPlainly e row name c = .ok (decide (row ∈ v.meetingPlainly e name c)) := by
  rw [h]
  refine Read.ok_eq_decide ?_
  rw [meetsPlainly] at h
  obtain ⟨subject, hname, h⟩ := Except.bind_eq_ok.mp h
  rw [meetingPlainly, hname]
  cases subject with
  | compound fields => cases h
  | field f =>
    have hmeets : e.meets f (row.value name) c = .ok met := h
    show met = true ↔ e.meets f (row.value name) c = .ok true
    rw [hmeets, Except.ok.injEq]
  | relation r =>
    obtain ⟨target, _, h⟩ := Except.bind_eq_ok.mp h
    cases c with
    | isNull =>
      obtain ⟨rows, hrows, h⟩ := Except.bind_eq_ok.mp h
      exact Except.ok.inj h ▸ (mem_withNone hrows).symm
    | equals literal => cases h
    | scalar test => cases h
    | relation test => cases h
    | nested f => cases h

/-- One condition, where none of its filters fails on the rows that they are put to. -/
theorem meetsOne_eq {name : String} {c : Condition}
    (hmet : ∃ met, v.meetsOne e row name c = .ok met)
    (ih : ∀ g ∈ c.filters, ∀ target x, v.PutTo e row name target x →
      v.lets target x g = .ok (decide (x ∈ v.passing target g))) :
    v.meetsOne e row name c = .ok (decide (row ∈ v.meeting e name c)) := by
  obtain ⟨met, hmet⟩ := hmet
  cases c with
  | isNull =>
    rw [meetsOne, meeting] at *
    exact meetsPlainly_eq hmet
  | equals literal =>
    rw [meetsOne, meeting] at *
    exact meetsPlainly_eq hmet
  | scalar test =>
    rw [meetsOne, meeting] at *
    exact meetsPlainly_eq hmet
  | relation test =>
    rw [meetsOne] at hmet ⊢
    obtain ⟨subject, hname, hmet⟩ := Except.bind_eq_ok.mp hmet
    rw [meeting, hname, Except.ok_bind]
    cases subject with
    | field f => cases hmet
    | compound fields => cases hmet
    | relation r =>
      exact meetsTest_eq ⟨met, hmet⟩ fun g hg target x htarget hx =>
        ih g hg target x (.joined hname htarget hx)
  | nested f =>
    rw [meetsOne] at hmet ⊢
    obtain ⟨subject, hname, hmet⟩ := Except.bind_eq_ok.mp hmet
    rw [meeting, hname, Except.ok_bind]
    cases subject with
    | field f => cases hmet
    | compound fields => exact ih f (List.mem_singleton.mpr rfl) e row (.own hname)
    | relation r =>
      obtain ⟨target, hplain, hmet⟩ := Except.bind_eq_ok.mp hmet
      obtain ⟨rows, hrows, hmet⟩ := Except.bind_eq_ok.mp hmet
      have htarget := require_of_plainTarget hplain
      show (v.plainTarget e r >>= fun _ => _) = _
      rw [hplain, Except.ok_bind, hrows, Except.ok_bind]
      exact anyM_related htarget hrows fun x hx =>
        ih f (List.mem_singleton.mpr rfl) target x (.joined hname htarget ⟨rows, hrows, hx⟩)

/-- A filter that fails nowhere is decided by the set that it denotes. -/
theorem lets_eq {f : Filter} (h : v.Decides e row f) :
    v.lets e row f = .ok (decide (row ∈ v.passing e f)) := by
  induction h with
  | @intro e row f hconditions _ _ hbelow hchildren =>
    have hmeets : (f.conditions.allM fun c => v.meetsOne e row c.1 c.2) =
        .ok (decide (∀ c ∈ f.conditions, row ∈ v.meeting e c.1 c.2)) := by
      rw [Read.allM_ok fun c hc => meetsOne_eq (hconditions c hc) (hbelow c hc)]
      exact Read.ok_eq_decide (by simp)
    have heach : f.conjuncts.allM (v.lets e row) =
        .ok (decide (∀ g ∈ f.conjuncts, row ∈ v.passing e g)) := by
      rw [Read.allM_ok fun g hg => hchildren g (by simp [Filter.children, hg])]
      exact Read.ok_eq_decide (by simp)
    have hany : f.alternatives.elim (.ok true) (fun gs => gs.anyM (v.lets e row)) =
        .ok (decide (∀ gs ∈ f.alternatives, ∃ g ∈ gs, row ∈ v.passing e g)) :=
      Read.operator_ok fun gs hgs => by
        rw [Option.mem_def] at hgs
        rw [Read.anyM_ok fun g hg => hchildren g (by simp [Filter.children, hgs, hg])]
        exact Read.ok_eq_decide (by simp)
    have hnone : f.exclusions.anyM (v.lets e row) =
        .ok (decide (∃ g ∈ f.exclusions, row ∈ v.passing e g)) := by
      rw [Read.anyM_ok fun g hg => hchildren g (by simp [Filter.children, hg])]
      exact Read.ok_eq_decide (by simp)
    rw [lets_parts, hmeets, heach, hany, hnone, Read.not_ok]
    exact (Read.all_ok [_, _, _, _]).trans (Read.ok_eq_decide (by rw [mem_passing]; simp))

end Related

end Evaluation

end View

/-! ### The order of the parts -/

/-- Two tests that differ by one filter in the same place. -/
inductive RelationTest.Replaces (f g : Filter) : RelationTest → RelationTest → Prop
  | is (test : RelationTest) :
      Replaces f g { test with is := some (.passing f) } { test with is := some (.passing g) }
  | isNot (test : RelationTest) :
      Replaces f g { test with isNot := some (.passing f) } { test with isNot := some (.passing g) }
  | every (test : RelationTest) :
      Replaces f g { test with every := some f } { test with every := some g }
  | someOf (test : RelationTest) :
      Replaces f g { test with someOf := some f } { test with someOf := some g }
  | noneOf (test : RelationTest) :
      Replaces f g { test with noneOf := some f } { test with noneOf := some g }

/-- Two conditions that differ by one filter in the same place. -/
inductive Condition.Replaces (f g : Filter) : Condition → Condition → Prop
  | nested : Replaces f g (.nested f) (.nested g)
  | relation {test other : RelationTest} (h : test.Replaces f g other) :
      Replaces f g (.relation test) (.relation other)

/-- Two filters that differ by the order of one list of parts, at the top or anywhere below. -/
inductive Filter.Reorders : Filter → Filter → Prop
  | conjuncts {f : Filter} {gs : List Filter} (h : f.conjuncts.Perm gs) :
      Reorders f { f with conjuncts := gs }
  | alternatives {f : Filter} {fs gs : List Filter} (hf : f.alternatives = some fs)
      (h : fs.Perm gs) : Reorders f { f with alternatives := some gs }
  | exclusions {f : Filter} {gs : List Filter} (h : f.exclusions.Perm gs) :
      Reorders f { f with exclusions := gs }
  | conditions {f : Filter} {cs : List (String × Condition)} (h : f.conditions.Perm cs) :
      Reorders f { f with conditions := cs }
  | inConjuncts {f g h : Filter} {before after : List Filter} (hgh : Reorders g h)
      (hf : f.conjuncts = before ++ g :: after) :
      Reorders f { f with conjuncts := before ++ h :: after }
  | inAlternatives {f g h : Filter} {before after : List Filter} (hgh : Reorders g h)
      (hf : f.alternatives = some (before ++ g :: after)) :
      Reorders f { f with alternatives := some (before ++ h :: after) }
  | inExclusions {f g h : Filter} {before after : List Filter} (hgh : Reorders g h)
      (hf : f.exclusions = before ++ g :: after) :
      Reorders f { f with exclusions := before ++ h :: after }
  | inConditions {f g h : Filter} {name : String} {c d : Condition}
      {before after : List (String × Condition)} (hgh : Reorders g h) (hcd : c.Replaces g h d)
      (hf : f.conditions = before ++ (name, c) :: after) :
      Reorders f { f with conditions := before ++ (name, d) :: after }

namespace View
section Order
variable {v : View} {e : Entity} {row : Row} {f g : Filter}

theorem meeting_replaces {name : String} {c d : Condition} (h : c.Replaces f g d)
    (hset : ∀ e, v.passing e f = v.passing e g) : v.meeting e name c = v.meeting e name d := by
  cases h with
  | nested => rw [meeting, meeting, hset e, funext hset]
  | relation h =>
    rw [meeting, meeting]
    split
    · ext row
      cases h <;> simp only [mem_meetingTest, Option.mem_def, Option.some.injEq, forall_eq',
        meetingTarget, hset]
    · rfl

theorem passing_reorders (h : f.Reorders g) : ∀ e, v.passing e f = v.passing e g := by
  induction h with
  | conjuncts h => 
    intro e
    ext row
    rw [mem_passing, mem_passing]
    simp only [h.mem_iff]
  | alternatives hf h =>
    intro e
    ext row
    rw [mem_passing, mem_passing]
    simp only [hf, Option.mem_def, Option.some.injEq, forall_eq', h.mem_iff]
  | exclusions h =>
    intro e
    ext row
    rw [mem_passing, mem_passing]
    simp only [h.mem_iff]
  | conditions h =>
    intro e
    ext row
    rw [mem_passing, mem_passing]
    simp only [h.mem_iff]
  | inConjuncts _ hf ih =>
    intro e
    ext row
    rw [mem_passing, mem_passing]
    simp only [hf, List.forall_mem_append, List.forall_mem_cons, ih]
  | inAlternatives _ hf ih =>
    intro e
    ext row
    rw [mem_passing, mem_passing]
    simp only [hf, Option.mem_def, Option.some.injEq, forall_eq', List.mem_append, List.mem_cons,
      or_and_right, exists_or, exists_eq_left, ih]
  | inExclusions _ hf ih =>
    intro e
    ext row
    rw [mem_passing, mem_passing]
    simp only [hf, List.forall_mem_append, List.forall_mem_cons, ih]
  | inConditions _ hcd hf ih =>
    intro e
    ext row
    rw [mem_passing, mem_passing]
    simp only [hf, List.forall_mem_append, List.forall_mem_cons,
      meeting_replaces hcd ih]

theorem meetsTest_replaces {r : Relation} {test other : RelationTest} (h : test.Replaces f g other)
    (hlets : ∀ target x, v.schema.require r.target = .ok target → x ∈ v.joined r row →
      v.lets target x f = v.lets target x g) :
    v.meetsTest e r row test = v.meetsTest e r row other := by
  cases htarget : v.schema.require r.target with
  | error err => cases h <;> (rw [meetsTest, meetsTest, htarget]; rfl)
  | ok target =>
    cases hrows : v.relatedRows r row with
    | error err =>
      cases h <;>
        (rw [meetsTest, meetsTest, htarget, Except.ok_bind, Except.ok_bind, hrows]; rfl)
    | ok rows =>
      have hx : ∀ x ∈ rows, v.lets target x f = v.lets target x g :=
        fun x hx => hlets target x htarget ⟨rows, hrows, hx⟩
      have hany : rows.anyM (v.lets target · f) = rows.anyM (v.lets target · g) :=
        Read.anyM_congr hx
      have hall : rows.allM (v.lets target · f) = rows.allM (v.lets target · g) :=
        Read.allM_congr hx
      cases h <;>
        (rw [meetsTest, meetsTest, htarget, hrows]
         simp only [Except.ok_bind, meetsTarget, Option.isSome_some, hany, hall])

theorem meetsOne_replaces {name : String} {c d : Condition} (h : c.Replaces f g d)
    (hlets : ∀ target x, v.PutTo e row name target x → v.lets target x f = v.lets target x g) :
    v.meetsOne e row name c = v.meetsOne e row name d := by
  cases h with
  | relation h =>
    rw [meetsOne, meetsOne]
    refine Except.bind_congr fun subject hname => ?_
    cases subject with
    | field f => rfl
    | compound fields => rfl
    | relation r =>
      exact meetsTest_replaces h fun target x htarget hx => hlets target x (.joined hname htarget hx)
  | nested =>
    rw [meetsOne, meetsOne]
    refine Except.bind_congr fun subject hname => ?_
    cases subject with
    | field f => rfl
    | compound fields => exact hlets e row (.own hname)
    | relation r =>
      refine Except.bind_congr fun target hplain => Except.bind_congr fun rows hrows => ?_
      exact Read.anyM_congr fun x hx =>
        hlets target x (.joined hname (require_of_plainTarget hplain) ⟨rows, hrows, hx⟩)

theorem mem_filters_replaces {c d : Condition} (h : c.Replaces f g d) :
    f ∈ c.filters ∧ ∀ k ∈ d.filters, k = g ∨ k ∈ c.filters := by
  cases h with
  | nested => simp [Condition.filters]
  | relation h => cases h <;> simp [Condition.filters, Condition.filters.wanted] <;> grind

theorem lets_reorders (h : f.Reorders g) (hf : v.Decides e row f) (hg : v.Decides e row g) :
    v.lets e row f = v.lets e row g := by
  rw [lets_eq hf, lets_eq hg, passing_reorders h e]

/-- Other parts of which none fails either. -/
theorem Decides.of_children (hf : v.Decides e row f) (hconditions : g.conditions = f.conditions)
    (hchildren : ∀ k ∈ g.children, k ∈ f.children ∨ v.Decides e row k) : v.Decides e row g := by
  obtain ⟨hmet, hbelow, hold⟩ := hf
  rw [← hconditions] at hmet hbelow
  refine ⟨hmet, hbelow, fun k hk => ?_⟩
  obtain hk | hk := hchildren k hk
  · exact hold k hk
  · exact hk

theorem Decides.child (hf : v.Decides e row f) (hg : g ∈ f.children) : v.Decides e row g := by
  obtain ⟨-, -, hchildren⟩ := hf
  exact hchildren g hg

/-- A filter that fails nowhere fails nowhere in another order. -/
theorem Decides.reorders (h : f.Reorders g) : ∀ {e row}, v.Decides e row f → v.Decides e row g := by
  induction h with
  | conjuncts h =>
    intro e row hf
    refine hf.of_children rfl fun k hk => .inl ?_
    simpa [Filter.children, h.mem_iff] using hk
  | alternatives hf h =>
    intro e row hdecides
    refine hdecides.of_children rfl fun k hk => .inl ?_
    simpa [Filter.children, hf, h.mem_iff] using hk
  | exclusions h =>
    intro e row hf
    refine hf.of_children rfl fun k hk => .inl ?_
    simpa [Filter.children, h.mem_iff] using hk
  | conditions h =>
    rintro e row ⟨hconditions, hbelow, hchildren⟩
    exact ⟨fun c hc => hconditions c (h.mem_iff.mpr hc), fun c hc => hbelow c (h.mem_iff.mpr hc),
      hchildren⟩
  | @inConjuncts f g h before after _ hf ih =>
    intro e row hdecides
    have hh : v.Decides e row h := ih (hdecides.child (by simp [Filter.children, hf]))
    refine hdecides.of_children rfl fun k hk => ?_
    simp only [Filter.children, hf, List.mem_append, List.mem_cons] at hk ⊢
    obtain (((hk | rfl | hk) | hk) | hk) := hk <;> simp [*]
  | @inAlternatives f g h before after _ hf ih =>
    intro e row hdecides
    have hh : v.Decides e row h := ih (hdecides.child (by simp [Filter.children, hf]))
    refine hdecides.of_children rfl fun k hk => ?_
    simp only [Filter.children, hf, Option.getD_some, List.mem_append, List.mem_cons] at hk ⊢
    obtain ((hk | (hk | rfl | hk)) | hk) := hk <;> simp [*]
  | @inExclusions f g h before after _ hf ih =>
    intro e row hdecides
    have hh : v.Decides e row h := ih (hdecides.child (by simp [Filter.children, hf]))
    refine hdecides.of_children rfl fun k hk => ?_
    simp only [Filter.children, hf, List.mem_append, List.mem_cons] at hk ⊢
    obtain ((hk | hk) | (hk | rfl | hk)) := hk <;> simp [*]
  | @inConditions f g h name c d before after hgh hcd hf ih =>
    rintro e row ⟨hconditions, hbelow, hchildren⟩
    have hc : (name, c) ∈ f.conditions := by simp [hf]
    obtain ⟨hg, hfilters⟩ := mem_filters_replaces hcd
    have hbelow' : ∀ k ∈ d.filters, ∀ target x, v.PutTo e row name target x →
        v.Decides target x k := by
      intro k hk target x hx
      obtain rfl | hk := hfilters k hk
      · exact ih (hbelow _ hc g hg target x hx)
      · exact hbelow _ hc k hk target x hx
    have hd : ∃ met, v.meetsOne e row name d = .ok met := by
      rw [← meetsOne_replaces hcd fun target x hx => lets_reorders hgh
        (hbelow _ hc g hg target x hx) (ih (hbelow _ hc g hg target x hx))]
      exact hconditions _ hc
    have hmem : ∀ c' ∈ before ++ (name, d) :: after, c' = (name, d) ∨ c' ∈ f.conditions := by
      intro c' hc'
      simp only [hf, List.mem_append, List.mem_cons] at hc' ⊢
      tauto
    refine ⟨fun c' hc' => ?_, fun c' hc' => ?_, hchildren⟩
    · obtain rfl | hc' := hmem c' hc'
      · exact hd
      · exact hconditions c' hc'
    · obtain rfl | hc' := hmem c' hc'
      · exact hbelow'
      · exact hbelow c' hc'

open Classical in
/-- Where no condition of a filter fails on a row that it can be put to, the rows that it selects
are those in its set, in their order. Selecting once more changes nothing, and neither does another
order of the conditions, conjuncts, alternatives or exclusions of any filter in the tree. -/
theorem select_passing {rows : List Row} (h : ∀ row ∈ rows, v.Decides e row f) :
    v.select e rows f = .ok (rows.filter (· ∈ v.passing e f)) ∧
      v.select e (rows.filter (· ∈ v.passing e f)) f = .ok (rows.filter (· ∈ v.passing e f)) ∧
      ∀ g, Relation.ReflTransGen Filter.Reorders f g → v.select e rows g = v.select e rows f := by
  have hselect : ∀ {kept : List Row} {g : Filter}, (∀ row ∈ kept, v.Decides e row g) →
      v.select e kept g = .ok (kept.filter (· ∈ v.passing e g)) :=
    fun hg => Read.filterM_ok fun row hrow => lets_eq (hg row hrow)
  refine ⟨hselect h, ?_, ?_⟩
  · rw [hselect fun row hrow => h row (List.mem_of_mem_filter hrow), List.filter_filter]
    simp only [Bool.and_self]
  · intro g hfg
    have hg : (∀ row ∈ rows, v.Decides e row g) ∧ v.passing e f = v.passing e g := by
      induction hfg with
      | refl => exact ⟨h, rfl⟩
      | tail _ hstep ih =>
        obtain ⟨hdecides, hset⟩ := ih
        exact ⟨fun row hrow => (hdecides row hrow).reorders hstep,
          hset.trans (passing_reorders hstep e)⟩
    rw [hselect hg.1, hselect h, hg.2]

end Order

section Equalities
variable {v : View} {e : Entity} {row : Row} {name : String} {f : FieldDef} {literal : Json}

theorem meetsOne_equals {w : Value} (hname : e.subject name = .ok (.field f))
    (hliteral : e.coerce f literal = .ok w) :
    ∃ met, v.meetsOne e row name (.equals literal) = .ok met := by
  have hmet : ∃ met, e.equalsLiteral f (row.value name) .sensitive literal = .ok met := by
    rw [Entity.equalsLiteral, hliteral, Except.ok_bind]
    repeat' split
    all_goals exact ⟨_, rfl⟩
  rw [meetsOne, meetsPlainly, hname, Except.ok_bind]
  exact hmet

theorem decides_whereEquals {w : Value} (hname : e.subject name = .ok (.field f))
    (hliteral : e.coerce f literal = .ok w) :
    v.Decides e row (Filter.whereEquals {} name literal) := by
  refine ⟨?_, ?_, ?_⟩
  · intro c hc
    rw [List.mem_singleton.mp hc]
    exact meetsOne_equals hname hliteral
  · intro c hc g hg
    rw [List.mem_singleton.mp hc] at hg
    cases hg
  · intro g hg
    cases hg

end Equalities

end View

/-! ### A family -/

/-- Persons with their children. -/
def Entity.person : Entity :=
  { name := "person"
    fields := [{ name := "id", kind := .int, id := true }, { name := "name", kind := .string },
      { name := "parentId", kind := .int }]
    relations := [⟨"children", "person", .many, ["id"], ["parentId"], .setNull⟩]
    idFields := ["id"]
    uniqueGroups := []
    dependents := [] }

namespace View

/-- Ann and her children Bob and Cy. -/
def family : List Row :=
  [SortedMap.ofList [("id", .int 1), ("name", .string "Ann"), ("parentId", .null)],
   SortedMap.ofList [("id", .int 2), ("name", .string "Bob"), ("parentId", .int 1)],
   SortedMap.ofList [("id", .int 3), ("name", .string "Cy"), ("parentId", .int 1)]]

def ofPersons (rows : List Row) : View :=
  let table := (Table.ofRows Entity.person.tableDef rows).toOption
  ⟨⟨SortedMap.ofList [("person", .person)]⟩,
    SortedMap.ofList (table.toList.map (("person", ·))),
    { id := 0, mode := .readOnly, scope := ["person"] }⟩

def named (name : String) : Filter := Filter.whereEquals {} "name" (.string name)

def parentOf (name : String) : Filter :=
  Filter.and {} "children" (.relation { someOf := some (named name) })

theorem decides_named (v : View) (row : Row) (name : String) : v.Decides .person row (named name) :=
  decides_whereEquals (w := .string name) (by simp [Entity.person, Entity.subject, Entity.field?]; rfl) rfl

theorem decides_parentOf {row : Row} (hrow : row ∈ family) (name : String)
    (hmet : family.all fun row => ((ofPersons family).meetsOne .person row "children"
      (.relation { someOf := some (named name) })).isOk) :
    (ofPersons family).Decides .person row (parentOf name) := by
  refine ⟨?_, ?_, ?_⟩
  · intro c hc
    rw [List.mem_singleton.mp hc]
    have hok := List.all_eq_true.mp hmet row hrow
    cases h : (ofPersons family).meetsOne .person row "children"
      (.relation { someOf := some (named name) }) with
    | error err => rw [h] at hok; cases hok
    | ok met => exact ⟨met, rfl⟩
  · intro c hc g hg target x hx
    rw [List.mem_singleton.mp hc] at hg hx
    rw [List.mem_singleton.mp hg]
    have hsubject : Entity.person.subject "children" =
        .ok (.relation ⟨"children", "person", .many, ["id"], ["parentId"], .setNull⟩) := by
      simp [Entity.person, Entity.subject, Entity.field?, Entity.relation?]
    have hperson : (ofPersons family).schema.require "person" = .ok .person := rfl
    cases hx with
    | joined hname htarget _ =>
      rw [hsubject] at hname
      cases hname
      rw [hperson] at htarget
      cases htarget
      exact decides_named _ x name
    | own hname =>
      rw [hsubject] at hname
      cases hname
  · intro g hg
    cases hg

/-- Bob, and the parent of Cy. -/
theorem select_passing_family :
    let v := ofPersons family
    let f : Filter := { alternatives := some [named "Bob", parentOf "Cy"] }
    (∀ row ∈ family, v.Decides .person row f) ∧
      v.select .person family f = .ok (family.take 2) ∧
      v.select .person family { alternatives := some [parentOf "Cy", named "Bob"] } =
        .ok (family.take 2) := by
  intro v f
  have hdecides : ∀ row ∈ family, v.Decides .person row f := by
    intro row hrow
    refine ⟨nofun, nofun, fun g hg => ?_⟩
    have hg : g = named "Bob" ∨ g = parentOf "Cy" := by simpa [f, Filter.children] using hg
    obtain rfl | rfl := hg
    · exact decides_named v row "Bob"
    · exact decides_parentOf hrow "Cy" (by decide +kernel)
  have hselect : v.select .person family f = .ok (family.take 2) := by
    rfl
  obtain ⟨-, -, horder⟩ := select_passing hdecides
  exact ⟨hdecides, hselect, hselect ▸ horder _ (.single (.alternatives rfl (.swap _ _ _)))⟩

end View

end RelationalStore

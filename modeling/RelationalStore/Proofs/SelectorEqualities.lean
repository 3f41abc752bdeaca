import RelationalStore.Engine.Selector
import RelationalStore.Proofs.FilterSets
import RelationalStore.Proofs.MapEntries

/- The equalities of a selector. Those that count are outside of its combinators, or within the name
   of a compound group (`Entity.equalities`).

   They are read in two ways. A row that the selector lets through has the values of all of them
   (`View.equal_of_lets`), because each condition is asked of it. And `fixedBy` puts the values
   together, in which the last equality of a field stands and those within a name go over those
   before it (`Entity.Fixes`). What is not asked of any row is not the same in both: `fixedBy` fails
   for a literal that is no value of its field, also where no row comes to it
   (`Entity.literals_of_fixedBy`), and an equality with null leaves its field without a value. -/
namespace RelationalStore
open SortedMap Read

/-! ### Equalities -/

namespace Entity

mutual

/-- The equalities of a filter outside of its combinators, each a field and a literal. -/
def equalities (e : Entity) : Filter → List (String × Json)
  | ⟨_, _, _, conditions⟩ => equalitiesAll e conditions

def equalitiesAll (e : Entity) : List (String × Condition) → List (String × Json)
  | [] => []
  | (name, c) :: rest => equalitiesOne e name c ++ equalitiesAll e rest

/-- A test is an equality where case counts, and a compound name stands for those within it. -/
def equalitiesOne (e : Entity) (name : String) : Condition → List (String × Json)
  | .equals literal => [(name, literal)]
  | .scalar test =>
    match test.equals, test.mode with
    | some literal, .sensitive => [(name, literal)]
    | _, _ => []
  | .nested f => if (e.compound? name).isSome then equalities e f else []
  | .isNull => []
  | .relation _ => []

end

/-- No relation has the name of a compound group, so a filter under such a name is on the group. -/
def TellsGroups (e : Entity) : Prop := ∀ r ∈ e.relations, e.compound? r.name = none

instance (e : Entity) : Decidable e.TellsGroups := by
  unfold TellsGroups
  infer_instance

/-- Each of the equalities of a field is with a literal of its kind. -/
def Literals (e : Entity) (equalities : List (String × Json)) : Prop :=
  ∀ p ∈ equalities, ∀ field, e.field? p.1 = some field → field.list = false →
    ∃ v, e.coerce field p.2 = .ok v

end Entity

/-! ### What a row that is let through has -/

namespace Read
variable {α : Type} {a b : Read Bool} {l : List (Read Bool)}

theorem and_eq_true : a.and b = .ok true ↔ a = .ok true ∧ b = .ok true := by
  cases a with
  | error err => simp [Read.and, bind, Except.bind]
  | ok held => cases held <;> simp

theorem all_eq_true : Read.all l = .ok true ↔ ∀ a ∈ l, a = .ok true := by
  induction l with
  | nil => simp [Read.all]
  | cons a l ih => rw [Read.all, and_eq_true, ih, List.forall_mem_cons]

theorem allM_eq_true {as : List α} {f : α → Read Bool} (h : as.allM f = .ok true) :
    ∀ a ∈ as, f a = .ok true := by
  induction as with
  | nil => simp
  | cons a as ih =>
    obtain ⟨held, hheld, h⟩ := Except.bind_eq_ok.1 h
    cases held with
    | false => cases h
    | true => exact List.forall_mem_cons.2 ⟨hheld, ih h⟩

end Read

namespace View
variable {v : View} {e : Entity} {row : Row} {field : FieldDef} {name : String} {literal : Json}

/-- The value equals the literal: it has the place of what the literal stands for, unless that is
null. -/
def Equal (e : Entity) (field : FieldDef) (value : Value) (literal : Json) : Prop :=
  ∃ expected, e.coerce field literal = .ok expected ∧
    (expected.isNull = false → compare value expected = .eq)

theorem equal_of_equalsLiteral {value : Value} (hlist : field.list = false)
    (h : e.equalsLiteral field value .sensitive literal = .ok true) :
    Equal e field value literal := by
  obtain ⟨expected, hexpected, h⟩ := Except.bind_eq_ok.1 h
  refine ⟨expected, hexpected, fun hnull => ?_⟩
  rw [hnull, hlist] at h
  cases hvalue : value.isNull with
  | true => simp [hvalue, pure, Except.pure] at h
  | false => simpa [hvalue, Entity.compareIn, pure, Except.pure] using h

theorem subject_field (hfield : e.field? name = some field) :
    e.subject name = .ok (.field field) := by
  rw [Entity.subject, hfield]

theorem relation?_of_subject {r : Relation} (h : e.subject name = .ok (.relation r)) :
    e.relation? name = some r := by
  unfold Entity.subject at h
  split at h
  · cases h
  · next hr =>
    cases h
    exact hr
  · cases h
  · cases h

theorem meets_of_meetsPlainly {c : Condition} (hfield : e.field? name = some field)
    (h : v.meetsPlainly e row name c = .ok true) : e.meets field (row.value name) c = .ok true := by
  rw [meetsPlainly, subject_field hfield] at h
  exact h

theorem equalsLiteral_of_passes {value : Value} {test : ScalarTest}
    (hequals : test.equals = some literal) (h : e.passes field value test = .ok true) :
    e.equalsLiteral field value test.mode literal = .ok true := by
  obtain ⟨equals, not, isIn, notIn, lt, lte, gt, gte, contains, startsWith, endsWith, mode, has,
    hasEvery, hasSome, isEmpty⟩ := test
  obtain rfl : equals = some literal := hequals
  rw [Entity.passes.eq_def, all_eq_true] at h
  exact h _ (List.mem_cons_of_mem _ List.mem_cons_self)

mutual

/-- A row that is let through has the values of all equalities. -/
theorem equal_of_lets (he : e.TellsGroups) (hfield : e.field? name = some field)
    (hlist : field.list = false) : ∀ f : Filter, v.lets e row f = .ok true →
    (name, literal) ∈ e.equalities f → Equal e field (row.value name) literal
  | ⟨_, _, _, conditions⟩, h, hmem => by
    rw [lets_parts, all_eq_true] at h
    rw [Entity.equalities] at hmem
    exact equal_of_meetsAll he hfield hlist conditions (allM_eq_true (h _ List.mem_cons_self)) hmem

theorem equal_of_meetsAll (he : e.TellsGroups) (hfield : e.field? name = some field)
    (hlist : field.list = false) : ∀ conditions : List (String × Condition),
    (∀ c ∈ conditions, v.meetsOne e row c.1 c.2 = .ok true) →
    (name, literal) ∈ e.equalitiesAll conditions → Equal e field (row.value name) literal
  | [], _, hmem => by
    rw [Entity.equalitiesAll] at hmem
    cases hmem
  | (n, c) :: rest, h, hmem => by
    rw [Entity.equalitiesAll] at hmem
    rcases List.mem_append.1 hmem with hmem | hmem
    · exact equal_of_meetsOne he hfield hlist n c (h _ List.mem_cons_self) hmem
    · exact equal_of_meetsAll he hfield hlist rest
        (fun c hc => h c (List.mem_cons_of_mem _ hc)) hmem

theorem equal_of_meetsOne (he : e.TellsGroups) (hfield : e.field? name = some field)
    (hlist : field.list = false) (n : String) : ∀ c : Condition,
    v.meetsOne e row n c = .ok true → (name, literal) ∈ e.equalitiesOne n c →
    Equal e field (row.value name) literal
  | .isNull, _, hmem => by
    rw [Entity.equalitiesOne] at hmem
    cases hmem
  | .relation _, _, hmem => by
    rw [Entity.equalitiesOne] at hmem
    cases hmem
  | .equals l, h, hmem => by
    rw [Entity.equalitiesOne, List.mem_singleton] at hmem
    cases hmem
    rw [meetsOne] at h
    exact equal_of_equalsLiteral hlist (meets_of_meetsPlainly hfield h)
  | .scalar test, h, hmem => by
    rw [Entity.equalitiesOne] at hmem
    split at hmem
    · next l hequals hmode =>
      cases List.mem_singleton.1 hmem
      rw [meetsOne] at h
      have hpasses := equalsLiteral_of_passes hequals (meets_of_meetsPlainly hfield h)
      rw [hmode] at hpasses
      exact equal_of_equalsLiteral hlist hpasses
    · cases hmem
  | .nested f, h, hmem => by
    rw [Entity.equalitiesOne] at hmem
    split at hmem
    · next hcompound =>
      rw [meetsOne] at h
      obtain ⟨subject, hsubject, h⟩ := Except.bind_eq_ok.1 h
      cases subject with
      | field f => cases h
      | compound fields => exact equal_of_lets he hfield hlist f h hmem
      | relation r =>
        have hr := relation?_of_subject hsubject
        have hname : r.name = n := by simpa using List.find?_some hr
        rw [← hname, he r (List.mem_of_find?_eq_some hr)] at hcompound
        cases hcompound
    · cases hmem

end

end View

/-! ### The values that a selector fixes -/

theorem SortedMap.Ordered.insertAll {m : SortedMap String Value} (h : Ordered m)
    (other : SortedMap String Value) : Ordered (m.insertAll other) := by
  unfold SortedMap.insertAll
  induction other.entries generalizing m with
  | nil => exact h
  | cons p rest ih => exact ih h.insert

namespace Entity

/-- What becomes of the values that are fixed when equalities are put in. -/
structure Fixes (e : Entity) (equalities : List (String × Json))
    (before after : SortedMap String Value) : Prop where
  ordered : Ordered before → Ordered after
  source : ∀ name v, after.get? name = some v → before.get? name = some v ∨
    ∃ field literal, e.field? name = some field ∧ field.list = false ∧
      (name, literal) ∈ equalities ∧ e.coerce field literal = .ok v
  kept : ∀ name, (before.get? name).isSome → (after.get? name).isSome
  fixed : ∀ p ∈ equalities, ∀ field, e.field? p.1 = some field → field.list = false →
    (after.get? p.1).isSome

variable {e : Entity} {before middle after part : SortedMap String Value} {name : String}
  {literal : Json} {l l' : List (String × Json)}

namespace Fixes

theorem refl : e.Fixes [] before before :=
  ⟨fun h => h, fun _ _ h => .inl h, fun _ h => h, nofun⟩

theorem trans (h : e.Fixes l before middle) (h' : e.Fixes l' middle after) :
    e.Fixes (l ++ l') before after where
  ordered hbefore := h'.ordered (h.ordered hbefore)
  source name v hv := by
    rcases h'.source name v hv with hv | ⟨field, literal, hfield, hlist, hmem, hcoerce⟩
    · rcases h.source name v hv with hv | ⟨field, literal, hfield, hlist, hmem, hcoerce⟩
      · exact .inl hv
      · exact .inr ⟨field, literal, hfield, hlist, List.mem_append_left _ hmem, hcoerce⟩
    · exact .inr ⟨field, literal, hfield, hlist, List.mem_append_right _ hmem, hcoerce⟩
  kept name hname := h'.kept name (h.kept name hname)
  fixed p hp field hfield hlist := by
    rcases List.mem_append.1 hp with hp | hp
    · exact h'.kept p.1 (h.fixed p hp field hfield hlist)
    · exact h'.fixed p hp field hfield hlist

/-- Where nothing was fixed before, a value is that of an equality. -/
theorem of_empty (h : e.Fixes l ∅ part) {v : Value} (hv : part.get? name = some v) :
    ∃ field literal, e.field? name = some field ∧ field.list = false ∧
      (name, literal) ∈ l ∧ e.coerce field literal = .ok v :=
  (h.source name v hv).resolve_left (by simp)

theorem exists_literal (h : e.Fixes l ∅ part) (hvalue : (Row.value part name).isNull = false) :
    ∃ field literal, e.field? name = some field ∧ field.list = false ∧
      (name, literal) ∈ l ∧ e.coerce field literal = .ok (Row.value part name) := by
  unfold Row.value at hvalue ⊢
  cases hfound : part.get? name with
  | none =>
    rw [hfound] at hvalue
    cases hvalue
  | some v => exact h.of_empty hfound

theorem insertAll (h : e.Fixes l ∅ part) : e.Fixes l before (before.insertAll part) := by
  have hpart : Ordered part := h.ordered .nil
  have hget (name : String) :
      (before.insertAll part).get? name = (part.get? name).or (before.get? name) :=
    get?_insertAll hpart
  refine ⟨fun hbefore => hbefore.insertAll part, fun name v hv => ?_, fun name hname => ?_,
    fun p hp field hfield hlist => ?_⟩
  · rw [hget, Option.or_eq_some_iff] at hv
    rcases hv with hv | ⟨-, hv⟩
    · exact .inr (h.of_empty hv)
    · exact .inl hv
  · rw [hget, Option.isSome_or, hname, Bool.or_true]
  · rw [hget, Option.isSome_or, h.fixed p hp field hfield hlist, Bool.true_or]

end Fixes

theorem fixes_fix (h : e.Literals [(name, literal)]) :
    ∃ after, e.fix before name literal = .ok after ∧ e.Fixes [(name, literal)] before after := by
  have hsame (hnone : ∀ field, e.field? name = some field → field.list = true) :
      e.Fixes [(name, literal)] before before := by
    refine ⟨fun h => h, fun _ _ hv => .inl hv, fun _ hname => hname,
      fun p hp field hfield hlist => ?_⟩
    cases List.mem_singleton.1 hp
    cases (hnone field hfield).symm.trans hlist
  unfold fix
  cases hfield : e.field? name with
  | none => exact ⟨before, rfl, hsame (by simp [hfield])⟩
  | some field =>
    cases hlist : field.list with
    | true =>
      refine ⟨before, by simp [hlist, pure, Except.pure], hsame fun field' hfield' => ?_⟩
      cases hfield.symm.trans hfield'
      exact hlist
    | false =>
      obtain ⟨v, hv⟩ := h _ List.mem_cons_self field hfield hlist
      refine ⟨before.insert name v, ?_, fun hbefore => hbefore.insert, fun name' w hw => ?_,
        fun name' hname' => ?_, fun p hp _ _ _ => ?_⟩
      · simp only [hlist, hv]
        rfl
      · rw [get?_insert_eq] at hw
        split at hw
        · next heq =>
          cases hw
          subst heq
          exact .inr ⟨field, literal, hfield, hlist, List.mem_cons_self, hv⟩
        · exact .inl hw
      · rw [get?_insert_eq]
        split
        · rfl
        · exact hname'
      · cases List.mem_singleton.1 hp
        rw [get?_insert_self]
        rfl

mutual

theorem fixedBy_fixes : ∀ f : Filter, e.Literals (e.equalities f) →
    ∃ fixed, e.fixedBy f = .ok fixed ∧ e.Fixes (e.equalities f) ∅ fixed
  | ⟨_, _, _, conditions⟩, h => by
    rw [equalities] at h ⊢
    rw [fixedBy]
    exact fixedByAll_fixes conditions h ∅

theorem fixedByAll_fixes : ∀ conditions : List (String × Condition),
    e.Literals (e.equalitiesAll conditions) → ∀ before : SortedMap String Value,
      ∃ after, e.fixedByAll before conditions = .ok after ∧
        e.Fixes (e.equalitiesAll conditions) before after
  | [], _, before => by
    rw [equalitiesAll]
    exact ⟨before, by rw [fixedByAll], .refl⟩
  | (name, c) :: rest, h, before => by
    rw [equalitiesAll] at h ⊢
    obtain ⟨middle, hmiddle, hfirst⟩ := fixedByOne_fixes name c
      (fun p hp => h p (List.mem_append_left _ hp)) before
    obtain ⟨after, hafter, hrest⟩ := fixedByAll_fixes rest
      (fun p hp => h p (List.mem_append_right _ hp)) middle
    refine ⟨after, ?_, hfirst.trans hrest⟩
    rw [fixedByAll, hmiddle]
    exact hafter

theorem fixedByOne_fixes (name : String) : ∀ c : Condition, e.Literals (e.equalitiesOne name c) →
    ∀ before : SortedMap String Value, ∃ after, e.fixedByOne before name c = .ok after ∧
      e.Fixes (e.equalitiesOne name c) before after
  | .isNull, _, before => by
    rw [equalitiesOne, fixedByOne]
    exact ⟨before, rfl, .refl⟩
  | .relation _, _, before => by
    rw [equalitiesOne, fixedByOne]
    exact ⟨before, rfl, .refl⟩
  | .equals literal, h, before => by
    rw [equalitiesOne] at h ⊢
    rw [fixedByOne]
    exact fixes_fix h
  | .scalar test, h, before => by
    rw [equalitiesOne] at h ⊢
    rw [fixedByOne]
    cases hequals : test.equals with
    | none => exact ⟨before, rfl, .refl⟩
    | some literal =>
      cases hmode : test.mode with
      | insensitive => exact ⟨before, rfl, .refl⟩
      | sensitive =>
        rw [hequals, hmode] at h
        exact fixes_fix h
  | .nested f, h, before => by
    rw [equalitiesOne] at h ⊢
    rw [fixedByOne]
    cases hcompound : e.compound? name with
    | none => exact ⟨before, rfl, .refl⟩
    | some group =>
      rw [hcompound] at h
      obtain ⟨part, hpart, hfixes⟩ := fixedBy_fixes f h
      refine ⟨before.insertAll part, ?_, hfixes.insertAll⟩
      rw [hpart]
      rfl

end

theorem Literals.append (h : e.Literals l) (h' : e.Literals l') : e.Literals (l ++ l') := by
  intro p hp
  rcases List.mem_append.1 hp with hp | hp
  · exact h p hp
  · exact h' p hp

theorem literals_of_fix (h : e.fix before name literal = .ok after) :
    e.Literals [(name, literal)] := by
  intro p hp field hfield hlist
  cases List.mem_singleton.1 hp
  simp only [fix, hfield, hlist] at h
  obtain ⟨v, hv, -⟩ := Except.bind_eq_ok.1 h
  exact ⟨v, hv⟩

mutual

/-- The values of all equalities are asked for, so each of them has one. -/
theorem literals_of_fixedBy : ∀ (f : Filter) {fixed : SortedMap String Value},
    e.fixedBy f = .ok fixed → e.Literals (e.equalities f)
  | ⟨_, _, _, conditions⟩, _, h => by
    rw [fixedBy] at h
    rw [equalities]
    exact literals_of_fixedByAll conditions h

theorem literals_of_fixedByAll : ∀ (conditions : List (String × Condition))
    {before after : SortedMap String Value}, e.fixedByAll before conditions = .ok after →
    e.Literals (e.equalitiesAll conditions)
  | [], _, _, _ => by
    rw [equalitiesAll]
    exact nofun
  | (name, c) :: rest, _, _, h => by
    rw [fixedByAll] at h
    obtain ⟨middle, hmiddle, hrest⟩ := Except.bind_eq_ok.1 h
    rw [equalitiesAll]
    exact (literals_of_fixedByOne name c hmiddle).append (literals_of_fixedByAll rest hrest)

theorem literals_of_fixedByOne (name : String) : ∀ (c : Condition)
    {before after : SortedMap String Value}, e.fixedByOne before name c = .ok after →
    e.Literals (e.equalitiesOne name c)
  | .isNull, _, _, _ => by
    rw [equalitiesOne]
    exact nofun
  | .relation _, _, _, _ => by
    rw [equalitiesOne]
    exact nofun
  | .equals literal, _, _, h => by
    rw [fixedByOne] at h
    rw [equalitiesOne]
    exact literals_of_fix h
  | .scalar test, _, _, h => by
    rw [fixedByOne] at h
    rw [equalitiesOne]
    cases hequals : test.equals with
    | none => exact nofun
    | some literal =>
      cases hmode : test.mode with
      | insensitive => exact nofun
      | sensitive =>
        rw [hequals, hmode] at h
        exact literals_of_fix h
  | .nested f, _, _, h => by
    rw [fixedByOne] at h
    rw [equalitiesOne]
    cases hcompound : e.compound? name with
    | none => exact nofun
    | some group =>
      rw [hcompound] at h
      obtain ⟨part, hpart, -⟩ := Except.bind_eq_ok.1 h
      exact literals_of_fixedBy f hpart

end

end Entity

end RelationalStore

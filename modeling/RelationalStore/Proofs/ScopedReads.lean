import RelationalStore.Engine.Request
import RelationalStore.Proofs.OperationTriple

/- A reading stays in scope: it does not fail for want of a table as long as the tables that the
   walk of `Engine.Scope` finds are there. The walk follows the syntax alone, so each function of
   the evaluation has one lemma here, whose hypothesis is that function's own part of the walk; the
   recursion of the lemmas is that of the functions. -/
namespace RelationalStore

/-- Any error but that a table is not part of the transaction. -/
def Error.InScope (e : Error) : Prop := ∀ table, e ≠ .tableNotInScope table

/-- The transaction has the table, and the table exists. -/
def Transaction.Sees (tx : Transaction) (tables : Tables) (name : String) : Prop :=
  name ∈ tx.scope ∧ (tables.get? name).isSome

namespace Transaction

theorem table_inScope {tx : Transaction} {tables : Tables} {name : String}
    (h : tx.Sees tables name) :
    Read.Yields (tx.table tables name) (fun t => tables.get? name = some t) Error.InScope := by
  obtain ⟨t, ht⟩ := Option.isSome_iff_exists.1 h.2
  unfold table
  refine .ite (fun _ => .error nofun) fun _ => .ite (fun _ => ?_) fun hout => ?_
  · rw [ht]
    exact .ok rfl
  · exact absurd (List.contains_iff_mem.2 h.1) hout

end Transaction

/-- The reading gives whatever it gives, and fails only within the scope. -/
abbrev Read.Scoped {α : Type} (r : Read α) : Prop := Yields r (fun _ => True) Error.InScope

open Read

theorem Read.scoped_mapM {α β : Type} {l : List β} {f : β → Read α}
    (hf : ∀ b ∈ l, Scoped (f b)) : Scoped (l.mapM f) :=
  (Yields.mapM hf).mono (fun _ _ => trivial) fun _ he => he

/-! ### Readings that look into no table -/

theorem Schema.scoped_require (s : Schema) (name : String) :
    Yields (s.require name) (fun e => s.entity? name = some e) Error.InScope := by
  unfold require
  cases h : s.entity? name with
  | none => exact .error nofun
  | some e => exact .ok rfl

namespace Entity
variable (e : Entity)

theorem scoped_requireField (name : String) : Scoped (e.requireField name) :=
  .elim (.error nofun) fun _ _ => .ok trivial

theorem scoped_requireRelation (name : String) :
    Yields (e.requireRelation name) (fun r => e.relation? name = some r) Error.InScope := by
  unfold requireRelation
  cases h : e.relation? name with
  | none => exact .error nofun
  | some r => exact .ok rfl

theorem scoped_coerceItem (f : FieldDef) (literal : Json) : Scoped (e.coerceItem f literal) := by
  unfold coerceItem
  cases f.kind.coerce literal with
  | ok v => exact .ok trivial
  | error cause => exact .error nofun

theorem scoped_coerce (f : FieldDef) (literal : Json) : Scoped (e.coerce f literal) := by
  unfold coerce
  refine .ite (fun _ => e.scoped_coerceItem f literal) fun _ => ?_
  cases literal.array? with
  | none => exact .error nofun
  | some items =>
    exact .andThen (scoped_mapM fun j _ => e.scoped_coerceItem f j) fun _ => .pure trivial

theorem scoped_allow (f : FieldDef) (allowed : Bool) (operator : String) :
    Scoped (e.allow f allowed operator) :=
  .ite (fun _ => .ok trivial) fun _ => .error nofun

theorem scoped_equalsLiteral (f : FieldDef) (value : Value) (mode : TextMode) (literal : Json) :
    Scoped (e.equalsLiteral f value mode literal) := by
  refine .bind (e.scoped_coerce f literal) fun expected _ => ?_
  refine .ite (fun _ => .pure trivial) fun _ => .ite (fun _ => ?_) fun _ => .pure trivial
  split <;> exact .pure trivial

theorem scoped_equalsAny (f : FieldDef) (value : Value) (mode : TextMode) (literals : List Json) :
    Scoped (e.equalsAny f value mode literals) :=
  .anyM fun literal _ => e.scoped_equalsLiteral f value mode literal

theorem scoped_within (f : FieldDef) (value : Value) (mode : TextMode) (operator : String)
    (accepted : Ordering → Bool) (bound : Option Json) :
    Scoped (e.within f value mode operator accepted bound) := by
  unfold within
  cases bound with
  | none => exact .ok trivial
  | some literal =>
    refine .and (e.scoped_allow f _ operator) ?_
    exact .bind (e.scoped_coerceItem f literal) fun _ _ => .pure trivial

theorem scoped_searched (f : FieldDef) (value : Value) (mode : TextMode) (operator : String)
    (hit : List Char → List Char → Bool) (needle : Option String) :
    Scoped (e.searched f value mode operator hit needle) := by
  unfold searched
  cases needle with
  | none => exact .ok trivial
  | some needle =>
    refine .and (e.scoped_allow f _ operator) ?_
    split <;> exact .ok trivial

theorem scoped_holds (f : FieldDef) (items : List Value) (literal : Json) :
    Scoped (e.holds f items literal) :=
  .bind (e.scoped_coerceItem f literal) fun _ _ => .pure trivial

theorem scoped_listTest (f : FieldDef) (value : Value) (has : Option Json)
    (hasEvery hasSome : Option (List Json)) (isEmpty : Option Bool) :
    Scoped (e.listTest f value has hasEvery hasSome isEmpty) := by
  refine .ite (fun _ => .ok trivial) fun _ => .and (e.scoped_allow f _ _) (.all ?_)
  simp only [List.mem_cons, List.not_mem_nil, or_false, forall_eq_or_imp, forall_eq]
  refine ⟨?_, ?_, ?_, .ok trivial⟩
  · exact .elim (.ok trivial) fun literal _ => e.scoped_holds f _ literal
  · exact .elim (.ok trivial) fun literals _ => .allM fun literal _ => e.scoped_holds f _ literal
  · exact .elim (.ok trivial) fun literals _ => .anyM fun literal _ => e.scoped_holds f _ literal

mutual

theorem scoped_passes (f : FieldDef) (value : Value) :
    ∀ test : ScalarTest, Scoped (e.passes f value test)
  | ⟨equals, exclusion, isIn, notIn, lt, lte, gt, gte, contains, startsWith, endsWith, mode, has,
      hasEvery, hasSome, isEmpty⟩ => by
    rw [passes.eq_def]
    refine .all ?_
    simp only [List.mem_cons, List.not_mem_nil, or_false, forall_eq_or_imp, forall_eq]
    refine ⟨e.scoped_allow f _ _, ?_, ?_, ?_, ?_, e.scoped_within .., e.scoped_within ..,
      e.scoped_within .., e.scoped_within .., e.scoped_searched .., e.scoped_searched ..,
      e.scoped_searched .., e.scoped_listTest ..⟩
    · exact .elim (.ok trivial) fun literal _ => e.scoped_equalsLiteral f value mode literal
    · match exclusion with
      | none => exact .ok trivial
      | some negation => exact .not (scoped_negated f value mode negation)
    · refine .elim (.ok trivial) fun literals _ => .and (e.scoped_allow f _ _) ?_
      exact .ite (fun _ => .ok trivial) fun _ => e.scoped_equalsAny f value mode literals
    · refine .elim (.ok trivial) fun literals _ => .and (e.scoped_allow f _ _) ?_
      exact .ite (fun _ => .ok trivial) fun _ => .not (e.scoped_equalsAny f value mode literals)

theorem scoped_negated (f : FieldDef) (value : Value) (mode : TextMode) :
    ∀ negation : Negation, Scoped (e.negated f value mode negation)
  | .literal literal => by
    rw [negated]
    exact e.scoped_equalsLiteral f value mode literal
  | .test test => by
    rw [negated]
    exact scoped_passes f value test

end

theorem scoped_meets (f : FieldDef) (value : Value) (c : Condition) : Scoped (e.meets f value c) := by
  cases c with
  | isNull => exact .ok trivial
  | equals literal => exact e.scoped_equalsLiteral f value .sensitive literal
  | scalar test => exact e.scoped_passes f value test
  | relation test => exact .error nofun
  | nested filter => exact .error nofun

/-- What a name stands for; a relation is the one of that name. -/
theorem scoped_subject (name : String) :
    Yields (e.subject name)
      (fun subject => (∀ r, subject = .relation r → e.relation? name = some r) ∧
        ∀ fields, subject = .compound fields → e.relation? name = none) Error.InScope := by
  unfold subject
  split
  · exact .ok ⟨nofun, nofun⟩
  · next r _ hr =>
    refine .ok ⟨fun r' h => ?_, nofun⟩
    cases h
    exact hr
  · next hr _ => exact .ok ⟨nofun, fun _ _ => hr⟩
  · exact .error nofun

end Entity

/-! ### Looking into tables -/

namespace View

/-- The transaction of the view has the table, and the table exists. -/
abbrev Sees (v : View) (name : String) : Prop := v.transaction.Sees v.tables name

variable {v : View} {e : Entity}

theorem scoped_table (h : v.Sees e.name) : Scoped (v.table e) :=
  (Transaction.table_inScope h).mono (fun _ _ => trivial) fun _ he => he

theorem scoped_rows (h : v.Sees e.name) : Scoped (v.rows e) :=
  .bind (scoped_table h) fun _ _ => .pure trivial

theorem scoped_row? (h : v.Sees e.name) (key : Key) : Scoped (v.row? e key) :=
  .bind (scoped_table h) fun _ _ => .pure trivial

theorem scoped_lookup (t : Table) (index : String) (value : Key) :
    Scoped (t.lookup index value) := by
  unfold Table.lookup
  split
  · exact .ok trivial
  · exact .error nofun

theorem scoped_rowsWhere (h : v.Sees e.name) (fields : List String) (key : Key) :
    Scoped (v.rowsWhere e fields key) := by
  refine .bind (scoped_table h) fun t _ => .ite (fun _ => .pure trivial) fun _ => ?_
  split
  · exact scoped_lookup t _ key
  · exact .pure trivial

theorem scoped_relatedRows {r : Relation}
    (h : ∀ t, v.schema.entity? r.target = some t → v.Sees t.name) (row : Row) :
    Scoped (v.relatedRows r row) := by
  refine .ite (fun _ => .pure trivial) fun _ => ?_
  exact .bind (v.schema.scoped_require r.target) fun t ht => scoped_rowsWhere (h t ht) r.far _

/-! ### Filters -/

theorem target?_of_relation? {s : Schema} {name : String} {r : Relation}
    (hr : e.relation? name = some r) : s.target? e name = s.entity? r.target := by
  rw [Schema.target?, hr, Option.bind_some]

theorem scoped_plainTarget (r : Relation) :
    Yields (v.plainTarget e r) (fun t => v.schema.entity? r.target = some t) Error.InScope := by
  refine .bind (v.schema.scoped_require r.target) fun t ht => ?_
  exact .ite (fun _ => .error nofun) fun _ => .pure ht

theorem scoped_meetsPlainly {name : String}
    (h : ∀ n ∈ (v.schema.target? e name).toList.map (·.name), v.Sees n) (row : Row)
    (c : Condition) : Scoped (v.meetsPlainly e row name c) := by
  refine .bind (e.scoped_subject name) fun subject hsubject => ?_
  cases subject with
  | field f => exact e.scoped_meets f _ c
  | compound fields => exact .error nofun
  | relation r =>
    refine .bind (scoped_plainTarget r) fun _ _ => ?_
    split
    · refine .bind (scoped_relatedRows (fun t ht => h t.name ?_) row) fun _ _ => .pure trivial
      rw [target?_of_relation? (hsubject.1 r rfl), ht]
      simp
    · exact .error nofun

mutual

theorem scoped_lets (v : View) (e : Entity) (row : Row) : ∀ f : Filter,
    (∀ n ∈ v.schema.filterTables e f, v.Sees n) → Scoped (v.lets e row f)
  | ⟨conjuncts, alternatives, exclusions, conditions⟩, h => by
    rw [Schema.filterTables.eq_def] at h
    simp only [List.forall_mem_append] at h
    obtain ⟨⟨⟨hconditions, hconjuncts⟩, halternatives⟩, hexclusions⟩ := h
    rw [lets.eq_def]
    refine .all ?_
    simp only [List.mem_cons, List.not_mem_nil, or_false, forall_eq_or_imp, forall_eq]
    refine ⟨scoped_meetsAll v e row conditions hconditions,
      scoped_letsEach v e row conjuncts hconjuncts, ?_,
      .not (scoped_letsAny v e row exclusions hexclusions)⟩
    match alternatives with
    | none => exact .ok trivial
    | some filters => exact scoped_letsAny v e row filters halternatives

theorem scoped_letsEach (v : View) (e : Entity) (row : Row) : ∀ filters : List Filter,
    (∀ n ∈ v.schema.filtersTables e filters, v.Sees n) → Scoped (v.letsEach e row filters)
  | [], _ => .ok trivial
  | f :: rest, h => by
    simp only [Schema.filtersTables, List.forall_mem_append] at h
    rw [letsEach]
    exact .and (scoped_lets v e row f h.1) (scoped_letsEach v e row rest h.2)

theorem scoped_letsAny (v : View) (e : Entity) (row : Row) : ∀ filters : List Filter,
    (∀ n ∈ v.schema.filtersTables e filters, v.Sees n) → Scoped (v.letsAny e row filters)
  | [], _ => .ok trivial
  | f :: rest, h => by
    simp only [Schema.filtersTables, List.forall_mem_append] at h
    rw [letsAny]
    refine .bind (scoped_lets v e row f h.1) fun _ _ => ?_
    exact .ite (fun _ => .pure trivial) fun _ => scoped_letsAny v e row rest h.2

theorem scoped_meetsAll (v : View) (e : Entity) (row : Row) :
    ∀ conditions : List (String × Condition),
    (∀ n ∈ v.schema.conditionTables e conditions, v.Sees n) → Scoped (v.meetsAll e row conditions)
  | [], _ => .ok trivial
  | (name, c) :: rest, h => by
    simp only [Schema.conditionTables, List.forall_mem_append] at h
    rw [meetsAll]
    exact .and (scoped_meetsOne v e row name c h.1) (scoped_meetsAll v e row rest h.2)

theorem scoped_meetsOne (v : View) (e : Entity) (row : Row) (name : String) : ∀ c : Condition,
    (∀ n ∈ v.schema.oneConditionTables e (v.schema.target? e name) c, v.Sees n) →
      Scoped (v.meetsOne e row name c)
  | .nested f, h => by
    rw [meetsOne]
    refine .bind (e.scoped_subject name) fun subject hsubject => ?_
    cases subject with
    | field _ => exact .error nofun
    | compound fields =>
      -- The fields of a compound selector are those of the entity itself.
      have htarget : v.schema.target? e name = none := by
        rw [Schema.target?, hsubject.2 fields rfl, Option.bind_none]
      rw [htarget] at h
      exact scoped_lets v e row f h
    | relation r =>
      rw [target?_of_relation? (hsubject.1 r rfl)] at h
      refine .bind (scoped_plainTarget r) fun target htarget => ?_
      rw [htarget] at h
      simp only [Schema.oneConditionTables, List.mem_cons, forall_eq_or_imp] at h
      refine .bind (scoped_relatedRows (fun t ht => ?_) row) fun related _ => ?_
      · cases htarget.symm.trans ht
        exact h.1
      · exact .anyM fun row _ => scoped_lets v target row f h.2
  | .relation test, h => by
    rw [meetsOne]
    refine .bind (e.scoped_subject name) fun subject hsubject => ?_
    cases subject with
    | field _ => exact .error nofun
    | compound _ => exact .error nofun
    | relation r =>
      rw [target?_of_relation? (hsubject.1 r rfl)] at h
      refine scoped_meetsTest v e r row test fun target htarget => ?_
      rw [htarget] at h
      simpa only [Schema.oneConditionTables, List.mem_cons, forall_eq_or_imp] using h
  | .isNull, h => by
    rw [meetsOne]
    exact scoped_meetsPlainly h row .isNull
  | .equals literal, h => by
    rw [meetsOne]
    exact scoped_meetsPlainly h row (.equals literal)
  | .scalar test, h => by
    rw [meetsOne]
    exact scoped_meetsPlainly h row (.scalar test)

theorem scoped_meetsTest (v : View) (e : Entity) (r : Relation) (row : Row) :
    ∀ test : RelationTest,
    (∀ t, v.schema.entity? r.target = some t →
      v.Sees t.name ∧ ∀ n ∈ v.schema.testTables t test, v.Sees n) →
      Scoped (v.meetsTest e r row test)
  | ⟨is, isNot, every, someOf, noneOf⟩, h => by
    have hrelated : ∀ t, v.schema.entity? r.target = some t → v.Sees t.name :=
      fun t ht => (h t ht).1
    rw [meetsTest.eq_def]
    refine .bind (v.schema.scoped_require r.target) fun target htarget => ?_
    have htest := (h target htarget).2
    simp only [Schema.testTables, List.forall_mem_append] at htest
    obtain ⟨⟨⟨⟨his, hisNot⟩, hevery⟩, hsome⟩, hnone⟩ := htest
    refine .ite (fun _ => .ite (fun _ => .error nofun) fun _ => ?_) fun _ =>
      .ite (fun _ => .error nofun) fun _ => ?_
    · refine .bind (scoped_relatedRows hrelated row) fun related _ => .all ?_
      simp only [List.mem_cons, List.not_mem_nil, or_false, forall_eq_or_imp, forall_eq]
      refine ⟨?_, ?_, ?_⟩
      · match every with
        | none => exact .ok trivial
        | some f => exact .allM fun row _ => scoped_lets v target row f hevery
      · match someOf with
        | none => exact .ok trivial
        | some f => exact .anyM fun row _ => scoped_lets v target row f hsome
      · match noneOf with
        | none => exact .ok trivial
        | some f => exact .not (.anyM fun row _ => scoped_lets v target row f hnone)
    · refine .bind (scoped_relatedRows hrelated row) fun related _ => .all ?_
      simp only [List.mem_cons, List.not_mem_nil, or_false, forall_eq_or_imp, forall_eq]
      refine ⟨?_, ?_⟩
      · match is with
        | none => exact .ok trivial
        | some wanted => exact scoped_meetsTarget v target related wanted his
      · match isNot with
        | none => exact .ok trivial
        | some unwanted => exact .not (scoped_meetsTarget v target related unwanted hisNot)

theorem scoped_meetsTarget (v : View) (target : Entity) (related : List Row) :
    ∀ wanted : RelationTarget,
    (∀ n ∈ v.schema.relationTargetTables target wanted, v.Sees n) →
      Scoped (v.meetsTarget target related wanted)
  | .absent, _ => .ok trivial
  | .passing f, h => by
    rw [meetsTarget]
    exact .anyM fun row _ => scoped_lets v target row f h

end

theorem scoped_select {f : Filter} (h : ∀ n ∈ v.schema.filterTables e f, v.Sees n)
    (rows : List Row) : Scoped (v.select e rows f) :=
  (Yields.filterM fun row _ => scoped_lets v e row f h).mono (fun _ _ => trivial) fun _ he => he

end View

end RelationalStore

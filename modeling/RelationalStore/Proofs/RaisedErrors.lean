import RelationalStore.Engine.Request
import RelationalStore.Proofs.OperationTriple

/- Which errors a reading raises. There are few of them (`Error.OfReading`), and that a field is
   unknown is said only of a name which the query gives to an entity without such a field or
   relation. These names are found without a look at any row (`Schema.misnames`), by a walk that is
   made like the one of `Engine.Scope`; so a query whose names all stand for something is never
   refused for its names, whatever the tables hold. Each function of the evaluation has one lemma,
   whose hypothesis is about the names in that function's own part of the query. -/
namespace RelationalStore
open Read

/-- What a reading fails with; `Miss` is asked of each name that it says is unknown, with the entity
that was looked through. -/
inductive Error.OfReading (Miss : String × String → Prop) : Error → Prop where
  | inactive : OfReading Miss .transactionInactive
  | outOfScope (table : String) : OfReading Miss (.tableNotInScope table)
  | noIndex (table index : String) : OfReading Miss (.indexNotFound table index)
  | noEntity (name : String) : OfReading Miss (.unknownEntity name)
  | misnamed {entity name : String} (h : Miss (entity, name)) :
    OfReading Miss (.unknownField entity name)
  | query (fault : QueryFault) : OfReading Miss (.invalidQuery fault)
  | value (entity field : String) (fault : ValueFault) :
    OfReading Miss (.invalidValue entity field fault)
  | notFound (entity : String) : OfReading Miss (.recordNotFound entity)

namespace Schema
variable (s : Schema)

/-! ### Names that stand for nothing -/

mutual

/-- The names in a filter that stand for nothing, each with the entity that it is said of. -/
def filterMisnames (e : Entity) : Filter → List (String × String)
  | ⟨conjuncts, alternatives, exclusions, conditions⟩ =>
    conditionsMisnames e conditions ++ filtersMisnames e conjuncts ++
      (match alternatives with
        | none => []
        | some filters => filtersMisnames e filters) ++
      filtersMisnames e exclusions

def filtersMisnames (e : Entity) : List Filter → List (String × String)
  | [] => []
  | f :: rest => filterMisnames e f ++ filtersMisnames e rest

def conditionsMisnames (e : Entity) : List (String × Condition) → List (String × String)
  | [] => []
  | (name, c) :: rest =>
    (match e.subject name with
      | .error _ => [(e.name, name)]
      | .ok subject => conditionMisnames e subject c) ++ conditionsMisnames e rest

/-- The names within a condition on what a name stands for. -/
def conditionMisnames (e : Entity) (subject : Entity.Subject) : Condition → List (String × String)
  | .nested f =>
    match subject with
    | .field _ => []
    | .compound _ => filterMisnames e f
    | .relation r =>
      match s.entity? r.target with
      | some t => filterMisnames t f
      | none => []
  | .relation test =>
    match subject with
    | .relation r =>
      match s.entity? r.target with
      | some t => testMisnames t test
      | none => []
    | _ => []
  | .isNull => []
  | .equals _ => []
  | .scalar _ => []

def testMisnames (e : Entity) : RelationTest → List (String × String)
  | ⟨is, isNot, every, someOf, noneOf⟩ =>
    relatedMisnames e is ++ relatedMisnames e isNot ++ innerMisnames e every ++
      innerMisnames e someOf ++ innerMisnames e noneOf

def relatedMisnames (e : Entity) : Option RelationTarget → List (String × String)
  | none => []
  | some t => relationTargetMisnames e t

def relationTargetMisnames (e : Entity) : RelationTarget → List (String × String)
  | .absent => []
  | .passing f => filterMisnames e f

def innerMisnames (e : Entity) : Option Filter → List (String × String)
  | none => []
  | some f => filterMisnames e f

end

mutual

/-- The names in an order that stand for nothing. -/
def orderMisnames (e : Entity) : List OrderBy → List (String × String)
  | [] => []
  | clause :: rest => clauseMisnames e clause ++ orderMisnames e rest

def clauseMisnames (e : Entity) : OrderBy → List (String × String)
  | ⟨name, key⟩ => keyMisnames e name key

def keyMisnames (e : Entity) (name : String) : OrderKey → List (String × String)
  | .scalar _ _ => if (e.field? name).isSome then [] else [(e.name, name)]
  | .count _ => if (e.relation? name).isSome then [] else [(e.name, name)]
  | .relation clauses =>
    match e.relation? name with
    | none => [(e.name, name)]
    | some r =>
      match s.entity? r.target with
      | some t => orderMisnames t clauses
      | none => []

end

/-- The names in a selection of counts that stand for no relation. -/
def countMisnames (e : Entity) : CountSelection → List (String × String)
  | .all => []
  | .relations entries => entries.flatMap fun (name, filter) =>
    match e.relation? name with
    | none => [(e.name, name)]
    | some r =>
      match s.entity? r.target with
      | some t => filter.elim [] (s.filterMisnames t)
      | none => []

/-- A name that is selected without more, if it stands for nothing. -/
def plainMisnames (e : Entity) (name : String) : List (String × String) :=
  if name = "_count" || (e.field? name).isSome || (e.relation? name).isSome then []
  else [(e.name, name)]

/-- The names that are to be distinct and stand for no field. -/
def distinctMisnames (e : Entity) (names : List String) : List (String × String) :=
  (names.filter fun name => (e.field? name).isNone).map (e.name, ·)

mutual

/-- The names in a query that stand for nothing, each with the entity that it is said of. An entry of
a selection that is `false` asks for nothing. -/
def misnames (e : Entity) : Query → List (String × String)
  | ⟨filter, order, select, load, _, _, distinct, _, _⟩ =>
    filter.elim [] (s.filterMisnames e) ++ s.orderMisnames e order ++ distinctMisnames e distinct ++
      selectionMisnames e select ++ selectionMisnames e load

def selectionMisnames (e : Entity) : Option (List (String × Selected)) → List (String × String)
  | none => []
  | some entries => entriesMisnames e entries

def entriesMisnames (e : Entity) : List (String × Selected) → List (String × String)
  | [] => []
  | (name, selected) :: rest => selectedMisnames e name selected ++ entriesMisnames e rest

def selectedMisnames (e : Entity) (name : String) : Selected → List (String × String)
  | .flag enabled => if enabled then plainMisnames e name else []
  | .count counts => if name = "_count" then s.countMisnames e counts else plainMisnames e name
  | .nested q =>
    if name = "_count" || (e.field? name).isSome then []
    else
      match e.relation? name with
      | none => [(e.name, name)]
      | some r =>
        match s.entity? r.target with
        | some t => misnames t q
        | none => []

end

end Schema

/-! ### Names and literals -/

/-- The reading gives whatever it gives, and fails for one of the reasons of a reading. -/
abbrev Read.Raises {α : Type} (Miss : String × String → Prop) (r : Read α) : Prop :=
  Yields r (fun _ => True) (Error.OfReading Miss)

variable {Miss : String × String → Prop}

theorem Read.raises_mapM {α β : Type} {l : List β} {f : β → Read α}
    (hf : ∀ b ∈ l, Raises Miss (f b)) : Raises Miss (l.mapM f) :=
  (Yields.mapM hf).mono (fun _ _ => trivial) fun _ he => he

theorem Schema.raises_require (s : Schema) (name : String) :
    Yields (s.require name) (fun e => s.entity? name = some e) (Error.OfReading Miss) := by
  unfold require
  cases h : s.entity? name with
  | none => exact .error (.noEntity name)
  | some e => exact .ok rfl

namespace Entity
variable (e : Entity)

theorem raises_requireField {name : String} (h : e.field? name = none → Miss (e.name, name)) :
    Raises Miss (e.requireField name) := by
  unfold requireField
  cases hf : e.field? name with
  | none => exact .error (.misnamed (h hf))
  | some f => exact .ok trivial

theorem raises_requireRelation {name : String}
    (h : e.relation? name = none → Miss (e.name, name)) :
    Yields (e.requireRelation name) (fun r => e.relation? name = some r)
      (Error.OfReading Miss) := by
  unfold requireRelation
  cases hr : e.relation? name with
  | none => exact .error (.misnamed (h hr))
  | some r => exact .ok rfl

theorem subject_error {name : String} {err : Error} (h : e.subject name = .error err) :
    err = .unknownField e.name name := by
  unfold subject at h
  split at h <;> first | cases h; rfl | cases h

theorem raises_subject {name : String}
    (h : ∀ err, e.subject name = .error err → Miss (e.name, name)) :
    Yields (e.subject name) (fun subject => e.subject name = .ok subject)
      (Error.OfReading Miss) := by
  refine .of_ok (fun subject hs => hs) fun err herr => ?_
  rw [e.subject_error herr]
  exact .misnamed (h err herr)

theorem raises_coerceItem (f : FieldDef) (literal : Json) :
    Raises Miss (e.coerceItem f literal) := by
  unfold coerceItem
  cases f.kind.coerce literal with
  | ok v => exact .ok trivial
  | error cause => exact .error (.value _ _ _)

theorem raises_coerce (f : FieldDef) (literal : Json) : Raises Miss (e.coerce f literal) := by
  unfold coerce
  refine .ite (fun _ => e.raises_coerceItem f literal) fun _ => ?_
  cases literal.array? with
  | none => exact .error (.value _ _ _)
  | some items =>
    exact .andThen (raises_mapM fun j _ => e.raises_coerceItem f j) fun _ => .pure trivial

/-! ### Conditions on fields -/

theorem raises_allow (f : FieldDef) (allowed : Bool) (operator : String) :
    Raises Miss (e.allow f allowed operator) :=
  .ite (fun _ => .ok trivial) fun _ => .error (.query _)

theorem raises_equalsLiteral (f : FieldDef) (value : Value) (mode : TextMode) (literal : Json) :
    Raises Miss (e.equalsLiteral f value mode literal) := by
  refine .andThen (e.raises_coerce f literal) fun expected => ?_
  refine .ite (fun _ => .pure trivial) fun _ => .ite (fun _ => ?_) fun _ => .pure trivial
  split <;> exact .pure trivial

theorem raises_equalsAny (f : FieldDef) (value : Value) (mode : TextMode) (literals : List Json) :
    Raises Miss (e.equalsAny f value mode literals) :=
  .anyM fun literal _ => e.raises_equalsLiteral f value mode literal

theorem raises_within (f : FieldDef) (value : Value) (mode : TextMode) (operator : String)
    (accepted : Ordering → Bool) (bound : Option Json) :
    Raises Miss (e.within f value mode operator accepted bound) := by
  unfold within
  cases bound with
  | none => exact .ok trivial
  | some literal =>
    refine .and (e.raises_allow f _ operator) ?_
    exact .andThen (e.raises_coerceItem f literal) fun _ => .pure trivial

theorem raises_searched (f : FieldDef) (value : Value) (mode : TextMode) (operator : String)
    (hit : List Char → List Char → Bool) (needle : Option String) :
    Raises Miss (e.searched f value mode operator hit needle) := by
  unfold searched
  cases needle with
  | none => exact .ok trivial
  | some needle =>
    refine .and (e.raises_allow f _ operator) ?_
    split <;> exact .ok trivial

theorem raises_holds (f : FieldDef) (items : List Value) (literal : Json) :
    Raises Miss (e.holds f items literal) :=
  .andThen (e.raises_coerceItem f literal) fun _ => .pure trivial

theorem raises_listTest (f : FieldDef) (value : Value) (has : Option Json)
    (hasEvery hasSome : Option (List Json)) (isEmpty : Option Bool) :
    Raises Miss (e.listTest f value has hasEvery hasSome isEmpty) := by
  refine .ite (fun _ => .ok trivial) fun _ => .and (e.raises_allow f _ _) (.all ?_)
  simp only [List.mem_cons, List.not_mem_nil, or_false, forall_eq_or_imp, forall_eq]
  refine ⟨?_, ?_, ?_, .ok trivial⟩
  · exact .elim (.ok trivial) fun literal _ => e.raises_holds f _ literal
  · exact .elim (.ok trivial) fun literals _ => .allM fun literal _ => e.raises_holds f _ literal
  · exact .elim (.ok trivial) fun literals _ => .anyM fun literal _ => e.raises_holds f _ literal

mutual

theorem raises_passes (f : FieldDef) (value : Value) :
    ∀ test : ScalarTest, Raises Miss (e.passes f value test)
  | ⟨equals, exclusion, isIn, notIn, lt, lte, gt, gte, contains, startsWith, endsWith, mode, has,
      hasEvery, hasSome, isEmpty⟩ => by
    rw [passes.eq_def]
    refine .all ?_
    simp only [List.mem_cons, List.not_mem_nil, or_false, forall_eq_or_imp, forall_eq]
    refine ⟨e.raises_allow f _ _, ?_, ?_, ?_, ?_, e.raises_within .., e.raises_within ..,
      e.raises_within .., e.raises_within .., e.raises_searched .., e.raises_searched ..,
      e.raises_searched .., e.raises_listTest ..⟩
    · exact .elim (.ok trivial) fun literal _ => e.raises_equalsLiteral f value mode literal
    · match exclusion with
      | none => exact .ok trivial
      | some negation => exact .not (raises_negated f value mode negation)
    · refine .elim (.ok trivial) fun literals _ => .and (e.raises_allow f _ _) ?_
      exact .ite (fun _ => .ok trivial) fun _ => e.raises_equalsAny f value mode literals
    · refine .elim (.ok trivial) fun literals _ => .and (e.raises_allow f _ _) ?_
      exact .ite (fun _ => .ok trivial) fun _ => .not (e.raises_equalsAny f value mode literals)

theorem raises_negated (f : FieldDef) (value : Value) (mode : TextMode) :
    ∀ negation : Negation, Raises Miss (e.negated f value mode negation)
  | .literal literal => by
    rw [negated]
    exact e.raises_equalsLiteral f value mode literal
  | .test test => by
    rw [negated]
    exact raises_passes f value test

end

theorem raises_meets (f : FieldDef) (value : Value) (c : Condition) :
    Raises Miss (e.meets f value c) := by
  cases c with
  | isNull => exact .ok trivial
  | equals literal => exact e.raises_equalsLiteral f value .sensitive literal
  | scalar test => exact e.raises_passes f value test
  | relation test => exact .error (.query _)
  | nested filter => exact .error (.query _)

end Entity

/-! ### Looking into tables -/

namespace View
variable {v : View} {e : Entity}

theorem raises_table (v : View) (e : Entity) : Raises Miss (v.table e) := by
  unfold View.table Transaction.table
  refine .ite (fun _ => .error .inactive) fun _ => .ite (fun _ => ?_) fun _ => .error (.outOfScope _)
  exact .elim (.error (.outOfScope _)) fun _ _ => .ok trivial

theorem raises_rows (v : View) (e : Entity) : Raises Miss (v.rows e) :=
  .andThen (raises_table v e) fun _ => .pure trivial

theorem raises_row? (v : View) (e : Entity) (key : Key) : Raises Miss (v.row? e key) :=
  .andThen (raises_table v e) fun _ => .pure trivial

theorem raises_lookup (t : Table) (index : String) (value : Key) :
    Raises Miss (t.lookup index value) := by
  unfold Table.lookup
  split
  · exact .ok trivial
  · exact .error (.noIndex _ _)

theorem raises_rowsWhere (v : View) (e : Entity) (fields : List String) (key : Key) :
    Raises Miss (v.rowsWhere e fields key) := by
  refine .andThen (raises_table v e) fun t => .ite (fun _ => .pure trivial) fun _ => ?_
  split
  · exact raises_lookup t _ key
  · exact .pure trivial

theorem raises_relatedRows (v : View) (r : Relation) (row : Row) :
    Raises Miss (v.relatedRows r row) := by
  refine .ite (fun _ => .pure trivial) fun _ => ?_
  exact .bind (v.schema.raises_require r.target) fun t _ => raises_rowsWhere v t r.far _

/-! ### Filters -/

theorem raises_plainTarget (v : View) (e : Entity) (r : Relation) :
    Yields (v.plainTarget e r) (fun t => v.schema.entity? r.target = some t)
      (Error.OfReading Miss) := by
  refine .bind (v.schema.raises_require r.target) fun t ht => ?_
  exact .ite (fun _ => .error (.query _)) fun _ => .pure ht

theorem raises_meetsPlainly (v : View) (e : Entity) (row : Row) {name : String}
    (h : ∀ err, e.subject name = .error err → Miss (e.name, name)) (c : Condition) :
    Raises Miss (v.meetsPlainly e row name c) := by
  refine .bind (e.raises_subject h) fun subject _ => ?_
  cases subject with
  | field f => exact e.raises_meets f _ c
  | compound fields => exact .error (.query _)
  | relation r =>
    refine .bind (raises_plainTarget v e r) fun _ _ => ?_
    split
    · exact .andThen (raises_relatedRows v r row) fun _ => .pure trivial
    · exact .error (.query _)

mutual

theorem raises_lets (v : View) (e : Entity) (row : Row) : ∀ f : Filter,
    (∀ p ∈ v.schema.filterMisnames e f, Miss p) → Raises Miss (v.lets e row f)
  | ⟨conjuncts, alternatives, exclusions, conditions⟩, h => by
    rw [Schema.filterMisnames.eq_def] at h
    simp only [List.forall_mem_append] at h
    obtain ⟨⟨⟨hconditions, hconjuncts⟩, halternatives⟩, hexclusions⟩ := h
    rw [lets.eq_def]
    refine .all ?_
    simp only [List.mem_cons, List.not_mem_nil, or_false, forall_eq_or_imp, forall_eq]
    refine ⟨raises_meetsAll v e row conditions hconditions,
      raises_letsEach v e row conjuncts hconjuncts, ?_,
      .not (raises_letsAny v e row exclusions hexclusions)⟩
    match alternatives with
    | none => exact .ok trivial
    | some filters => exact raises_letsAny v e row filters halternatives

theorem raises_letsEach (v : View) (e : Entity) (row : Row) : ∀ filters : List Filter,
    (∀ p ∈ v.schema.filtersMisnames e filters, Miss p) → Raises Miss (v.letsEach e row filters)
  | [], _ => .ok trivial
  | f :: rest, h => by
    simp only [Schema.filtersMisnames, List.forall_mem_append] at h
    rw [letsEach]
    exact .and (raises_lets v e row f h.1) (raises_letsEach v e row rest h.2)

theorem raises_letsAny (v : View) (e : Entity) (row : Row) : ∀ filters : List Filter,
    (∀ p ∈ v.schema.filtersMisnames e filters, Miss p) → Raises Miss (v.letsAny e row filters)
  | [], _ => .ok trivial
  | f :: rest, h => by
    simp only [Schema.filtersMisnames, List.forall_mem_append] at h
    rw [letsAny]
    refine .andThen (raises_lets v e row f h.1) fun _ => ?_
    exact .ite (fun _ => .pure trivial) fun _ => raises_letsAny v e row rest h.2

theorem raises_meetsAll (v : View) (e : Entity) (row : Row) :
    ∀ conditions : List (String × Condition),
    (∀ p ∈ v.schema.conditionsMisnames e conditions, Miss p) →
      Raises Miss (v.meetsAll e row conditions)
  | [], _ => .ok trivial
  | (name, c) :: rest, h => by
    simp only [Schema.conditionsMisnames, List.forall_mem_append] at h
    rw [meetsAll]
    refine .and (raises_meetsOne v e row name c ?_ ?_) (raises_meetsAll v e row rest h.2)
    · intro err herr
      exact h.1 _ (by simp [herr])
    · intro subject hsubject p hp
      exact h.1 p (by simpa [hsubject] using hp)

theorem raises_meetsOne (v : View) (e : Entity) (row : Row) (name : String) : ∀ c : Condition,
    (∀ err, e.subject name = .error err → Miss (e.name, name)) →
    (∀ subject, e.subject name = .ok subject →
      ∀ p ∈ v.schema.conditionMisnames e subject c, Miss p) →
    Raises Miss (v.meetsOne e row name c)
  | .nested f, hname, h => by
    rw [meetsOne]
    refine .bind (e.raises_subject hname) fun subject hsubject => ?_
    have h := h subject hsubject
    cases subject with
    | field _ => exact .error (.query _)
    | compound fields => exact raises_lets v e row f h
    | relation r =>
      refine .bind (raises_plainTarget v e r) fun target htarget => ?_
      simp only [Schema.conditionMisnames, htarget] at h
      refine .andThen (raises_relatedRows v r row) fun related => ?_
      exact .anyM fun row _ => raises_lets v target row f h
  | .relation test, hname, h => by
    rw [meetsOne]
    refine .bind (e.raises_subject hname) fun subject hsubject => ?_
    have h := h subject hsubject
    cases subject with
    | field _ => exact .error (.query _)
    | compound _ => exact .error (.query _)
    | relation r =>
      refine raises_meetsTest v e r row test fun target htarget => ?_
      simpa only [Schema.conditionMisnames, htarget] using h
  | .isNull, hname, _ => by
    rw [meetsOne]
    exact raises_meetsPlainly v e row hname .isNull
  | .equals literal, hname, _ => by
    rw [meetsOne]
    exact raises_meetsPlainly v e row hname (.equals literal)
  | .scalar test, hname, _ => by
    rw [meetsOne]
    exact raises_meetsPlainly v e row hname (.scalar test)

theorem raises_meetsTest (v : View) (e : Entity) (r : Relation) (row : Row) :
    ∀ test : RelationTest,
    (∀ t, v.schema.entity? r.target = some t → ∀ p ∈ v.schema.testMisnames t test, Miss p) →
      Raises Miss (v.meetsTest e r row test)
  | ⟨is, isNot, every, someOf, noneOf⟩, h => by
    rw [meetsTest.eq_def]
    refine .bind (v.schema.raises_require r.target) fun target htarget => ?_
    have htest := h target htarget
    simp only [Schema.testMisnames, List.forall_mem_append] at htest
    obtain ⟨⟨⟨⟨his, hisNot⟩, hevery⟩, hsome⟩, hnone⟩ := htest
    refine .ite (fun _ => .ite (fun _ => .error (.query _)) fun _ => ?_) fun _ =>
      .ite (fun _ => .error (.query _)) fun _ => ?_
    · refine .andThen (raises_relatedRows v r row) fun related => .all ?_
      simp only [List.mem_cons, List.not_mem_nil, or_false, forall_eq_or_imp, forall_eq]
      refine ⟨?_, ?_, ?_⟩
      · match every with
        | none => exact .ok trivial
        | some f => exact .allM fun row _ => raises_lets v target row f hevery
      · match someOf with
        | none => exact .ok trivial
        | some f => exact .anyM fun row _ => raises_lets v target row f hsome
      · match noneOf with
        | none => exact .ok trivial
        | some f => exact .not (.anyM fun row _ => raises_lets v target row f hnone)
    · refine .andThen (raises_relatedRows v r row) fun related => .all ?_
      simp only [List.mem_cons, List.not_mem_nil, or_false, forall_eq_or_imp, forall_eq]
      refine ⟨?_, ?_⟩
      · match is with
        | none => exact .ok trivial
        | some wanted => exact raises_meetsTarget v target related wanted his
      · match isNot with
        | none => exact .ok trivial
        | some unwanted => exact .not (raises_meetsTarget v target related unwanted hisNot)

theorem raises_meetsTarget (v : View) (target : Entity) (related : List Row) :
    ∀ wanted : RelationTarget,
    (∀ p ∈ v.schema.relationTargetMisnames target wanted, Miss p) →
      Raises Miss (v.meetsTarget target related wanted)
  | .absent, _ => .ok trivial
  | .passing f, h => by
    rw [meetsTarget]
    exact .anyM fun row _ => raises_lets v target row f h

end

theorem raises_select {f : Filter} (h : ∀ p ∈ v.schema.filterMisnames e f, Miss p)
    (rows : List Row) : Raises Miss (v.select e rows f) :=
  (Yields.filterM fun row _ => raises_lets v e row f h).mono (fun _ _ => trivial) fun _ he => he

/-! ### Orders -/

mutual

theorem raises_sortKeys (v : View) (e : Entity) (row : Option Row) : ∀ clauses : List OrderBy,
    (∀ p ∈ v.schema.orderMisnames e clauses, Miss p) → Raises Miss (v.sortKeys e row clauses)
  | [], _ => .ok trivial
  | clause :: rest, h => by
    simp only [Schema.orderMisnames, List.forall_mem_append] at h
    rw [sortKeys]
    refine .andThen (raises_clauseKeys v e row clause h.1) fun _ => ?_
    exact .andThen (raises_sortKeys v e row rest h.2) fun _ => .pure trivial

theorem raises_clauseKeys (v : View) (e : Entity) (row : Option Row) : ∀ clause : OrderBy,
    (∀ p ∈ v.schema.clauseMisnames e clause, Miss p) → Raises Miss (v.clauseKeys e row clause)
  | ⟨name, key⟩, h => raises_leafKeys v e row name key h

theorem raises_leafKeys (v : View) (e : Entity) (row : Option Row) (name : String) :
    ∀ key : OrderKey, (∀ p ∈ v.schema.keyMisnames e name key, Miss p) →
      Raises Miss (v.leafKeys e row name key)
  | .scalar direction nulls, h => by
    rw [leafKeys]
    refine .andThen (e.raises_requireField fun hf => h _ ?_) fun f => ?_
    · simp [Schema.keyMisnames, hf]
    · exact .ite (fun _ => .error (.query _)) fun _ => .pure trivial
  | .count direction, h => by
    rw [leafKeys]
    refine .bind (e.raises_requireRelation fun hr => h _ ?_) fun r _ => ?_
    · simp [Schema.keyMisnames, hr]
    · refine .ite (fun _ => .error (.query _)) fun _ => .andThen ?_ fun _ => .pure trivial
      cases row with
      | none => exact .ok trivial
      | some row => exact .andThen (raises_relatedRows v r row) fun _ => .pure trivial
  | .relation clauses, h => by
    rw [leafKeys]
    refine .bind (e.raises_requireRelation fun hr => h _ ?_) fun r hr => ?_
    · simp [Schema.keyMisnames, hr]
    · refine .ite (fun _ => .error (.query _)) fun _ => ?_
      refine .bind (v.schema.raises_require r.target) fun target htarget => ?_
      simp only [Schema.keyMisnames, hr, htarget] at h
      refine .andThen ?_ fun related => raises_sortKeys v target related clauses h
      cases row with
      | none => exact .ok trivial
      | some row => exact .andThen (raises_relatedRows v r row) fun _ => .pure trivial

end

theorem raises_sort {order : List OrderBy} (h : ∀ p ∈ v.schema.orderMisnames e order, Miss p)
    (rows : List Row) : Raises Miss (v.sort e order rows) :=
  .andThen (raises_mapM fun row _ =>
    .andThen (raises_sortKeys v e (some row) order h) fun _ => .pure trivial) fun _ => .pure trivial

/-! ### Finding rows -/

/-- The misnames of the parts of a query. -/
theorem forall_misnames {s : Schema} {e : Entity} {q : Query} :
    (∀ p ∈ s.misnames e q, Miss p) ↔
      (((((∀ f ∈ q.filter, ∀ p ∈ s.filterMisnames e f, Miss p) ∧
        ∀ p ∈ s.orderMisnames e q.order, Miss p) ∧
        ∀ p ∈ Schema.distinctMisnames e q.distinct, Miss p) ∧
        ∀ p ∈ s.selectionMisnames e q.select, Miss p) ∧
        ∀ p ∈ s.selectionMisnames e q.load, Miss p) := by
  obtain ⟨filter, order, select, load, take, skip, distinct, data, skipDuplicates⟩ := q
  simp only [Schema.misnames, List.forall_mem_append]
  cases filter <;> simp

theorem raises_distinct {names : List String}
    (h : ∀ p ∈ Schema.distinctMisnames e names, Miss p) :
    Raises Miss (names.forM fun field => discard (e.requireField field)) := by
  refine .forM fun field hfield => .andThen (e.raises_requireField fun hf => h _ ?_) fun _ =>
    .pure trivial
  exact List.mem_map_of_mem (List.mem_filter.2 ⟨hfield, by rw [hf]; rfl⟩)

theorem raises_readRows {q : Query} (hfilter : ∀ f ∈ q.filter, ∀ p ∈ v.schema.filterMisnames e f, Miss p)
    (horder : ∀ p ∈ v.schema.orderMisnames e q.order, Miss p)
    (hdistinct : ∀ p ∈ Schema.distinctMisnames e q.distinct, Miss p) (rows : List Row) :
    Raises Miss (v.readRows e q rows) := by
  unfold readRows
  cases hf : q.filter
  case' some f => refine .andThen (raises_select (hfilter f hf) rows) fun _ => ?_
  case' none => refine .andThen (.pure trivial) fun _ => ?_
  all_goals
    refine .andThen (raises_sort horder _) fun _ => ?_
    exact .andThen (raises_distinct hdistinct) fun _ => .pure trivial

end View

namespace Entity
variable (e : Entity)

theorem raises_fix (fixed : SortedMap String Value) (name : String) (literal : Json) :
    Raises Miss (e.fix fixed name literal) := by
  unfold fix
  split
  · next f _ =>
    refine .ite (fun _ => .pure trivial) fun _ => ?_
    exact .andThen (e.raises_coerce f literal) fun _ => .pure trivial
  · exact .ok trivial

mutual

theorem raises_fixedBy : ∀ f : Filter, Raises Miss (e.fixedBy f)
  | ⟨_, _, _, conditions⟩ => by
    rw [fixedBy]
    exact raises_fixedByAll ∅ conditions

theorem raises_fixedByAll (fixed : SortedMap String Value) :
    ∀ conditions : List (String × Condition), Raises Miss (e.fixedByAll fixed conditions)
  | [] => .ok trivial
  | (name, c) :: rest => by
    rw [fixedByAll]
    exact .andThen (raises_fixedByOne fixed name c) fun fixed => raises_fixedByAll fixed rest

theorem raises_fixedByOne (fixed : SortedMap String Value) (name : String) :
    ∀ c : Condition, Raises Miss (e.fixedByOne fixed name c)
  | .equals literal => by
    rw [fixedByOne]
    exact e.raises_fix fixed name literal
  | .scalar test => by
    rw [fixedByOne]
    split
    · exact e.raises_fix fixed name _
    · exact .ok trivial
  | .nested f => by
    rw [fixedByOne]
    refine .ite (fun _ => .pure trivial) fun _ => ?_
    exact .andThen (raises_fixedBy f) fun _ => .pure trivial
  | .isNull => .ok trivial
  | .relation _ => .ok trivial

end

end Entity

namespace View
variable {v : View} {e : Entity}

theorem raises_findUnique {selector : Filter}
    (h : ∀ p ∈ v.schema.filterMisnames e selector, Miss p) :
    Raises Miss (v.findUnique e selector) := by
  refine .andThen (e.raises_fixedBy selector) fun fixed => ?_
  split
  · exact .error (.query _)
  · next group _ =>
    have hfound (candidates : List Row) :
        Raises Miss (candidates.findM? fun row => v.lets e row selector) :=
      (Yields.findM? fun row _ => raises_lets v e row selector h).mono (fun _ _ => trivial)
        fun _ he => he
    refine .ite (fun _ => ?_) fun _ => ?_
    · exact .andThen (raises_row? v e _) fun row => hfound row.toList
    · refine .andThen (raises_table v e) fun t => ?_
      exact .andThen (raises_lookup t _ _) hfound

/-! ### Selections -/

theorem raises_attachCount {r : Relation} {filter : Option Filter}
    (h : ∀ t, v.schema.entity? r.target = some t →
      ∀ f ∈ filter, ∀ p ∈ v.schema.filterMisnames t f, Miss p)
    (record : Record) : Raises Miss (v.attachCount e record (r, filter)) := by
  refine .ite (fun _ => .error (.query _)) fun _ => ?_
  refine .andThen (raises_relatedRows v r record.fields) fun rows => ?_
  split
  · exact .pure trivial
  · next f =>
    refine .bind (v.schema.raises_require r.target) fun target htarget => ?_
    exact .andThen (raises_select (h target htarget f rfl) rows) fun _ => .pure trivial

theorem raises_attachCounts {counts : CountSelection}
    (h : ∀ p ∈ v.schema.countMisnames e counts, Miss p) (record : Record) :
    Raises Miss (v.attachCounts e record counts) := by
  have hattach (wanted : List (Relation × Option Filter))
      (hwanted : ∀ p ∈ wanted, ∀ t, v.schema.entity? p.1.target = some t →
        ∀ f ∈ p.2, ∀ m ∈ v.schema.filterMisnames t f, Miss m) :
      Raises Miss (wanted.foldlM (v.attachCount e) record) :=
    .foldlM trivial fun record _ p hp => raises_attachCount (hwanted p hp) record
  cases counts with
  | all =>
    refine hattach _ fun p hp t ht => ?_
    obtain ⟨r, hr, rfl⟩ := List.mem_map.1 hp
    nofun
  | relations entries =>
    have hentry (name : String) (filter : Option Filter) (hmem : (name, filter) ∈ entries)
        (p : String × String) (hp : p ∈ (match e.relation? name with
          | none => [(e.name, name)]
          | some r =>
            match v.schema.entity? r.target with
            | some t => filter.elim [] (v.schema.filterMisnames t)
            | none => [])) : Miss p :=
      h p (List.mem_flatMap.2 ⟨(name, filter), hmem, hp⟩)
    refine .bind (.mapM fun (name, filter) hmem => ?_) hattach
    refine .bind (e.raises_requireRelation fun hr => hentry name filter hmem _ ?_) fun r hr => ?_
    · simp [hr]
    · refine .pure fun t ht f hf p hp => hentry name filter hmem p ?_
      simp only [hr, ht]
      rw [show filter = some f from hf]
      exact hp

theorem raises_attachPlainly {name : String} (h : ∀ p ∈ Schema.plainMisnames e name, Miss p)
    (record : Record) : Raises Miss (v.attachPlainly e record name) := by
  refine .ite (fun _ => .error (.query _)) fun hcount => .ite (fun _ => .pure trivial) fun hfield => ?_
  refine .bind (e.raises_requireRelation fun hr => h _ ?_) fun r _ => ?_
  · simp only [Bool.not_eq_true] at hfield
    simp [Schema.plainMisnames, hcount, hfield, hr]
  · refine .andThen (.andThen ((v.schema.raises_require r.target).mono (fun _ _ => trivial)
      fun _ he => he) fun _ => .pure trivial) fun _ => .ite (fun _ => .pure trivial) fun _ => ?_
    exact .andThen (raises_relatedRows v r record.fields) fun _ => .pure trivial

mutual

theorem raises_attach (v : View) (e : Entity) (rows : List Row) : ∀ q : Query,
    (∀ p ∈ v.schema.selectionMisnames e q.select, Miss p) →
    (∀ p ∈ v.schema.selectionMisnames e q.load, Miss p) → Raises Miss (v.attach e rows q)
  | ⟨_, _, none, none, _, _, _, _, _⟩, _, _ => .ok trivial
  | ⟨_, _, none, some load, _, _, _, _, _⟩, _, h => by
    rw [attach]
    exact raises_mapM fun row _ => raises_attachAll v e (.ofRow row) load h
  | ⟨_, _, some select, none, _, _, _, _, _⟩, h, _ => by
    rw [attach]
    refine .andThen (raises_mapM fun row _ => ?_) fun _ => .pure trivial
    exact raises_attachAll v e (.ofRow row) select h
  | ⟨_, _, some _, some _, _, _, _, _, _⟩, _, _ => .error (.query _)

theorem raises_attachAll (v : View) (e : Entity) (record : Record) :
    ∀ entries : List (String × Selected),
    (∀ p ∈ v.schema.entriesMisnames e entries, Miss p) → Raises Miss (v.attachAll e record entries)
  | [], _ => .ok trivial
  | (name, selected) :: rest, h => by
    simp only [Schema.entriesMisnames, List.forall_mem_append] at h
    rw [attachAll]
    refine .andThen (raises_attachOne v e record name selected h.1) fun record => ?_
    exact raises_attachAll v e record rest h.2

theorem raises_attachOne (v : View) (e : Entity) (record : Record) (name : String) :
    ∀ selected : Selected, (∀ p ∈ v.schema.selectedMisnames e name selected, Miss p) →
      Raises Miss (v.attachOne e record name selected)
  | .flag false, _ => .ok trivial
  | .flag true, h => by
    rw [attachOne]
    exact raises_attachPlainly h record
  | .count counts, h => by
    rw [Schema.selectedMisnames] at h
    rw [attachOne]
    refine .ite (fun hname => ?_) fun hname => ?_
    · rw [if_pos hname] at h
      exact raises_attachCounts h record
    · rw [if_neg hname] at h
      exact raises_attachPlainly h record
  | .nested q, h => by
    rw [attachOne]
    refine .ite (fun _ => .error (.query _)) fun hname => .ite (fun _ => .error (.query _)) fun hfield => ?_
    rw [Schema.selectedMisnames, if_neg (by simp [hname, hfield])] at h
    refine .bind (e.raises_requireRelation fun hr => h _ (by simp [hr])) fun r hr => ?_
    refine .bind (v.schema.raises_require r.target) fun target htarget => ?_
    simp only [hr, htarget] at h
    obtain ⟨⟨⟨⟨hfilter, horder⟩, hdistinct⟩, hselect⟩, hload⟩ := forall_misnames.1 h
    refine .ite (fun _ => .pure trivial) fun _ => ?_
    refine .andThen (raises_relatedRows v r record.fields) fun related => ?_
    refine .andThen (raises_readRows hfilter horder hdistinct related) fun rows => ?_
    exact .andThen (raises_attach v target rows q hselect hload) fun _ => .pure trivial

end

variable {q : Query} (h : ∀ p ∈ v.schema.misnames e q, Miss p)
include h

theorem raises_findMany : Raises Miss (v.findMany e q) := by
  obtain ⟨⟨⟨⟨hfilter, horder⟩, hdistinct⟩, hselect⟩, hload⟩ := forall_misnames.1 h
  refine .andThen (raises_rows v e) fun rows => ?_
  refine .andThen (raises_readRows hfilter horder hdistinct rows) fun rows => ?_
  exact raises_attach v e rows q hselect hload

theorem raises_record (row : Row) : Raises Miss (v.record e q row) := by
  obtain ⟨⟨-, hselect⟩, hload⟩ := forall_misnames.1 h
  refine .andThen (raises_attach v e [row] q hselect hload) fun records => ?_
  split
  · exact .pure trivial
  · exact .throw (.notFound _)

end View

end RelationalStore

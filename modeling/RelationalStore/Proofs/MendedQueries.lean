import RelationalStore.Proofs.FilterSets
import RelationalStore.Proofs.RaisedErrors

/- A name that stands for nothing is never passed over. Names are looked up where the evaluation
   comes to them, so that whether an unknown one is reported depends on the rows. But one that is
   not reported has not been looked at: nothing changes if the part of the query under it is
   replaced by any other parts (`Schema.mend`). In a query and a mended one every function of the
   evaluation does the same, unless it says that a name is unknown (`Read.Unless`, with
   `Error.Unknown`); there is one lemma for each, along the recursion of the functions. -/
namespace RelationalStore
open Read

/-- What is put in the place of the parts of a query that stand under unknown names. -/
structure Mending where
  conditions : Entity → String × Condition → List (String × Condition)
  clauses : Entity → OrderBy → List OrderBy
  counts : Entity → String × Option Filter → List (String × Option Filter)
  names : Entity → String → List String
  entries : Entity → String × Selected → List (String × Selected)

/-- The error that there is no field or relation of a name. -/
inductive Error.Unknown : Error → Prop where
  | name (entity name : String) : Unknown (.unknownField entity name)

/-- The field or relation that there is not, after its entity. -/
def Error.unknown? : Error → Option (String × String)
  | .unknownField entity name => some (entity, name)
  | _ => none

theorem Error.unknown?_eq_some {err : Error} {entity name : String} :
    err.unknown? = some (entity, name) ↔ err = .unknownField entity name := by
  cases err <;> simp [unknown?]

namespace Schema
variable (s : Schema) (m : Mending)

/-! ### Mended queries -/

mutual

/-- A filter with something else in the place of each condition under an unknown name. -/
def mendFilter (e : Entity) : Filter → Filter
  | ⟨conjuncts, alternatives, exclusions, conditions⟩ =>
    ⟨mendFilters e conjuncts,
      (match alternatives with
        | none => none
        | some filters => some (mendFilters e filters)),
      mendFilters e exclusions, mendConditions e conditions⟩

def mendFilters (e : Entity) : List Filter → List Filter
  | [] => []
  | f :: rest => mendFilter e f :: mendFilters e rest

def mendConditions (e : Entity) : List (String × Condition) → List (String × Condition)
  | [] => []
  | (name, c) :: rest =>
    (match e.subject name with
      | .error _ => m.conditions e (name, c)
      | .ok subject => [(name, mendCondition e subject c)]) ++ mendConditions e rest

def mendCondition (e : Entity) (subject : Entity.Subject) : Condition → Condition
  | .nested f =>
    match subject with
    | .field _ => .nested f
    | .compound _ => .nested (mendFilter e f)
    | .relation r =>
      match s.entity? r.target with
      | some t => .nested (mendFilter t f)
      | none => .nested f
  | .relation test =>
    match subject with
    | .relation r =>
      match s.entity? r.target with
      | some t => .relation (mendTest t test)
      | none => .relation test
    | _ => .relation test
  | .isNull => .isNull
  | .equals literal => .equals literal
  | .scalar test => .scalar test

def mendTest (e : Entity) : RelationTest → RelationTest
  | ⟨is, isNot, every, someOf, noneOf⟩ =>
    ⟨mendRelated e is, mendRelated e isNot, mendInner e every, mendInner e someOf,
      mendInner e noneOf⟩

def mendRelated (e : Entity) : Option RelationTarget → Option RelationTarget
  | none => none
  | some t => some (mendTarget e t)

def mendTarget (e : Entity) : RelationTarget → RelationTarget
  | .absent => .absent
  | .passing f => .passing (mendFilter e f)

def mendInner (e : Entity) : Option Filter → Option Filter
  | none => none
  | some f => some (mendFilter e f)

end

mutual

/-- An order with something else in the place of each clause under an unknown name. -/
def mendOrder (e : Entity) : List OrderBy → List OrderBy
  | [] => []
  | clause :: rest => mendClause e clause ++ mendOrder e rest

def mendClause (e : Entity) : OrderBy → List OrderBy
  | ⟨name, key⟩ => mendKey e name key

def mendKey (e : Entity) (name : String) : OrderKey → List OrderBy
  | .scalar direction nulls =>
    if (e.field? name).isSome then [⟨name, .scalar direction nulls⟩]
    else m.clauses e ⟨name, .scalar direction nulls⟩
  | .count direction =>
    if (e.relation? name).isSome then [⟨name, .count direction⟩]
    else m.clauses e ⟨name, .count direction⟩
  | .relation clauses =>
    match e.relation? name with
    | none => m.clauses e ⟨name, .relation clauses⟩
    | some r =>
      match s.entity? r.target with
      | some t => [⟨name, .relation (mendOrder t clauses)⟩]
      | none => [⟨name, .relation clauses⟩]

end

/-- The filter on the rows that are counted through a relation. -/
def mendCounted (r : Relation) (filter : Option Filter) : Option Filter :=
  (s.entity? r.target).elim filter fun t => filter.map (s.mendFilter m t)

def mendCount (e : Entity) (entry : String × Option Filter) : List (String × Option Filter) :=
  match e.relation? entry.1 with
  | none => m.counts e entry
  | some r => [(entry.1, s.mendCounted m r entry.2)]

/-- A selection of counts with other entries in the place of those that are for no relation. -/
def mendCounts (e : Entity) : CountSelection → CountSelection
  | .all => .all
  | .relations entries => .relations (entries.flatMap (s.mendCount m e))

/-- Names of fields with others in the place of the unknown ones. -/
def mendNames (e : Entity) (names : List String) : List String :=
  names.flatMap fun name => if (e.field? name).isSome then [name] else m.names e name

mutual

/-- A query with something else in the place of each part under an unknown name. -/
def mend (e : Entity) : Query → Query
  | ⟨filter, order, select, load, take, skip, distinct, data, skipDuplicates⟩ =>
    ⟨filter.map (s.mendFilter m e), s.mendOrder m e order, mendSelection e select,
      mendSelection e load, take, skip, mendNames m e distinct, data, skipDuplicates⟩

def mendSelection (e : Entity) : Option (List (String × Selected)) →
    Option (List (String × Selected))
  | none => none
  | some entries => some (mendEntries e entries)

def mendEntries (e : Entity) : List (String × Selected) → List (String × Selected)
  | [] => []
  | (name, selected) :: rest => mendEntry e name selected ++ mendEntries e rest

def mendEntry (e : Entity) (name : String) : Selected → List (String × Selected)
  | .flag enabled =>
    if enabled && !(plainMisnames e name).isEmpty then m.entries e (name, .flag enabled)
    else [(name, .flag enabled)]
  | .count counts =>
    if name = "_count" then [(name, .count (s.mendCounts m e counts))]
    else if !(plainMisnames e name).isEmpty then m.entries e (name, .count counts)
    else [(name, .count counts)]
  | .nested q =>
    if name = "_count" || (e.field? name).isSome then [(name, .nested q)]
    else
      match e.relation? name with
      | none => m.entries e (name, .nested q)
      | some r =>
        match s.entity? r.target with
        | some t => [(name, .nested (mend t q))]
        | none => [(name, .nested q)]

end

end Schema

namespace Entity
variable {e : Entity} {name : String}

theorem requireField_error (h : e.field? name = none) :
    e.requireField name = .error (.unknownField e.name name) := by
  rw [requireField, h]
  rfl

theorem requireRelation_error (h : e.relation? name = none) :
    e.requireRelation name = .error (.unknownField e.name name) := by
  rw [requireRelation, h]
  rfl

/-- The relations whose rows a selection counts, each with a filter on the rows. -/
def counted (e : Entity) (entries : List (String × Option Filter)) :
    Read (List (Relation × Option Filter)) :=
  entries.mapM fun (name, filter) => do return (← e.requireRelation name, filter)

theorem counted_cons (e : Entity) (name : String) (filter : Option Filter)
    (rest : List (String × Option Filter)) :
    e.counted ((name, filter) :: rest) = (do
      let r ← e.requireRelation name
      return (r, filter) :: (← e.counted rest)) := by
  simp only [counted, List.mapM_cons, bind_assoc, pure_bind]

end Entity

theorem Selection.selects_cons (name : String) (selected : Selected) (rest : Selection)
    (n : String) :
    Selection.selects ((name, selected) :: rest) n =
      if name = n then selected.isEnabled else Selection.selects rest n := by
  unfold Selection.selects Selection.get?
  by_cases h : name = n <;> simp [h]

namespace View
variable {v : View} {e : Entity} (m : Mending)

/-! ### Filters -/

theorem meetsOne_unknown {row : Row} {name : String} {err : Error}
    (h : e.subject name = .error err) (c : Condition) :
    v.meetsOne e row name c = .error (.unknownField e.name name) := by
  cases e.subject_error h
  cases c <;> rw [meetsOne] <;> (try rw [meetsPlainly]) <;> rw [h] <;> rfl

theorem isSome_mendRelated (s : Schema) (is : Option RelationTarget) :
    (s.mendRelated m e is).isSome = is.isSome := by
  cases is with
  | none => rfl
  | some t => rfl

theorem isSome_mendInner (s : Schema) (f : Option Filter) :
    (s.mendInner m e f).isSome = f.isSome := by
  cases f with
  | none => rfl
  | some t => rfl

mutual

theorem mends_lets (v : View) (e : Entity) (row : Row) : ∀ f : Filter,
    Unless Error.Unknown (v.lets e row f) (v.lets e row (v.schema.mendFilter m e f))
  | ⟨conjuncts, alternatives, exclusions, conditions⟩ => by
    rw [Schema.mendFilter.eq_def, lets.eq_def, lets.eq_def]
    refine .all_cons (mends_meetsAll v e row conditions)
      (.all_cons (mends_letsEach v e row conjuncts)
        (.all_cons ?_ (.all_cons (.not (mends_letsAny v e row exclusions)) (.same _))))
    match alternatives with
    | none => exact .same _
    | some filters => exact mends_letsAny v e row filters

theorem mends_letsEach (v : View) (e : Entity) (row : Row) : ∀ filters : List Filter,
    Unless Error.Unknown (v.letsEach e row filters)
      (v.letsEach e row (v.schema.mendFilters m e filters))
  | [] => .same _
  | f :: rest => by
    rw [Schema.mendFilters, letsEach, letsEach]
    exact (mends_lets v e row f).and (mends_letsEach v e row rest)

theorem mends_letsAny (v : View) (e : Entity) (row : Row) : ∀ filters : List Filter,
    Unless Error.Unknown (v.letsAny e row filters)
      (v.letsAny e row (v.schema.mendFilters m e filters))
  | [] => .same _
  | f :: rest => by
    rw [Schema.mendFilters, letsAny, letsAny]
    refine (mends_lets v e row f).bind fun _ => .ite (fun _ => .same _) fun _ => ?_
    exact mends_letsAny v e row rest

theorem mends_meetsAll (v : View) (e : Entity) (row : Row) :
    ∀ conditions : List (String × Condition),
    Unless Error.Unknown (v.meetsAll e row conditions)
      (v.meetsAll e row (v.schema.mendConditions m e conditions))
  | [] => .same _
  | (name, c) :: rest => by
    rw [Schema.mendConditions, meetsAll]
    cases hsubject : e.subject name with
    | error err =>
      rw [meetsOne_unknown hsubject]
      exact .fails (.name _ _)
    | ok subject =>
      simp only [List.cons_append, List.nil_append]
      rw [meetsAll]
      exact (mends_meetsOne v e row name hsubject c).and (mends_meetsAll v e row rest)

theorem mends_meetsOne (v : View) (e : Entity) (row : Row) (name : String)
    {subject : Entity.Subject} (hsubject : e.subject name = .ok subject) : ∀ c : Condition,
    Unless Error.Unknown (v.meetsOne e row name c)
      (v.meetsOne e row name (v.schema.mendCondition m e subject c))
  | .nested f => by
    cases subject with
    | field _ => exact .same _
    | compound fields =>
      rw [Schema.mendCondition, meetsOne, meetsOne, hsubject]
      exact mends_lets v e row f
    | relation r =>
      rw [Schema.mendCondition]
      cases htarget : v.schema.entity? r.target with
      | none => exact .same _
      | some t =>
        simp only
        rw [meetsOne, meetsOne, hsubject, Except.ok_bind, Except.ok_bind]
        refine .bind_ok (.same (v.plainTarget e r)) fun target hplain => ?_
        obtain rfl := Option.some.inj 
          (htarget.symm.trans (Option.elim_ok_eq_ok.1 (require_of_plainTarget hplain)))
        exact .bind (.same _) fun related => .anyM fun row _ => mends_lets v t row f
  | .relation test => by
    cases subject with
    | field _ => exact .same _
    | compound _ => exact .same _
    | relation r =>
      rw [Schema.mendCondition]
      cases htarget : v.schema.entity? r.target with
      | none => exact .same _
      | some t =>
        simp only
        rw [meetsOne, meetsOne, hsubject]
        exact mends_meetsTest v e r row htarget test
  | .isNull => .same _
  | .equals literal => .same _
  | .scalar test => .same _

theorem mends_meetsTest (v : View) (e : Entity) (r : Relation) (row : Row) {t : Entity}
    (htarget : v.schema.entity? r.target = some t) : ∀ test : RelationTest,
    Unless Error.Unknown (v.meetsTest e r row test)
      (v.meetsTest e r row (v.schema.mendTest m t test))
  | ⟨is, isNot, every, someOf, noneOf⟩ => by
    have hrequire : v.schema.require r.target = .ok t := Option.elim_ok_eq_ok.2 htarget
    rw [Schema.mendTest, meetsTest.eq_def, meetsTest.eq_def, hrequire]
    simp only [isSome_mendRelated, isSome_mendInner]
    refine .ite (fun _ => .ite (fun _ => .same _) fun _ => ?_) fun _ =>
      .ite (fun _ => .same _) fun _ => ?_
    · refine .bind (.same _) fun related =>
        .all_cons ?_ (.all_cons ?_ (.all_cons ?_ (.same _)))
      · match every with
        | none => exact .same _
        | some f => exact .allM fun row _ => mends_lets v t row f
      · match someOf with
        | none => exact .same _
        | some f => exact .anyM fun row _ => mends_lets v t row f
      · match noneOf with
        | none => exact .same _
        | some f => exact .not (.anyM fun row _ => mends_lets v t row f)
    · refine .bind (.same _) fun related => .all_cons ?_ (.all_cons ?_ (.same _))
      · match is with
        | none => exact .same _
        | some wanted => exact mends_meetsTarget v t related wanted
      · match isNot with
        | none => exact .same _
        | some unwanted => exact .not (mends_meetsTarget v t related unwanted)

theorem mends_meetsTarget (v : View) (target : Entity) (related : List Row) :
    ∀ wanted : RelationTarget,
    Unless Error.Unknown (v.meetsTarget target related wanted)
      (v.meetsTarget target related (v.schema.mendTarget m target wanted))
  | .absent => .same _
  | .passing f => by
    rw [Schema.mendTarget, meetsTarget, meetsTarget]
    exact .anyM fun row _ => mends_lets v target row f

end

theorem mends_select (v : View) (e : Entity) (rows : List Row) (f : Filter) :
    Unless Error.Unknown (v.select e rows f) (v.select e rows (v.schema.mendFilter m e f)) :=
  .filterM fun row _ => mends_lets m v e row f

/-! ### Orders -/

mutual

theorem mends_sortKeys (v : View) (e : Entity) (row : Option Row) : ∀ order : List OrderBy,
    Unless Error.Unknown (v.sortKeys e row order)
      (v.sortKeys e row (v.schema.mendOrder m e order))
  | [] => .same _
  | ⟨name, key⟩ :: rest => by
    rw [Schema.mendOrder, Schema.mendClause, sortKeys, clauseKeys]
    obtain ⟨err, herr, hfails⟩ | ⟨key', hkey', hsame⟩ := mends_leafKeys v e row name key
    · rw [hfails]
      exact .fails herr
    · rw [hkey', List.cons_append, List.nil_append, sortKeys, clauseKeys]
      exact hsame.bind fun keys => (mends_sortKeys v e row rest).bind fun _ => .same _

/-- A clause under an unknown name fails; any other one stays one clause of that name. -/
theorem mends_leafKeys (v : View) (e : Entity) (row : Option Row) (name : String) :
    ∀ key : OrderKey,
    (∃ err, Error.Unknown err ∧ v.leafKeys e row name key = .error err) ∨
      ∃ key', v.schema.mendKey m e name key = [⟨name, key'⟩] ∧
        Unless Error.Unknown (v.leafKeys e row name key) (v.leafKeys e row name key')
  | .scalar direction nulls => by
    rw [Schema.mendKey]
    by_cases hf : (e.field? name).isSome
    · exact .inr ⟨_, by rw [if_pos hf], .same _⟩
    · refine .inl ⟨_, .name e.name name, ?_⟩
      rw [leafKeys, Entity.requireField_error (by simpa using hf)]
      rfl
  | .count direction => by
    rw [Schema.mendKey]
    cases hr : e.relation? name with
    | some r => exact .inr ⟨_, rfl, .same _⟩
    | none =>
      refine .inl ⟨_, .name e.name name, ?_⟩
      rw [leafKeys, Entity.requireRelation_error hr]
      rfl
  | .relation clauses => by
    rw [Schema.mendKey]
    cases hr : e.relation? name with
    | none =>
      refine .inl ⟨_, .name e.name name, ?_⟩
      rw [leafKeys, Entity.requireRelation_error hr]
      rfl
    | some r =>
      simp only
      cases htarget : v.schema.entity? r.target with
      | none => exact .inr ⟨_, rfl, .same _⟩
      | some t =>
        refine .inr ⟨_, rfl, ?_⟩
        have hrelation : e.requireRelation name = .ok r := Option.elim_ok_eq_ok.2 hr
        rw [leafKeys, leafKeys, hrelation, Except.ok_bind, Except.ok_bind]
        refine .ite (fun _ => .same _) fun _ => .bind_ok (.same _) fun target hrequire => ?_
        obtain rfl := Option.some.inj (htarget.symm.trans (Option.elim_ok_eq_ok.1 hrequire))
        exact .bind (.same _) fun related => mends_sortKeys v t related clauses

end

theorem mends_sort (v : View) (e : Entity) (order : List OrderBy) (rows : List Row) :
    Unless Error.Unknown (v.sort e order rows) (v.sort e (v.schema.mendOrder m e order) rows) :=
  .bind (.mapM fun row _ => (mends_sortKeys m v e (some row) order).bind fun _ => .same _)
    fun _ => .same _

/-! ### Finding rows -/

/-- Where each name is that of a field nothing is mended. -/
theorem mends_distinct (e : Entity) (names : List String) :
    (∃ err, Error.Unknown err ∧
      (names.forM fun field => discard (e.requireField field)) = .error err) ∨
      Schema.mendNames m e names = names := by
  induction names with
  | nil => exact .inr rfl
  | cons name rest ih =>
    rw [Schema.mendNames, List.flatMap_cons]
    cases hf : e.field? name with
    | none =>
      refine .inl ⟨_, .name e.name name, ?_⟩
      show (discard (e.requireField name) >>= fun _ => rest.forM _) = _
      rw [Entity.requireField_error hf]
      rfl
    | some f =>
      have hfound : e.requireField name = .ok f := Option.elim_ok_eq_ok.2 hf
      refine ih.imp (fun h => ?_) fun h => ?_
      · obtain ⟨err, herr, hfails⟩ := h
        refine ⟨err, herr, ?_⟩
        show (discard (e.requireField name) >>= fun _ => rest.forM _) = _
        rw [hfound]
        exact hfails
      · exact congrArg (name :: ·) h

theorem mends_readRows (v : View) (e : Entity) (q : Query) (rows : List Row) :
    Unless Error.Unknown (v.readRows e q rows) (v.readRows e (v.schema.mend m e q) rows) := by
  obtain ⟨filter, order, select, load, take, skip, distinct, data, skipDuplicates⟩ := q
  rw [Schema.mend, readRows, readRows]
  have hcut (kept : List Row) : Unless Error.Unknown
      (v.sort e order kept >>= fun rows => do
        distinct.forM fun field => discard (e.requireField field)
        let rows := if distinct.isEmpty then rows else firstPerKey distinct rows
        let rows := rows.drop (skip.getD 0)
        return take.elim rows rows.take)
      (v.sort e (v.schema.mendOrder m e order) kept >>= fun rows => do
        (Schema.mendNames m e distinct).forM fun field => discard (e.requireField field)
        let rows := if (Schema.mendNames m e distinct).isEmpty then rows
          else firstPerKey (Schema.mendNames m e distinct) rows
        let rows := rows.drop (skip.getD 0)
        return take.elim rows rows.take) := by
    refine (mends_sort m v e order kept).bind fun rows => ?_
    obtain ⟨err, herr, hfails⟩ | hsame := mends_distinct m e distinct
    · rw [hfails]
      exact .fails herr
    · rw [hsame]
      exact .same _
  cases filter with
  | none => exact hcut rows
  | some f => exact (mends_select m v e rows f).bind hcut

/-! ### Selections -/

theorem mends_attachCount (v : View) (e : Entity) (record : Record) (r : Relation)
    (filter : Option Filter) :
    Unless Error.Unknown (v.attachCount e record (r, filter))
      (v.attachCount e record (r, v.schema.mendCounted m r filter)) := by
  rw [Schema.mendCounted]
  cases htarget : v.schema.entity? r.target with
  | none => exact .same _
  | some t =>
    cases filter with
    | none => exact .same _
    | some f =>
      have hrequire : v.schema.require r.target = .ok t := Option.elim_ok_eq_ok.2 htarget
      simp only [Option.elim_some, Option.map_some, attachCount, hrequire, Except.ok_bind]
      refine .ite (fun _ => .same _) fun _ => .bind (.same _) fun rows => ?_
      exact (mends_select m v t rows f).bind fun _ => .same _

/-- What the entries of a selection of counts ask for, where each is for a relation. -/
theorem mends_counted (s : Schema) (e : Entity) (entries : List (String × Option Filter)) :
    (∃ err, Error.Unknown err ∧ e.counted entries = .error err) ∨
      ∃ wanted, e.counted entries = .ok wanted ∧
        e.counted (entries.flatMap (s.mendCount m e)) =
          .ok (wanted.map fun p => (p.1, s.mendCounted m p.1 p.2)) := by
  induction entries with
  | nil => exact .inr ⟨[], rfl, rfl⟩
  | cons entry rest ih =>
    obtain ⟨name, filter⟩ := entry
    cases hr : e.relation? name with
    | none =>
      refine .inl ⟨_, .name e.name name, ?_⟩
      rw [Entity.counted_cons, Entity.requireRelation_error hr]
      rfl
    | some r =>
      have hrelation : e.requireRelation name = .ok r := Option.elim_ok_eq_ok.2 hr
      obtain ⟨err, herr, hfails⟩ | ⟨wanted, hrest, hmended⟩ := ih
      · refine .inl ⟨err, herr, ?_⟩
        rw [Entity.counted_cons, hrelation, hfails]
        rfl
      · refine .inr ⟨(r, filter) :: wanted, ?_, ?_⟩
        · rw [Entity.counted_cons, hrelation, hrest]
          rfl
        · rw [List.flatMap_cons, Schema.mendCount, hr, List.cons_append, List.nil_append,
            Entity.counted_cons, hrelation, hmended]
          rfl

theorem mends_attachCounts (v : View) (e : Entity) (record : Record) (counts : CountSelection) :
    Unless Error.Unknown (v.attachCounts e record counts)
      (v.attachCounts e record (v.schema.mendCounts m e counts)) := by
  cases counts with
  | all => exact .same _
  | relations entries =>
    show Unless _ (e.counted entries >>= fun wanted => wanted.foldlM (v.attachCount e) record)
      (e.counted (entries.flatMap (v.schema.mendCount m e)) >>= fun wanted =>
        wanted.foldlM (v.attachCount e) record)
    obtain ⟨err, herr, hfails⟩ | ⟨wanted, hwanted, hmended⟩ := mends_counted m v.schema e entries
    · rw [hfails]
      exact .fails herr
    · rw [hwanted, hmended, Except.ok_bind, Except.ok_bind, List.foldlM_map]
      exact .foldlM (fun record p _ => mends_attachCount m v e record p.1 p.2) record

/-- A name that is taken plainly and stands for nothing is an error. -/
theorem attachPlainly_unknown {record : Record} {name : String}
    (h : (Schema.plainMisnames e name).isEmpty = false) :
    v.attachPlainly e record name = .error (.unknownField e.name name) := by
  unfold Schema.plainMisnames at h
  split at h
  · cases h
  · next hname =>
    simp only [Bool.or_eq_true, decide_eq_true_eq, not_or, Bool.not_eq_true,
      Option.isSome_eq_false_iff, Option.isNone_iff_eq_none] at hname
    obtain ⟨⟨hcount, hfield⟩, hrelation⟩ := hname
    rw [attachPlainly, if_neg hcount, if_neg (by simp [hfield]),
      Entity.requireRelation_error hrelation]
    rfl

mutual

theorem mends_attach (v : View) (e : Entity) (rows : List Row) : ∀ q : Query,
    Unless Error.Unknown (v.attach e rows q) (v.attach e rows (v.schema.mend m e q))
  | ⟨_, _, none, none, _, _, _, _, _⟩ => by
    rw [Schema.mend, Schema.mendSelection, attach, attach]
    exact .same _
  | ⟨_, _, none, some load, _, _, _, _, _⟩ => by
    rw [Schema.mend, Schema.mendSelection, Schema.mendSelection, attach, attach]
    exact .mapM fun row _ => mends_attachAll v e (.ofRow row) load
  | ⟨_, _, some select, none, _, _, _, _, _⟩ => by
    rw [Schema.mend, Schema.mendSelection, Schema.mendSelection, attach, attach]
    refine .bind_ok (.mapM fun row _ => mends_attachAll v e (.ofRow row) select) fun records h => ?_
    cases rows with
    | nil =>
      cases h
      exact .same _
    | cons row rest =>
      rw [List.mapM_cons, Except.bind_eq_ok] at h
      obtain ⟨record, hrecord, -⟩ := h
      rw [selects_mended v e (.ofRow row) select hrecord]
      exact .same _
  | ⟨_, _, some _, some _, _, _, _, _, _⟩ => by
    rw [Schema.mend, Schema.mendSelection, Schema.mendSelection, attach, attach]
    exact .same _

theorem mends_attachAll (v : View) (e : Entity) (record : Record) :
    ∀ entries : List (String × Selected),
    Unless Error.Unknown (v.attachAll e record entries)
      (v.attachAll e record (v.schema.mendEntries m e entries))
  | [] => .same _
  | (name, selected) :: rest => by
    rw [Schema.mendEntries, attachAll]
    obtain ⟨err, herr, hfails⟩ | ⟨selected', hentry, -, hsame⟩ :=
      mends_attachOne v e record name selected
    · rw [hfails]
      exact .fails herr
    · rw [hentry, List.cons_append, List.nil_append, attachAll]
      exact hsame.bind fun record => mends_attachAll v e record rest

/-- Where every entry could be attached the names that are kept stay the same. -/
theorem selects_mended (v : View) (e : Entity) (record : Record) {record' : Record} :
    ∀ entries : List (String × Selected), v.attachAll e record entries = .ok record' →
      Selection.selects (v.schema.mendEntries m e entries) = Selection.selects entries
  | [], _ => rfl
  | (name, selected) :: rest, h => by
    rw [attachAll, Except.bind_eq_ok] at h
    obtain ⟨next, hnext, h⟩ := h
    rw [Schema.mendEntries]
    obtain ⟨err, -, hfails⟩ | ⟨selected', hentry, henabled, -⟩ :=
      mends_attachOne v e record name selected
    · rw [hfails] at hnext
      cases hnext
    · rw [hentry, List.cons_append, List.nil_append]
      funext n
      rw [Selection.selects_cons, Selection.selects_cons, henabled, selects_mended v e next rest h]

/-- An entry under an unknown name fails; any other one stays one entry of that name. -/
theorem mends_attachOne (v : View) (e : Entity) (record : Record) (name : String) :
    ∀ selected : Selected,
    (∃ err, Error.Unknown err ∧ v.attachOne e record name selected = .error err) ∨
      ∃ selected', v.schema.mendEntry m e name selected = [(name, selected')] ∧
        selected'.isEnabled = selected.isEnabled ∧
        Unless Error.Unknown (v.attachOne e record name selected)
          (v.attachOne e record name selected')
  | .flag false => .inr ⟨_, rfl, rfl, .same _⟩
  | .flag true => by
    rw [Schema.mendEntry]
    cases hname : (Schema.plainMisnames e name).isEmpty with
    | true => exact .inr ⟨_, rfl, rfl, .same _⟩
    | false => exact .inl ⟨_, .name e.name name, by rw [attachOne, attachPlainly_unknown hname]⟩
  | .count counts => by
    rw [Schema.mendEntry]
    by_cases hcount : name = "_count"
    · refine .inr ⟨.count (v.schema.mendCounts m e counts), by rw [if_pos hcount], rfl, ?_⟩
      rw [attachOne, attachOne, if_pos hcount, if_pos hcount]
      exact mends_attachCounts m v e record counts
    · rw [if_neg hcount]
      cases hname : (Schema.plainMisnames e name).isEmpty with
      | true => exact .inr ⟨_, rfl, rfl, .same _⟩
      | false =>
        refine .inl ⟨_, .name e.name name, ?_⟩
        rw [attachOne, if_neg hcount, attachPlainly_unknown hname]
  | .nested q => by
    rw [Schema.mendEntry]
    by_cases hname : (name = "_count" || (e.field? name).isSome) = true
    · exact .inr ⟨_, by rw [if_pos hname], rfl, .same _⟩
    · rw [if_neg hname]
      simp only [Bool.or_eq_true, decide_eq_true_eq, not_or] at hname
      cases hr : e.relation? name with
      | none =>
        refine .inl ⟨_, .name e.name name, ?_⟩
        rw [attachOne, if_neg hname.1, if_neg hname.2, Entity.requireRelation_error hr]
        rfl
      | some r =>
        simp only
        cases htarget : v.schema.entity? r.target with
        | none => exact .inr ⟨_, rfl, rfl, .same _⟩
        | some t =>
          refine .inr ⟨_, rfl, rfl, ?_⟩
          have hrelation : e.requireRelation name = .ok r := Option.elim_ok_eq_ok.2 hr
          rw [attachOne, attachOne, hrelation, Except.ok_bind, Except.ok_bind]
          refine .ite (fun _ => .same _) fun _ => .ite (fun _ => .same _) fun _ => ?_
          refine .bind_ok (.same _) fun target hrequire => ?_
          obtain rfl := Option.some.inj (htarget.symm.trans (Option.elim_ok_eq_ok.1 hrequire))
          refine .ite (fun _ => .same _) fun _ => .bind (.same _) fun related => ?_
          refine (mends_readRows m v t q related).bind fun rows => ?_
          exact (mends_attach v t rows q).bind fun _ => .same _

end

theorem mends_findMany (v : View) (e : Entity) (q : Query) :
    Unless Error.Unknown (v.findMany e q) (v.findMany e (v.schema.mend m e q)) :=
  .bind (.same _) fun rows =>
    (mends_readRows m v e q rows).bind fun kept => mends_attach m v e kept q

end View

end RelationalStore

import RelationalStore.Query.Payload
import RelationalStore.Proofs.SchemaResolution
import RelationalStore.Proofs.ScopedReads

/- Queries stay in scope: sorting, selecting by a unique selector, and attaching what a selection
   names look into no table but those of `Schema.queryTables`. A count of related rows is looked for
   under the name `_count` alone, where every payload has it (`Query.Named`). -/
namespace RelationalStore
open Read

/-! ### Where counts stand -/

mutual

/-- A selection of counts stands under the name `_count` only, at any depth. -/
def Query.Named : Query → Prop
  | ⟨_, _, select, load, _, _, _, _, _⟩ => entriesNamed select ∧ entriesNamed load

def Query.entriesNamed : Option (List (String × Selected)) → Prop
  | none => True
  | some entries => allNamed entries

def Query.allNamed : List (String × Selected) → Prop
  | [] => True
  | (name, selected) :: rest => selectedNamed name selected ∧ allNamed rest

def Query.selectedNamed (name : String) : Selected → Prop
  | .flag _ => True
  | .nested q => Query.Named q
  | .count _ => name = "_count"

end

theorem Query.named_iff {q : Query} :
    q.Named ↔ entriesNamed q.select ∧ entriesNamed q.load := by
  cases q
  exact Iff.rfl

namespace Payload

mutual

theorem named_queryMembers (path : Path) (acc : Query) (hacc : acc.Named) :
    ∀ members : List (String × Json),
      Yields (queryMembers path acc members) Query.Named fun _ => True
  | [] => .ok hacc
  | (key, value) :: rest => by
    rw [Query.named_iff] at hacc
    rw [queryMembers.eq_def]
    simp only
    split
    case h_3 =>
      refine .bind (named_selection (path.key _) value) fun entries hentries => ?_
      exact named_queryMembers path { acc with select := some entries }
        (Query.named_iff.2 ⟨hentries, hacc.2⟩) rest
    case h_4 =>
      refine .bind (named_selection (path.key _) value) fun entries hentries => ?_
      exact named_queryMembers path { acc with load := some entries }
        (Query.named_iff.2 ⟨hacc.1, hentries⟩) rest
    case h_10 => exact .error trivial
    all_goals
      refine .andThen .any fun _ => ?_
      refine .bind (R := Query.Named) (.pure (Query.named_iff.2 hacc)) fun acc hacc => ?_
      exact named_queryMembers path acc hacc rest

theorem named_selection (path : Path) : ∀ j : Json,
    Yields (selection path j) Query.allNamed fun _ => True
  | .object members => named_selectionMembers path members
  | .null => .error trivial
  | .bool _ => .error trivial
  | .int _ => .error trivial
  | .float _ => .error trivial
  | .string _ => .error trivial
  | .array _ => .error trivial

theorem named_selectionMembers (path : Path) : ∀ members : List (String × Json),
    Yields (selectionMembers path members) Query.allNamed fun _ => True
  | [] => .ok trivial
  | (name, value) :: rest => by
    have hrest (taken : Selected) (htaken : Query.selectedNamed name taken) :
        Yields (do
          let more ← selectionMembers path rest
          pure ((name, taken) :: more)) Query.allNamed fun _ => True :=
      .bind (named_selectionMembers path rest) fun more hmore => .pure ⟨htaken, hmore⟩
    rw [selectionMembers.eq_def]
    refine .ite (fun hname => ?_) fun _ => ?_
    · exact .andThen .any fun counted => hrest (.count counted) hname
    · match value with
      | .bool b => exact hrest (.flag b) trivial
      | .object members =>
        refine .bind (named_queryMembers (path.key name) {} ⟨trivial, trivial⟩ members) fun q hq => ?_
        exact hrest (.nested q) hq
      | .null => exact .error trivial
      | .int _ => exact .error trivial
      | .float _ => exact .error trivial
      | .string _ => exact .error trivial
      | .array _ => exact .error trivial

end

end Payload

/-- Every payload that is read has its counts under their name. -/
theorem Query.named_of_ofJson {j : Json} {q : Query} (h : Query.ofJson j = .ok q) : q.Named := by
  unfold Query.ofJson at h
  split at h
  · cases h
    exact ⟨trivial, trivial⟩
  · next members =>
    have := Payload.named_queryMembers [] {} ⟨trivial, trivial⟩ members
    rw [h] at this
    exact this
  · cases h

namespace View
variable {v : View} {e : Entity}

/-! ### Orders -/

mutual

theorem scoped_sortKeys (v : View) (e : Entity) (row : Option Row) : ∀ clauses : List OrderBy,
    (∀ n ∈ v.schema.orderTables e clauses, v.Sees n) → Scoped (v.sortKeys e row clauses)
  | [], _ => .ok trivial
  | clause :: rest, h => by
    simp only [Schema.orderTables, List.forall_mem_append] at h
    rw [sortKeys]
    refine .andThen (scoped_clauseKeys v e row clause h.1) fun _ => ?_
    exact .andThen (scoped_sortKeys v e row rest h.2) fun _ => .pure trivial

theorem scoped_clauseKeys (v : View) (e : Entity) (row : Option Row) : ∀ clause : OrderBy,
    (∀ n ∈ v.schema.clauseTables e clause, v.Sees n) → Scoped (v.clauseKeys e row clause)
  | ⟨name, key⟩, h => scoped_leafKeys v e row name key h

theorem scoped_leafKeys (v : View) (e : Entity) (row : Option Row) (name : String) :
    ∀ key : OrderKey, (∀ n ∈ v.schema.keyTables (v.schema.target? e name) key, v.Sees n) →
      Scoped (v.leafKeys e row name key)
  | .scalar direction nulls, _ => by
    rw [leafKeys]
    refine .andThen (e.scoped_requireField name) fun f => ?_
    exact .ite (fun _ => .error nofun) fun _ => .pure trivial
  | .count direction, h => by
    rw [leafKeys]
    refine .bind (e.scoped_requireRelation name) fun r hr => ?_
    rw [target?_of_relation? hr] at h
    refine .ite (fun _ => .error nofun) fun _ => .andThen ?_ fun _ => .pure trivial
    cases row with
    | none => exact .ok trivial
    | some row =>
      refine .andThen (scoped_relatedRows (fun t ht => h t.name ?_) row) fun _ => .pure trivial
      rw [ht]
      simp [Schema.keyTables]
  | .relation clauses, h => by
    rw [leafKeys]
    refine .bind (e.scoped_requireRelation name) fun r hr => ?_
    rw [target?_of_relation? hr] at h
    refine .ite (fun _ => .error nofun) fun _ => ?_
    refine .bind (v.schema.scoped_require r.target) fun target htarget => ?_
    rw [htarget] at h
    simp only [Schema.keyTables, List.mem_cons, forall_eq_or_imp] at h
    refine .andThen ?_ fun related => scoped_sortKeys v target related clauses h.2
    cases row with
    | none => exact .ok trivial
    | some row =>
      refine .andThen (scoped_relatedRows (fun t ht => ?_) row) fun _ => .pure trivial
      cases htarget.symm.trans ht
      exact h.1

end

theorem scoped_sort {order : List OrderBy} (h : ∀ n ∈ v.schema.orderTables e order, v.Sees n)
    (rows : List Row) : Scoped (v.sort e order rows) := by
  have hkeyed : Scoped (rows.mapM fun row => do return (← v.sortKeys e (some row) order, row)) :=
    scoped_mapM fun row _ =>
      .andThen (scoped_sortKeys v e (some row) order h) fun _ => .pure trivial
  exact .andThen hkeyed fun _ => .pure trivial

/-! ### Finding rows -/

/-- The tables that finding the rows of a query looks into. -/
theorem sees_of_queryTables {q : Query} (h : ∀ n ∈ v.schema.queryTables e q, v.Sees n) :
    v.Sees e.name ∧ (∀ f ∈ q.filter, ∀ n ∈ v.schema.filterTables e f, v.Sees n) ∧
      (∀ n ∈ v.schema.orderTables e q.order, v.Sees n) ∧
      (∀ n ∈ v.schema.selectionTables e q.select, v.Sees n) ∧
      ∀ n ∈ v.schema.selectionTables e q.load, v.Sees n := by
  obtain ⟨filter, order, select, load, take, skip, distinct, data, skipDuplicates⟩ := q
  simp only [Schema.queryTables, List.mem_cons, forall_eq_or_imp, List.forall_mem_append] at h
  obtain ⟨hname, ⟨⟨hfilter, horder⟩, hselect⟩, hload⟩ := h
  refine ⟨hname, ?_, horder, hselect, hload⟩
  intro f hf
  cases hf
  exact hfilter

theorem scoped_readRows {q : Query}
    (hfilter : ∀ f ∈ q.filter, ∀ n ∈ v.schema.filterTables e f, v.Sees n)
    (horder : ∀ n ∈ v.schema.orderTables e q.order, v.Sees n) (rows : List Row) :
    Scoped (v.readRows e q rows) := by
  unfold readRows
  cases hf : q.filter
  case' some f => refine .andThen (scoped_select (hfilter f hf) rows) fun _ => ?_
  case' none => refine .andThen (.pure trivial) fun _ => ?_
  all_goals
    refine .andThen (scoped_sort horder _) fun _ => ?_
    refine .andThen (.forM fun field _ => ?_) fun _ => .pure trivial
    exact .andThen (e.scoped_requireField field) fun _ => .pure trivial

end View

namespace Entity
variable (e : Entity)

theorem scoped_fix (fixed : SortedMap String Value) (name : String) (literal : Json) :
    Scoped (e.fix fixed name literal) := by
  unfold fix
  split
  · next f _ =>
    refine .ite (fun _ => .pure trivial) fun _ => ?_
    exact .andThen (e.scoped_coerce f literal) fun _ => .pure trivial
  · exact .ok trivial

mutual

theorem scoped_fixedBy : ∀ f : Filter, Scoped (e.fixedBy f)
  | ⟨_, _, _, conditions⟩ => by
    rw [fixedBy]
    exact scoped_fixedByAll ∅ conditions

theorem scoped_fixedByAll (fixed : SortedMap String Value) :
    ∀ conditions : List (String × Condition), Scoped (e.fixedByAll fixed conditions)
  | [] => .ok trivial
  | (name, c) :: rest => by
    rw [fixedByAll]
    exact .andThen (scoped_fixedByOne fixed name c) fun fixed => scoped_fixedByAll fixed rest

theorem scoped_fixedByOne (fixed : SortedMap String Value) (name : String) :
    ∀ c : Condition, Scoped (e.fixedByOne fixed name c)
  | .equals literal => by
    rw [fixedByOne]
    exact e.scoped_fix fixed name literal
  | .scalar test => by
    rw [fixedByOne]
    split
    · exact e.scoped_fix fixed name _
    · exact .ok trivial
  | .nested f => by
    rw [fixedByOne]
    refine .ite (fun _ => .pure trivial) fun _ => ?_
    exact .andThen (scoped_fixedBy f) fun _ => .pure trivial
  | .isNull => .ok trivial
  | .relation _ => .ok trivial

end

end Entity

namespace View
variable {v : View} {e : Entity}

theorem scoped_findUnique {selector : Filter} (hname : v.Sees e.name)
    (h : ∀ n ∈ v.schema.filterTables e selector, v.Sees n) :
    Scoped (v.findUnique e selector) := by
  refine .andThen (e.scoped_fixedBy selector) fun fixed => ?_
  split
  · exact .error nofun
  · next group _ =>
    have hfound (candidates : List Row) :
        Scoped (candidates.findM? fun row => v.lets e row selector) :=
      (Yields.findM? fun row _ => scoped_lets v e row selector h).mono (fun _ _ => trivial)
        fun _ he => he
    refine .ite (fun _ => ?_) fun _ => ?_
    · exact .andThen (scoped_row? hname _) fun row => hfound row.toList
    · refine .andThen (scoped_table hname) fun t => ?_
      exact .andThen (scoped_lookup t _ _) hfound

/-! ### Selections -/

theorem scoped_attachCount {r : Relation} {filter : Option Filter}
    (h : ∀ t, v.schema.entity? r.target = some t →
      v.Sees t.name ∧ ∀ f ∈ filter, ∀ n ∈ v.schema.filterTables t f, v.Sees n)
    (record : Record) : Scoped (v.attachCount e record (r, filter)) := by
  refine .ite (fun _ => .error nofun) fun _ => ?_
  refine .andThen (scoped_relatedRows (fun t ht => (h t ht).1) record.fields) fun rows => ?_
  split
  · exact .pure trivial
  · next f =>
    refine .bind (v.schema.scoped_require r.target) fun target htarget => ?_
    exact .andThen (scoped_select ((h target htarget).2 f rfl) rows) fun _ => .pure trivial

theorem scoped_attachCounts (hs : v.schema.Resolved) {counts : CountSelection}
    (h : ∀ n ∈ v.schema.countTables e counts, v.Sees n) (record : Record) :
    Scoped (v.attachCounts e record counts) := by
  have hattach (wanted : List (Relation × Option Filter))
      (hwanted : ∀ p ∈ wanted, ∀ t, v.schema.entity? p.1.target = some t →
        v.Sees t.name ∧ ∀ f ∈ p.2, ∀ n ∈ v.schema.filterTables t f, v.Sees n) :
      Scoped (wanted.foldlM (v.attachCount e) record) :=
    .foldlM trivial fun record _ p hp => scoped_attachCount (hwanted p hp) record
  cases counts with
  | all =>
    refine hattach _ fun p hp t ht => ?_
    obtain ⟨r, hr, rfl⟩ := List.mem_map.1 hp
    refine ⟨h t.name ?_, nofun⟩
    rw [hs.name ht]
    exact List.mem_map_of_mem hr
  | relations entries =>
    refine .bind (.mapM fun (name, filter) hentry => ?_) hattach
    refine .bind (e.scoped_requireRelation name) fun r hr => .pure fun t ht => ?_
    have hentry : ∀ n ∈ t.name :: filter.elim [] (v.schema.filterTables t), v.Sees n := by
      intro n hn
      refine h n (List.mem_flatMap.2 ⟨(name, filter), hentry, ?_⟩)
      simp only [target?_of_relation? hr]
      rw [show v.schema.entity? r.target = some t from ht]
      exact hn
    simp only [List.mem_cons, forall_eq_or_imp] at hentry
    refine ⟨hentry.1, fun f hf => ?_⟩
    rw [show filter = some f from hf] at hentry
    exact hentry.2

theorem scoped_attachPlainly {name : String}
    (h : ∀ n ∈ (v.schema.target? e name).toList.map (·.name), v.Sees n) (record : Record) :
    Scoped (v.attachPlainly e record name) := by
  refine .ite (fun _ => .error nofun) fun _ => .ite (fun _ => .pure trivial) fun _ => ?_
  refine .bind (e.scoped_requireRelation name) fun r hr => ?_
  rw [target?_of_relation? hr] at h
  refine .andThen (.andThen ((v.schema.scoped_require r.target).mono (fun _ _ => trivial)
    fun _ he => he) fun _ => .pure trivial) fun _ => .ite (fun _ => .pure trivial) fun _ => ?_
  refine .andThen (scoped_relatedRows (fun t ht => h t.name ?_) record.fields) fun _ =>
    .pure trivial
  rw [ht]
  simp

mutual

theorem scoped_attach (v : View) (hs : v.schema.Resolved) (e : Entity) (rows : List Row) :
    ∀ q : Query, q.Named → (∀ n ∈ v.schema.queryTables e q, v.Sees n) →
      Scoped (v.attach e rows q)
  | ⟨_, _, none, none, _, _, _, _, _⟩, _, _ => .ok trivial
  | ⟨_, _, none, some load, _, _, _, _, _⟩, hnamed, h => by
    have hload := (sees_of_queryTables h).2.2.2.2
    rw [attach]
    exact scoped_mapM fun row _ => scoped_attachAll v hs e (.ofRow row) load hnamed.2 hload
  | ⟨_, _, some select, none, _, _, _, _, _⟩, hnamed, h => by
    have hselect := (sees_of_queryTables h).2.2.2.1
    rw [attach]
    refine .andThen (scoped_mapM fun row _ => ?_) fun _ => .pure trivial
    exact scoped_attachAll v hs e (.ofRow row) select hnamed.1 hselect
  | ⟨_, _, some _, some _, _, _, _, _, _⟩, _, _ => .error nofun

theorem scoped_attachAll (v : View) (hs : v.schema.Resolved) (e : Entity) (record : Record) :
    ∀ entries : List (String × Selected), Query.allNamed entries →
      (∀ n ∈ v.schema.entriesTables e entries, v.Sees n) → Scoped (v.attachAll e record entries)
  | [], _, _ => .ok trivial
  | (name, selected) :: rest, hnamed, h => by
    simp only [Schema.entriesTables, List.forall_mem_append] at h
    rw [attachAll]
    refine .andThen (scoped_attachOne v hs e record name selected hnamed.1 h.1) fun record => ?_
    exact scoped_attachAll v hs e record rest hnamed.2 h.2

theorem scoped_attachOne (v : View) (hs : v.schema.Resolved) (e : Entity) (record : Record)
    (name : String) : ∀ selected : Selected, Query.selectedNamed name selected →
      (∀ n ∈ v.schema.selectedTables e (v.schema.target? e name) selected, v.Sees n) →
      Scoped (v.attachOne e record name selected)
  | .flag false, _, _ => .ok trivial
  | .flag true, _, h => by
    rw [attachOne]
    exact scoped_attachPlainly h record
  | .count counts, hnamed, h => by
    have hname : name = "_count" := hnamed
    rw [attachOne, if_pos hname]
    exact scoped_attachCounts hs h record
  | .nested q, hnamed, h => by
    rw [attachOne]
    refine .ite (fun _ => .error nofun) fun _ => .ite (fun _ => .error nofun) fun _ => ?_
    refine .bind (e.scoped_requireRelation name) fun r hr => ?_
    rw [target?_of_relation? hr] at h
    refine .bind (v.schema.scoped_require r.target) fun target htarget => ?_
    rw [htarget] at h
    obtain ⟨hname, hfilter, horder, -, -⟩ := sees_of_queryTables h
    refine .ite (fun _ => .pure trivial) fun _ => ?_
    refine .andThen (scoped_relatedRows (fun t ht => ?_) record.fields) fun related => ?_
    · cases htarget.symm.trans ht
      exact hname
    · refine .andThen (scoped_readRows hfilter horder related) fun rows => ?_
      exact .andThen (scoped_attach v hs target rows q hnamed h) fun _ => .pure trivial

end

end View

end RelationalStore

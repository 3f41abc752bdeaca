import RelationalStore.Engine.Request
import RelationalStore.Proofs.LoadedRelations
import RelationalStore.Proofs.UniqueSelectors

/- Readings that see the rows alone. Two views can show the same rows out of tables that differ in
   the form of their keys, as a table differs from one that was loaded from its file. Where the
   tables keep to the kinds that a schema declares (`Schema.Holds`) and an index is told by its name
   (`Schema.Apt`), every look at them is a look at the rows (`Schema.Holds.rowsWhere_eq`), so that
   every reading of the engine gives the same in both views, or fails in the same way. What the
   recursions carry is that the row they start from keeps to the declared kinds; only then is the
   key that they look for one of those that are in order with the stored keys. -/
namespace RelationalStore
open SortedMap Read

/-- What a schema must be like for every way to look rows up to give the same: foreign keys have
the kinds of what they reference, and the indexes of a table have names of their own. -/
structure Schema.Apt (s : Schema) : Prop where
  resolved : s.Resolved
  distinguishes : ∀ n e, s.entity? n = some e → e.Distinguishes
  kinds : s.KeysOfKinds
  names : ∀ e ∈ s.entities.values, (e.tableDef.indexes.map (·.name)).Nodup

theorem Schema.Apt.nodup_names {s : Schema} (hs : s.Apt) {e : Entity}
    (he : s.entity? e.name = some e) : (e.tableDef.indexes.map (·.name)).Nodup :=
  hs.names e (hs.resolved.mem_values he)

/-! ### Equal readings -/

namespace Read
variable {ε α β : Type} {R : β → Prop} {l : List β}

/-- Readings in a row are equal if the first ones are and the second ones are equal on what the
first one gives. -/
theorem bind_eq {x y : Except ε β} {f g : β → Except ε α} (hxy : x = y)
    (hx : Yields x R fun _ => True) (hfg : ∀ b, R b → f b = g b) : x >>= f = y >>= g := by
  subst hxy
  cases x with
  | error e => rfl
  | ok b => exact hfg b hx

theorem all_cons_eq {a b : Read Bool} {as bs : List (Read Bool)} (h : a = b)
    (hrest : Read.all as = Read.all bs) : Read.all (a :: as) = Read.all (b :: bs) := by
  rw [Read.all, Read.all, h, hrest]

theorem mapM_eq {f g : β → Except ε α} (h : ∀ b ∈ l, f b = g b) : l.mapM f = l.mapM g := by
  induction l with
  | nil => rfl
  | cons b rest ih =>
    rw [List.mapM_cons, List.mapM_cons, h b (by simp), ih fun b hb => h b (by simp [hb])]

theorem foldlM_eq {f g : α → β → Except ε α} {Q : α → Prop}
    (h : ∀ a, Q a → ∀ b ∈ l, f a b = g a b ∧ Yields (f a b) Q fun _ => True) :
    ∀ a, Q a → l.foldlM f a = l.foldlM g a := by
  induction l with
  | nil => exact fun _ _ => rfl
  | cons b rest ih =>
    intro a ha
    rw [List.foldlM_cons, List.foldlM_cons]
    obtain ⟨heq, hgives⟩ := h a ha b (by simp)
    exact bind_eq heq hgives (ih fun a ha b hb => h a ha b (by simp [hb]))

theorem filterAuxM_eq {f g : β → Except ε Bool} (h : ∀ b ∈ l, f b = g b) (acc : List β) :
    l.filterAuxM f acc = l.filterAuxM g acc := by
  induction l generalizing acc with
  | nil => rfl
  | cons b rest ih =>
    rw [List.filterAuxM, List.filterAuxM, h b (by simp)]
    exact congrArg _ (funext fun _ => ih (fun b hb => h b (by simp [hb])) _)

theorem filterM_eq {f g : β → Except ε Bool} (h : ∀ b ∈ l, f b = g b) :
    l.filterM f = l.filterM g := by
  rw [List.filterM, List.filterM, filterAuxM_eq h]

theorem findM?_eq {f g : β → Except ε Bool} (h : ∀ b ∈ l, f b = g b) :
    l.findM? f = l.findM? g := by
  induction l with
  | nil => rfl
  | cons b rest ih =>
    rw [List.findM?, List.findM?, h b (by simp), ih fun b hb => h b (by simp [hb])]

end Read

/-- The row under a key is the first one that has it. -/
theorem Schema.Holds.row?_eq {s : Schema} {κ : String → String → NumberClass} {tables : Tables}
    {e : Entity} {key : Key} (h : s.Holds κ tables) (he : s.entity? e.name = some e)
    (tx : Transaction) (hkey : key.Fits (κ e.name) e.idFields) :
    View.row? ⟨s, tables, tx⟩ e key =
      (View.rows ⟨s, tables, tx⟩ e).map fun rows =>
        (rows.filter fun row => (e.keyOf row).equiv key).head? := by
  rw [View.row?, View.rows]
  cases ht : View.table ⟨s, tables, tx⟩ e with
  | error e => rfl
  | ok t =>
    obtain ⟨-, -, ht⟩ := Transaction.table_ok ht
    have hpath : t.definition.keyPath = e.idFields := by
      rw [h.definition e t he ht]
      rfl
    rw [← hpath] at hkey
    have hfilter := (h.proper.proper ht).toSound.toList_get? hkey
    rw [funext (h.tableDef he ht)] at hfilter
    show Except.ok (t.get? key) = Except.ok (t.toList.filter _).head?
    rw [← hfilter, Option.head?_toList]

namespace View
variable {s : Schema} {κ : String → String → NumberClass} {v v' : View} {e target : Entity}
  {r : Relation} {row : Row} {key : Key}

/-- Two views of one schema with the same rows, each over tables that hold what the schema
declares. -/
structure Twin (s : Schema) (κ : String → String → NumberClass) (v v' : View) : Prop where
  schema : v.schema = s
  schema' : v'.schema = s
  holds : s.Holds κ v.tables
  holds' : s.Holds κ v'.tables
  rows : ∀ e, v.rows e = v'.rows e

/-- The relation that a name in a filter stands for is one of the entity. -/
theorem yields_subject (e : Entity) (name : String) :
    Yields (e.subject name) (fun found => ∀ r, found = .relation r → r ∈ e.relations)
      fun _ => True := by
  rw [Entity.subject]
  split
  · exact .ok (by simp)
  · next _ hr =>
    refine .ok fun r heq => ?_
    cases heq
    exact List.mem_of_find?_eq_some hr
  · exact .ok (by simp)
  · exact .error trivial

namespace Twin
variable (ht : Twin s κ v v') (hs : s.Apt)
include ht

/-- The rows of a view keep to the declared kinds. -/
theorem gives_within : v.Gives fun n row => row.Within (κ n) :=
  fun n t hn _ hrow => ht.holds.within (gives_has s v.tables v.transaction n t hn _ hrow)

theorem require_eq (name : String) : v.schema.require name = v'.schema.require name := by
  rw [ht.schema, ht.schema']

theorem row?_eq (he : s.entity? e.name = some e) (hkey : key.Fits (κ e.name) e.idFields) :
    v.row? e key = v'.row? e key := by
  obtain ⟨schema, tables, tx⟩ := v
  obtain ⟨schema', tables', tx'⟩ := v'
  obtain ⟨rfl, hschema, hholds, hholds', hrows⟩ := ht
  subst hschema
  rw [hholds.row?_eq he tx hkey, hholds'.row?_eq he tx' hkey, hrows]

include hs

theorem yields_require (name : String) :
    Yields (v.schema.require name) (fun t => s.entity? t.name = some t ∧ t.name = name)
      fun _ => True := by
  rw [ht.schema, Schema.require]
  refine .elim (.error trivial) fun t ht => .ok ?_
  have hname := hs.resolved.name ht
  exact ⟨by rw [hname]; exact ht, hname⟩

theorem rowsWhere_eq (he : s.entity? e.name = some e) {fields : List String}
    (hkey : key.Fits (κ e.name) fields) (hnull : key.hasNull = false) :
    v.rowsWhere e fields key = v'.rowsWhere e fields key := by
  have hnames := hs.nodup_names he
  obtain ⟨schema, tables, tx⟩ := v
  obtain ⟨schema', tables', tx'⟩ := v'
  obtain ⟨rfl, hschema, hholds, hholds', hrows⟩ := ht
  subst hschema
  rw [hholds.rowsWhere_eq he (.inr hnames) tx hkey hnull,
    hholds'.rowsWhere_eq he (.inr hnames) tx' hkey hnull, hrows]

theorem relatedRows_eq (he : s.entity? e.name = some e) (hr : r ∈ e.relations)
    (hrow : row.Within (κ e.name)) : v.relatedRows r row = v'.relatedRows r row := by
  rw [relatedRows, relatedRows]
  split
  · rfl
  · next hnull =>
    refine bind_eq (ht.require_eq r.target) (ht.yields_require hs r.target) fun target htarget => ?_
    obtain ⟨htarget, hname⟩ := htarget
    exact rowsWhere_eq ht hs htarget
      (ht.holds.fits_joined hs.resolved hs.kinds he hr (by rw [← hname, htarget]) hrow)
      (by simpa using hnull)

/-- The rows that a relation joins keep to the declared kinds. -/
theorem yields_related (htarget : target.name = r.target) (row : Row) :
    Yields (v.relatedRows r row) (fun rows => ∀ x ∈ rows, x.Within (κ target.name))
      fun _ => True := by
  rw [htarget]
  exact ht.gives_within.relatedRows (by rw [ht.schema]; exact hs.resolved) r row

/-! ### Filters -/

omit hs in
theorem plainTarget_eq (e : Entity) (r : Relation) : v.plainTarget e r = v'.plainTarget e r := by
  rw [plainTarget, plainTarget, ht.require_eq]

theorem yields_plainTarget (e : Entity) (r : Relation) :
    Yields (v.plainTarget e r) (fun t => s.entity? t.name = some t ∧ t.name = r.target)
      fun _ => True := by
  refine .bind (ht.yields_require hs r.target) fun t htarget => ?_
  exact .ite (fun _ => .error trivial) fun _ => .pure htarget

theorem meetsPlainly_eq (he : s.entity? e.name = some e) (hrow : row.Within (κ e.name))
    (name : String) (c : Condition) :
    v.meetsPlainly e row name c = v'.meetsPlainly e row name c := by
  rw [meetsPlainly, meetsPlainly]
  refine bind_eq rfl (yields_subject e name) fun subject hsubject => ?_
  cases subject with
  | field f => rfl
  | compound fields => rfl
  | relation r =>
    refine bind_eq (ht.plainTarget_eq e r) .any fun _ _ => ?_
    rw [ht.relatedRows_eq hs he (hsubject r rfl) hrow]

set_option linter.unusedSectionVars false in
mutual

theorem lets_eq {e : Entity} (he : s.entity? e.name = some e) {row : Row}
    (hrow : row.Within (κ e.name)) : ∀ f : Filter, v.lets e row f = v'.lets e row f
  | ⟨conjuncts, alternatives, exclusions, conditions⟩ => by
    rw [lets.eq_def, lets.eq_def]
    refine all_cons_eq (meetsAll_eq he hrow conditions) (all_cons_eq (letsEach_eq he hrow conjuncts)
      (all_cons_eq ?_ (all_cons_eq (congrArg Read.not (letsAny_eq he hrow exclusions)) rfl)))
    match alternatives with
    | none => rfl
    | some filters => exact letsAny_eq he hrow filters

theorem letsEach_eq {e : Entity} (he : s.entity? e.name = some e) {row : Row}
    (hrow : row.Within (κ e.name)) : ∀ fs : List Filter, v.letsEach e row fs = v'.letsEach e row fs
  | [] => rfl
  | f :: rest => by
    rw [letsEach, letsEach, lets_eq he hrow f, letsEach_eq he hrow rest]

theorem letsAny_eq {e : Entity} (he : s.entity? e.name = some e) {row : Row}
    (hrow : row.Within (κ e.name)) : ∀ fs : List Filter, v.letsAny e row fs = v'.letsAny e row fs
  | [] => rfl
  | f :: rest => by
    rw [letsAny, letsAny, lets_eq he hrow f, letsAny_eq he hrow rest]

theorem meetsAll_eq {e : Entity} (he : s.entity? e.name = some e) {row : Row}
    (hrow : row.Within (κ e.name)) : ∀ conditions : List (String × Condition),
    v.meetsAll e row conditions = v'.meetsAll e row conditions
  | [] => rfl
  | (name, c) :: rest => by
    rw [meetsAll, meetsAll, meetsOne_eq he hrow name c, meetsAll_eq he hrow rest]

theorem meetsOne_eq {e : Entity} (he : s.entity? e.name = some e) {row : Row}
    (hrow : row.Within (κ e.name)) (name : String) : ∀ c : Condition,
    v.meetsOne e row name c = v'.meetsOne e row name c
  | .nested f => by
    rw [meetsOne, meetsOne]
    refine bind_eq rfl (yields_subject e name) fun subject hsubject => ?_
    cases subject with
    | field _ => rfl
    | compound fields => exact lets_eq he hrow f
    | relation r =>
      refine bind_eq (ht.plainTarget_eq e r) (ht.yields_plainTarget hs e r) fun target htarget => ?_
      refine bind_eq (ht.relatedRows_eq hs he (hsubject r rfl) hrow)
        (ht.yields_related hs htarget.2 row) fun rows hrows => ?_
      exact anyM_congr fun x hx => lets_eq htarget.1 (hrows x hx) f
  | .relation test => by
    rw [meetsOne, meetsOne]
    refine bind_eq rfl (yields_subject e name) fun subject hsubject => ?_
    cases subject with
    | field _ => rfl
    | compound _ => rfl
    | relation r => exact meetsTest_eq he (hsubject r rfl) hrow test
  | .isNull => by rw [meetsOne, meetsOne, ht.meetsPlainly_eq hs he hrow]
  | .equals literal => by rw [meetsOne, meetsOne, ht.meetsPlainly_eq hs he hrow]
  | .scalar test => by rw [meetsOne, meetsOne, ht.meetsPlainly_eq hs he hrow]

theorem meetsTest_eq {e : Entity} (he : s.entity? e.name = some e) {r : Relation}
    (hr : r ∈ e.relations) {row : Row} (hrow : row.Within (κ e.name)) : ∀ test : RelationTest,
    v.meetsTest e r row test = v'.meetsTest e r row test
  | ⟨is, isNot, every, someOf, noneOf⟩ => by
    rw [meetsTest, meetsTest]
    refine bind_eq (ht.require_eq r.target) (ht.yields_require hs r.target) fun target htarget => ?_
    obtain ⟨htarget, hname⟩ := htarget
    have hrelated := ht.relatedRows_eq hs he hr hrow
    have hwithin := ht.yields_related hs hname row
    split
    · split
      · rfl
      · refine bind_eq hrelated hwithin fun rows hrows =>
          all_cons_eq ?_ (all_cons_eq ?_ (all_cons_eq ?_ rfl))
        · match every with
          | none => rfl
          | some f => exact allM_congr fun x hx => lets_eq htarget (hrows x hx) f
        · match someOf with
          | none => rfl
          | some f => exact anyM_congr fun x hx => lets_eq htarget (hrows x hx) f
        · match noneOf with
          | none => rfl
          | some f =>
            exact congrArg Read.not (anyM_congr fun x hx => lets_eq htarget (hrows x hx) f)
    · split
      · rfl
      · refine bind_eq hrelated hwithin fun rows hrows => all_cons_eq ?_ (all_cons_eq ?_ rfl)
        · match is with
          | none => rfl
          | some wanted => exact meetsTarget_eq htarget hrows wanted
        · match isNot with
          | none => rfl
          | some unwanted => exact congrArg Read.not (meetsTarget_eq htarget hrows unwanted)

theorem meetsTarget_eq {target : Entity} (htarget : s.entity? target.name = some target)
    {rows : List Row} (hrows : ∀ x ∈ rows, x.Within (κ target.name)) : ∀ wanted : RelationTarget,
    v.meetsTarget target rows wanted = v'.meetsTarget target rows wanted
  | .absent => rfl
  | .passing f => by
    rw [meetsTarget, meetsTarget]
    exact anyM_congr fun x hx => lets_eq htarget (hrows x hx) f

end

theorem select_eq (he : s.entity? e.name = some e) {rows : List Row}
    (hrows : ∀ x ∈ rows, x.Within (κ e.name)) (f : Filter) :
    v.select e rows f = v'.select e rows f :=
  filterM_eq fun x hx => ht.lets_eq hs he (hrows x hx) f

theorem matching_eq (he : s.entity? e.name = some e) (filter : Option Filter) :
    v.matching e filter = v'.matching e filter := by
  rw [matching, matching]
  refine bind_eq (ht.rows e) (ht.gives_within.rows e) fun rows hrows => ?_
  cases filter with
  | none => rfl
  | some f => exact ht.select_eq hs he hrows f

/-- The row that a selector names: the values that it fixes are of the declared kinds. -/
theorem findUnique_eq (he : s.entity? e.name = some e) (selector : Filter) :
    v.findUnique e selector = v'.findUnique e selector := by
  rw [findUnique, findUnique]
  refine Except.bind_congr fun fixed hfixed => ?_
  split
  · rfl
  · next group hselected =>
    obtain ⟨hkey, hnull⟩ := ht.holds.fits_selected hs.resolved he hfixed hselected
    have hnames := hs.nodup_names he
    have hgroup := List.mem_of_find?_eq_some hselected
    have hlets := fun (row : Row) (hrow : row.Within (κ e.name)) => ht.lets_eq hs he hrow selector
    have hwithin := ht.gives_within.rows e
    obtain ⟨schema, tables, tx⟩ := v
    obtain ⟨schema', tables', tx'⟩ := v'
    obtain ⟨rfl, hschema, hholds, hholds', hrows⟩ := ht
    subst hschema
    refine (hholds.candidates_eq he hnames hgroup hkey hnull fun candidates =>
      candidates.findM? fun row => lets ⟨schema', tables, tx⟩ e row selector).trans (.trans ?_
        (hholds'.candidates_eq he hnames hgroup hkey hnull fun candidates =>
          candidates.findM? fun row => lets ⟨schema', tables', tx'⟩ e row selector).symm)
    refine bind_eq (hrows e) hwithin fun rows hrows => ?_
    exact findM?_eq fun x hx => hlets x (hrows x (List.mem_filter.1 hx).1)

/-! ### Orders -/

theorem countKey_eq (he : s.entity? e.name = some e) (hr : r ∈ e.relations) {row : Option Row}
    (hrow : ∀ x ∈ row, x.Within (κ e.name)) : v.countKey r row = v'.countKey r row := by
  cases row with
  | none => rfl
  | some x => rw [countKey, countKey, ht.relatedRows_eq hs he hr (hrow x rfl)]

theorem oneRelated?_eq (he : s.entity? e.name = some e) (hr : r ∈ e.relations) {row : Option Row}
    (hrow : ∀ x ∈ row, x.Within (κ e.name)) : v.oneRelated? r row = v'.oneRelated? r row := by
  cases row with
  | none => rfl
  | some x => rw [oneRelated?, oneRelated?, ht.relatedRows_eq hs he hr (hrow x rfl)]

theorem yields_oneRelated (htarget : target.name = r.target) (row : Option Row) :
    Yields (v.oneRelated? r row) (fun found => ∀ x ∈ found, x.Within (κ target.name))
      fun _ => True := by
  cases row with
  | none => exact .ok (by simp)
  | some x =>
    refine .bind (ht.yields_related hs htarget x) fun rows hrows => .pure fun y hy => ?_
    exact hrows y (List.mem_of_head? hy)

omit ht hs in
theorem yields_requireRelation (e : Entity) (name : String) :
    Yields (e.requireRelation name) (fun r => r ∈ e.relations) fun _ => True :=
  .elim (.error trivial) fun _ hr => .ok (List.mem_of_find?_eq_some hr)

set_option linter.unusedSectionVars false in
mutual

theorem sortKeys_eq {e : Entity} (he : s.entity? e.name = some e) {row : Option Row}
    (hrow : ∀ x ∈ row, x.Within (κ e.name)) : ∀ order : List OrderBy,
    v.sortKeys e row order = v'.sortKeys e row order
  | [] => rfl
  | clause :: rest => by
    rw [sortKeys, sortKeys, clauseKeys_eq he hrow clause, sortKeys_eq he hrow rest]

theorem clauseKeys_eq {e : Entity} (he : s.entity? e.name = some e) {row : Option Row}
    (hrow : ∀ x ∈ row, x.Within (κ e.name)) : ∀ clause : OrderBy,
    v.clauseKeys e row clause = v'.clauseKeys e row clause
  | ⟨name, key⟩ => by rw [clauseKeys, clauseKeys, leafKeys_eq he hrow name key]

theorem leafKeys_eq {e : Entity} (he : s.entity? e.name = some e) {row : Option Row}
    (hrow : ∀ x ∈ row, x.Within (κ e.name)) (name : String) : ∀ key : OrderKey,
    v.leafKeys e row name key = v'.leafKeys e row name key
  | .scalar direction nulls => rfl
  | .count direction => by
    rw [leafKeys, leafKeys]
    refine bind_eq rfl (yields_requireRelation e name) fun r hr => ?_
    rw [ht.countKey_eq hs he hr hrow]
  | .relation clauses => by
    rw [leafKeys, leafKeys]
    refine bind_eq rfl (yields_requireRelation e name) fun r hr => ?_
    split
    · rfl
    · refine bind_eq (ht.require_eq r.target) (ht.yields_require hs r.target)
        fun target htarget => ?_
      exact bind_eq (ht.oneRelated?_eq hs he hr hrow) (ht.yields_oneRelated hs htarget.2 row)
        fun found hfound => sortKeys_eq htarget.1 hfound clauses

end

theorem sort_eq (he : s.entity? e.name = some e) (order : List OrderBy) {rows : List Row}
    (hrows : ∀ x ∈ rows, x.Within (κ e.name)) : v.sort e order rows = v'.sort e order rows := by
  rw [sort, sort]
  have hkeys : ∀ x ∈ rows, v.sortKeys e (some x) order = v'.sortKeys e (some x) order :=
    fun x hx => ht.sortKeys_eq hs he (by simpa using hrows x hx) order
  rw [mapM_eq fun x hx => congrArg (· >>= fun keys => pure (keys, x)) (hkeys x hx)]

theorem readRows_eq (he : s.entity? e.name = some e) (q : Query) {rows : List Row}
    (hrows : ∀ x ∈ rows, x.Within (κ e.name)) : v.readRows e q rows = v'.readRows e q rows := by
  rw [readRows, readRows]
  cases q.filter with
  | none =>
    show v.sort e q.order rows >>= _ = v'.sort e q.order rows >>= _
    rw [ht.sort_eq hs he q.order hrows]
  | some f =>
    refine bind_eq (ht.select_eq hs he hrows f) (reads_select hrows v e f) fun kept hkept => ?_
    show v.sort e q.order kept >>= _ = v'.sort e q.order kept >>= _
    rw [ht.sort_eq hs he q.order hkept]

omit ht hs in
/-- What a query asks for are some of the rows. -/
theorem yields_readRows (v : View) {rows : List Row} {Q : Row → Prop} (hrows : ∀ x ∈ rows, Q x) (q : Query) :
    Yields (v.readRows e q rows) (fun kept => ∀ x ∈ kept, Q x) fun _ => True := by
  refine .of_ok (fun kept h => ?_) fun _ _ => trivial
  exact fun x hx => hrows x ((readRows_subperm h).subset hx)

/-! ### Records -/

theorem attachCount_eq (he : s.entity? e.name = some e) {record : Record}
    (hrecord : record.fields.Within (κ e.name)) {wanted : Relation × Option Filter}
    (hr : wanted.1 ∈ e.relations) : v.attachCount e record wanted = v'.attachCount e record wanted := by
  obtain ⟨r, filter⟩ := wanted
  rw [attachCount, attachCount]
  split
  · rfl
  · obtain ⟨target, htarget⟩ := hs.resolved.target he r hr
    have hname := hs.resolved.name htarget
    refine bind_eq (ht.relatedRows_eq hs he hr hrecord) (ht.yields_related hs hname record.fields)
      fun rows hrows => ?_
    cases filter with
    | none => rfl
    | some f =>
      refine bind_eq (ht.require_eq r.target) (ht.yields_require hs r.target) fun t h => ?_
      rw [ht.select_eq hs h.1 (by rwa [h.2, ← hname]) f]

theorem attachCounts_eq (he : s.entity? e.name = some e) {record : Record}
    (hrecord : record.fields.Within (κ e.name)) (counts : CountSelection) :
    v.attachCounts e record counts = v'.attachCounts e record counts := by
  have hfold : ∀ wanted : List (Relation × Option Filter), (∀ p ∈ wanted, p.1 ∈ e.relations) →
      wanted.foldlM (v.attachCount e) record = wanted.foldlM (v'.attachCount e) record := by
    intro wanted hwanted
    refine foldlM_eq (Q := fun record => record.fields.Within (κ e.name)) ?_ record hrecord
    intro record₁ hrecord₁ p hp
    refine ⟨ht.attachCount_eq hs he hrecord₁ (hwanted p hp), ?_⟩
    refine (yields_attachCount e record₁ p).mono (fun record₂ h => ?_) fun _ h => h
    obtain ⟨n, rfl⟩ := h
    exact hrecord₁
  cases counts with
  | all =>
    refine hfold _ fun p hp => ?_
    obtain ⟨r, hr, rfl⟩ := List.mem_map.1 hp
    exact (List.mem_filter.1 hr).1
  | relations entries =>
    refine bind_eq rfl (.mapM fun entry _ => ?_) hfold
    exact .bind (yields_requireRelation e entry.1) fun r hr => .pure hr

theorem attachPlainly_eq (he : s.entity? e.name = some e) {record : Record}
    (hrecord : record.fields.Within (κ e.name)) (name : String) :
    v.attachPlainly e record name = v'.attachPlainly e record name := by
  rw [attachPlainly, attachPlainly]
  split
  · rfl
  split
  · rfl
  refine bind_eq rfl (yields_requireRelation e name) fun r hr => ?_
  rw [ht.require_eq, ht.relatedRows_eq hs he hr hrecord]

set_option linter.unusedSectionVars false in
mutual

theorem attach_eq {e : Entity} (he : s.entity? e.name = some e) {rows : List Row}
    (hrows : ∀ x ∈ rows, x.Within (κ e.name)) : ∀ q : Query, v.attach e rows q = v'.attach e rows q
  | ⟨_, _, none, none, _, _, _, _, _⟩ => by rw [attach, attach]
  | ⟨_, _, none, some load, _, _, _, _, _⟩ => by
    rw [attach, attach]
    exact mapM_eq fun x hx => attachAll_eq he (hrows x hx) load
  | ⟨_, _, some select, none, _, _, _, _, _⟩ => by
    rw [attach, attach]
    rw [mapM_eq fun x hx => attachAll_eq he (show (Record.ofRow x).fields.Within _ from hrows x hx) select]
  | ⟨_, _, some _, some _, _, _, _, _, _⟩ => by rw [attach, attach]

theorem attachAll_eq {e : Entity} (he : s.entity? e.name = some e) {record : Record}
    (hrecord : record.fields.Within (κ e.name)) : ∀ entries : List (String × Selected),
    v.attachAll e record entries = v'.attachAll e record entries
  | [] => rfl
  | (name, selected) :: rest => by
    rw [attachAll, attachAll]
    have hadds := adds_attachOne (v := v) (hs.distinguishes _ e he) record name selected
    refine bind_eq (attachOne_eq he hrecord name selected) hadds fun record' hrecord' => ?_
    exact attachAll_eq he (by rw [hrecord'.fields]; exact hrecord) rest

theorem attachOne_eq {e : Entity} (he : s.entity? e.name = some e) {record : Record}
    (hrecord : record.fields.Within (κ e.name)) (name : String) : ∀ selected : Selected,
    v.attachOne e record name selected = v'.attachOne e record name selected
  | .flag false => rfl
  | .flag true => by rw [attachOne, attachOne, ht.attachPlainly_eq hs he hrecord]
  | .count counts => by
    rw [attachOne, attachOne, ht.attachPlainly_eq hs he hrecord, ht.attachCounts_eq hs he hrecord]
  | .nested q => by
    rw [attachOne, attachOne]
    split
    · rfl
    split
    · rfl
    refine bind_eq rfl (yields_requireRelation e name) fun r hr => ?_
    refine bind_eq (ht.require_eq r.target) (ht.yields_require hs r.target) fun target htarget => ?_
    split
    · rfl
    refine bind_eq (ht.relatedRows_eq hs he hr hrecord)
      (ht.yields_related hs htarget.2 record.fields) fun rows hrows => ?_
    refine bind_eq (ht.readRows_eq hs htarget.1 q hrows) (yields_readRows v hrows q)
      fun kept hkept => ?_
    rw [attach_eq htarget.1 hkept q]

end

theorem findMany_eq (he : s.entity? e.name = some e) (q : Query) :
    v.findMany e q = v'.findMany e q := by
  rw [findMany, findMany]
  refine bind_eq (ht.rows e) (ht.gives_within.rows e) fun rows hrows => ?_
  refine bind_eq (ht.readRows_eq hs he q hrows) (yields_readRows v hrows q) fun kept hkept => ?_
  exact ht.attach_eq hs he hkept q

theorem record_eq (he : s.entity? e.name = some e) (q : Query) {row : Row}
    (hrow : row.Within (κ e.name)) : v.record e q row = v'.record e q row := by
  rw [record, record, ht.attach_eq hs he (by simpa using hrow) q]

theorem count_eq (he : s.entity? e.name = some e) (q : Query) : v.count e q = v'.count e q := by
  rw [count, count]
  refine bind_eq (ht.rows e) (ht.gives_within.rows e) fun rows hrows => ?_
  rw [ht.readRows_eq hs he q hrows]

end Twin
end View
end RelationalStore

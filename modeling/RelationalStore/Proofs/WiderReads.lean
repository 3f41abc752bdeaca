import RelationalStore.Engine.Request
import RelationalStore.Proofs.UndoLog

/- Readings in a wider transaction. A transaction refuses what lies outside of its tables or would
   write where it may only read (`Error.Refusal`). One that may write to every table refuses
   nothing, and apart from refusals a reading does not tell the two apart: it is refused in the
   first one, or it gives the same in both (`Read.Widens`). There is one rule for each way in which
   readings are put together, and one lemma for each function of the engine; all of them come down
   to the look at a table (`View.Wider.table`). -/
namespace RelationalStore

/-- What a transaction says of a table that it does not let one use. -/
inductive Error.Refusal : Error → Prop where
  | inactive : Refusal .transactionInactive
  | outOfScope (table : String) : Refusal (.tableNotInScope table)
  | readOnly (table : String) : Refusal (.readOnlyTransaction table)

/-- The transaction may write to every table that there is. -/
structure Transaction.Wide (tx : Transaction) (tables : Tables) : Prop where
  active : tx.active = true
  writes : tx.mode = .readWrite
  scope : ∀ n, (tables.get? n).isSome → n ∈ tx.scope

namespace Read
variable {α β : Type}

/-- The first reading is refused, or the second one is the same. -/
abbrev Widens : Except Error α → Except Error α → Prop := Unless Error.Refusal

end Read

open Read

/-- The look at a table that every reading comes down to. -/
theorem Transaction.widens_table {tx ux : Transaction} {tables : Tables} (hux : ux.Wide tables)
    (name : String) : Widens (tx.table tables name) (ux.table tables name) := by
  cases htx : tx.table tables name with
  | ok t =>
    obtain ⟨-, -, hfound⟩ := table_ok htx
    have hscope : name ∈ ux.scope := hux.scope name (by rw [hfound]; rfl)
    have hux : ux.table tables name = .ok t := by simp [table, hux.active, hscope, hfound]
    rw [hux]
    exact .same _
  | error e =>
    have hrefusal : e.Refusal := by
      unfold table at htx
      split at htx
      · cases htx
        exact .inactive
      · split at htx
        · cases hfound : tables.get? name with
          | some t =>
            rw [hfound] at htx
            cases htx
          | none =>
            rw [hfound] at htx
            cases htx
            exact .outOfScope name
        · cases htx
          exact .outOfScope name
    exact .fails hrefusal

namespace View
variable {v v' : View} {e : Entity} {r : Relation} {row : Row}

/-- The second view lets one look at every table that the first one does. -/
structure Wider (v v' : View) : Prop where
  schema : v'.schema = v.schema
  table : ∀ e, Widens (v.table e) (v'.table e)

/-- The views of one work in two transactions, the second of which is wide. -/
theorem wider_of_wide {ux : Transaction} (s : Schema) (tables : Tables) (tx : Transaction)
    (hux : ux.Wide tables) : Wider ⟨s, tables, tx⟩ ⟨s, tables, ux⟩ :=
  ⟨rfl, fun e => Transaction.widens_table hux e.name⟩

namespace Wider
variable (hv : Wider v v')
include hv

theorem require (name : String) : Widens (v.schema.require name) (v'.schema.require name) := by
  rw [hv.schema]
  exact .same _

theorem rows (e : Entity) : Widens (v.rows e) (v'.rows e) := (hv.table e).bind fun _ => .same _

theorem row? (e : Entity) (key : Key) : Widens (v.row? e key) (v'.row? e key) :=
  (hv.table e).bind fun _ => .same _

theorem rowsWhere (e : Entity) (fields : List String) (key : Key) :
    Widens (v.rowsWhere e fields key) (v'.rowsWhere e fields key) :=
  (hv.table e).bind fun _ => .same _

theorem relatedRows (r : Relation) (row : Row) :
    Widens (v.relatedRows r row) (v'.relatedRows r row) := by
  rw [View.relatedRows, View.relatedRows]
  refine .ite (fun _ => .same _) fun _ => ?_
  exact (hv.require r.target).bind fun target => hv.rowsWhere target r.far _

/-! ### Filters -/

theorem plainTarget (e : Entity) (r : Relation) :
    Widens (v.plainTarget e r) (v'.plainTarget e r) :=
  (hv.require r.target).bind fun _ => .same _

theorem meetsPlainly (e : Entity) (row : Row) (name : String) (c : Condition) :
    Widens (v.meetsPlainly e row name c) (v'.meetsPlainly e row name c) := by
  rw [View.meetsPlainly, View.meetsPlainly]
  refine .bind (.same _) fun subject => ?_
  cases subject with
  | field f => exact .same _
  | compound fields => exact .same _
  | relation r =>
    refine (hv.plainTarget e r).bind fun _ => ?_
    cases c with
    | isNull => exact (hv.relatedRows r row).bind fun _ => .same _
    | _ => exact .same _

set_option linter.unusedSectionVars false in
mutual

theorem lets (e : Entity) (row : Row) : ∀ f : Filter, Widens (v.lets e row f) (v'.lets e row f)
  | ⟨conjuncts, alternatives, exclusions, conditions⟩ => by
    rw [View.lets.eq_def, View.lets.eq_def]
    refine .all_cons (meetsAll e row conditions) (.all_cons (letsEach e row conjuncts)
      (.all_cons ?_ (.all_cons (.not (letsAny e row exclusions)) (.same _))))
    match alternatives with
    | none => exact .same _
    | some filters => exact letsAny e row filters

theorem letsEach (e : Entity) (row : Row) : ∀ fs : List Filter,
    Widens (v.letsEach e row fs) (v'.letsEach e row fs)
  | [] => .same _
  | f :: rest => by
    rw [View.letsEach, View.letsEach]
    exact (lets e row f).and (letsEach e row rest)

theorem letsAny (e : Entity) (row : Row) : ∀ fs : List Filter,
    Widens (v.letsAny e row fs) (v'.letsAny e row fs)
  | [] => .same _
  | f :: rest => by
    rw [View.letsAny, View.letsAny]
    exact (lets e row f).bind fun _ => .ite (fun _ => .same _) fun _ => letsAny e row rest

theorem meetsAll (e : Entity) (row : Row) : ∀ conditions : List (String × Condition),
    Widens (v.meetsAll e row conditions) (v'.meetsAll e row conditions)
  | [] => .same _
  | (name, c) :: rest => by
    rw [View.meetsAll, View.meetsAll]
    exact (meetsOne e row name c).and (meetsAll e row rest)

theorem meetsOne (e : Entity) (row : Row) (name : String) : ∀ c : Condition,
    Widens (v.meetsOne e row name c) (v'.meetsOne e row name c)
  | .nested f => by
    rw [View.meetsOne, View.meetsOne]
    refine .bind (.same _) fun subject => ?_
    cases subject with
    | field _ => exact .same _
    | compound _ => exact lets e row f
    | relation r =>
      refine (hv.plainTarget e r).bind fun target => (hv.relatedRows r row).bind fun related => ?_
      exact .anyM fun x _ => lets target x f
  | .relation test => by
    rw [View.meetsOne, View.meetsOne]
    refine .bind (.same _) fun subject => ?_
    cases subject with
    | field _ => exact .same _
    | compound _ => exact .same _
    | relation r => exact meetsTest e r row test
  | .isNull => by
    rw [View.meetsOne, View.meetsOne]
    exact hv.meetsPlainly e row name .isNull
  | .equals literal => by
    rw [View.meetsOne, View.meetsOne]
    exact hv.meetsPlainly e row name (.equals literal)
  | .scalar test => by
    rw [View.meetsOne, View.meetsOne]
    exact hv.meetsPlainly e row name (.scalar test)

theorem meetsTest (e : Entity) (r : Relation) (row : Row) : ∀ test : RelationTest,
    Widens (v.meetsTest e r row test) (v'.meetsTest e r row test)
  | ⟨is, isNot, every, someOf, noneOf⟩ => by
    rw [View.meetsTest, View.meetsTest]
    refine (hv.require r.target).bind fun target => .ite (fun _ => ?_) fun _ => ?_
    · refine .ite (fun _ => .same _) fun _ => (hv.relatedRows r row).bind fun related => ?_
      refine .all_cons ?_ (.all_cons ?_ (.all_cons ?_ (.same _)))
      · match every with
        | none => exact .same _
        | some f => exact .allM fun x _ => lets target x f
      · match someOf with
        | none => exact .same _
        | some f => exact .anyM fun x _ => lets target x f
      · match noneOf with
        | none => exact .same _
        | some f => exact .not (.anyM fun x _ => lets target x f)
    · refine .ite (fun _ => .same _) fun _ => (hv.relatedRows r row).bind fun related => ?_
      refine .all_cons ?_ (.all_cons ?_ (.same _))
      · match is with
        | none => exact .same _
        | some wanted => exact meetsTarget target related wanted
      · match isNot with
        | none => exact .same _
        | some unwanted => exact .not (meetsTarget target related unwanted)

theorem meetsTarget (target : Entity) (related : List Row) : ∀ wanted : RelationTarget,
    Widens (v.meetsTarget target related wanted) (v'.meetsTarget target related wanted)
  | .absent => .same _
  | .passing f => by
    rw [View.meetsTarget, View.meetsTarget]
    exact .anyM fun x _ => lets target x f

end

theorem select (e : Entity) (rows : List Row) (f : Filter) :
    Widens (v.select e rows f) (v'.select e rows f) :=
  .filterM fun x _ => hv.lets e x f

theorem matching (e : Entity) (filter : Option Filter) :
    Widens (v.matching e filter) (v'.matching e filter) := by
  rw [View.matching, View.matching]
  refine (hv.rows e).bind fun rows => ?_
  cases filter with
  | none => exact .same _
  | some f => exact hv.select e rows f

theorem findUnique (e : Entity) (selector : Filter) :
    Widens (v.findUnique e selector) (v'.findUnique e selector) := by
  rw [View.findUnique, View.findUnique]
  refine .bind (.same _) fun fixed => ?_
  split
  · exact .same _
  · next group _ =>
    have hfind (candidates : List Row) :
        Widens (candidates.findM? fun row => v.lets e row selector)
          (candidates.findM? fun row => v'.lets e row selector) :=
      .findM? fun x _ => hv.lets e x selector
    refine .ite (fun _ => ?_) fun _ => ?_
    · exact (hv.row? e _).bind fun found => hfind found.toList
    · exact (hv.table e).bind fun t => .bind (.same _) hfind

/-! ### Orders -/

theorem countKey (r : Relation) (row : Option Row) :
    Widens (v.countKey r row) (v'.countKey r row) := by
  cases row with
  | none => exact .same _
  | some x => exact (hv.relatedRows r x).bind fun _ => .same _

theorem oneRelated? (r : Relation) (row : Option Row) :
    Widens (v.oneRelated? r row) (v'.oneRelated? r row) := by
  cases row with
  | none => exact .same _
  | some x => exact (hv.relatedRows r x).bind fun _ => .same _

set_option linter.unusedSectionVars false in
mutual

theorem sortKeys (e : Entity) (row : Option Row) : ∀ order : List OrderBy,
    Widens (v.sortKeys e row order) (v'.sortKeys e row order)
  | [] => .same _
  | clause :: rest => by
    rw [View.sortKeys, View.sortKeys]
    refine (clauseKeys e row clause).bind fun keys => ?_
    exact (sortKeys e row rest).bind fun _ => .same _

theorem clauseKeys (e : Entity) (row : Option Row) : ∀ clause : OrderBy,
    Widens (v.clauseKeys e row clause) (v'.clauseKeys e row clause)
  | ⟨name, key⟩ => by
    rw [View.clauseKeys, View.clauseKeys]
    exact leafKeys e row name key

theorem leafKeys (e : Entity) (row : Option Row) (name : String) : ∀ key : OrderKey,
    Widens (v.leafKeys e row name key) (v'.leafKeys e row name key)
  | .scalar direction nulls => .same _
  | .count direction => by
    rw [View.leafKeys, View.leafKeys]
    refine .bind (.same _) fun r => .ite (fun _ => .same _) fun _ => ?_
    exact (hv.countKey r row).bind fun _ => .same _
  | .relation clauses => by
    rw [View.leafKeys, View.leafKeys]
    refine .bind (.same _) fun r => .ite (fun _ => .same _) fun _ => ?_
    refine (hv.require r.target).bind fun target => (hv.oneRelated? r row).bind fun found => ?_
    exact sortKeys target found clauses

end

theorem sort (e : Entity) (order : List OrderBy) (rows : List Row) :
    Widens (v.sort e order rows) (v'.sort e order rows) := by
  refine .bind (.mapM fun x _ => ?_) fun _ => .same _
  exact (hv.sortKeys e (some x) order).bind fun _ => .same _

theorem readRows (e : Entity) (q : Query) (rows : List Row) :
    Widens (v.readRows e q rows) (v'.readRows e q rows) := by
  rw [View.readRows, View.readRows]
  have hcut (kept : List Row) : Widens
      (v.sort e q.order kept >>= fun rows => do
        q.distinct.forM fun field => discard (e.requireField field)
        let rows := if q.distinct.isEmpty then rows else firstPerKey q.distinct rows
        let rows := rows.drop (q.skip.getD 0)
        return q.take.elim rows rows.take)
      (v'.sort e q.order kept >>= fun rows => do
        q.distinct.forM fun field => discard (e.requireField field)
        let rows := if q.distinct.isEmpty then rows else firstPerKey q.distinct rows
        let rows := rows.drop (q.skip.getD 0)
        return q.take.elim rows rows.take) :=
    (hv.sort e q.order kept).bind fun _ => .same _
  cases q.filter with
  | none => exact hcut rows
  | some f => exact (hv.select e rows f).bind hcut

/-! ### Records -/

theorem attachCount (e : Entity) (record : Record) (wanted : Relation × Option Filter) :
    Widens (v.attachCount e record wanted) (v'.attachCount e record wanted) := by
  obtain ⟨r, filter⟩ := wanted
  rw [View.attachCount, View.attachCount]
  refine .ite (fun _ => .same _) fun _ => (hv.relatedRows r record.fields).bind fun rows => ?_
  cases filter with
  | none => exact .same _
  | some f =>
    refine (hv.require r.target).bind fun target => ?_
    exact (hv.select target rows f).bind fun _ => .same _

theorem attachCounts (e : Entity) (record : Record) (counts : CountSelection) :
    Widens (v.attachCounts e record counts) (v'.attachCounts e record counts) := by
  have hfold (wanted : List (Relation × Option Filter)) :
      Widens (wanted.foldlM (v.attachCount e) record) (wanted.foldlM (v'.attachCount e) record) :=
    .foldlM (fun record p _ => hv.attachCount e record p) record
  cases counts with
  | all => exact hfold _
  | relations entries => exact .bind (.same _) hfold

theorem attachPlainly (e : Entity) (record : Record) (name : String) :
    Widens (v.attachPlainly e record name) (v'.attachPlainly e record name) := by
  rw [View.attachPlainly, View.attachPlainly]
  refine .ite (fun _ => .same _) fun _ => .ite (fun _ => .same _) fun _ => .bind (.same _) fun r => ?_
  refine .bind ((hv.require r.target).bind fun _ => .same _) fun _ => .ite (fun _ => .same _) fun _ => ?_
  exact (hv.relatedRows r record.fields).bind fun _ => .same _

set_option linter.unusedSectionVars false in
mutual

theorem attach (e : Entity) (rows : List Row) : ∀ q : Query,
    Widens (v.attach e rows q) (v'.attach e rows q)
  | ⟨_, _, none, none, _, _, _, _, _⟩ => by
    rw [View.attach, View.attach]
    exact .same _
  | ⟨_, _, none, some load, _, _, _, _, _⟩ => by
    rw [View.attach, View.attach]
    exact .mapM fun x _ => attachAll e (.ofRow x) load
  | ⟨_, _, some select, none, _, _, _, _, _⟩ => by
    rw [View.attach, View.attach]
    exact .bind (.mapM fun x _ => attachAll e (.ofRow x) select) fun _ => .same _
  | ⟨_, _, some _, some _, _, _, _, _, _⟩ => by
    rw [View.attach, View.attach]
    exact .same _

theorem attachAll (e : Entity) (record : Record) : ∀ entries : List (String × Selected),
    Widens (v.attachAll e record entries) (v'.attachAll e record entries)
  | [] => .same _
  | (name, selected) :: rest => by
    rw [View.attachAll, View.attachAll]
    exact (attachOne e record name selected).bind fun record => attachAll e record rest

theorem attachOne (e : Entity) (record : Record) (name : String) : ∀ selected : Selected,
    Widens (v.attachOne e record name selected) (v'.attachOne e record name selected)
  | .flag false => .same _
  | .flag true => by
    rw [View.attachOne, View.attachOne]
    exact hv.attachPlainly e record name
  | .count counts => by
    rw [View.attachOne, View.attachOne]
    exact .ite (fun _ => hv.attachCounts e record counts) fun _ => hv.attachPlainly e record name
  | .nested q => by
    rw [View.attachOne, View.attachOne]
    refine .ite (fun _ => .same _) fun _ => .ite (fun _ => .same _) fun _ => .bind (.same _) fun r => ?_
    refine (hv.require r.target).bind fun target => .ite (fun _ => .same _) fun _ => ?_
    refine (hv.relatedRows r record.fields).bind fun rows => ?_
    refine (hv.readRows target q rows).bind fun kept => ?_
    exact (attach target kept q).bind fun _ => .same _

end

theorem findMany (e : Entity) (q : Query) : Widens (v.findMany e q) (v'.findMany e q) := by
  refine (hv.rows e).bind fun rows => (hv.readRows e q rows).bind fun kept => ?_
  exact hv.attach e kept q

theorem record (e : Entity) (q : Query) (row : Row) :
    Widens (v.record e q row) (v'.record e q row) :=
  (hv.attach e [row] q).bind fun _ => .same _

theorem count (e : Entity) (q : Query) : Widens (v.count e q) (v'.count e q) :=
  (hv.rows e).bind fun rows => (hv.readRows e q rows).bind fun _ => .same _

end Wider

end View

end RelationalStore

import RelationalStore.Proofs.ClientRuns
import RelationalStore.Proofs.ScopedDelete

/- Requests that read or delete, put without a transaction, never fail for want of a table. Such a
   request opens a transaction over the tables that the walk finds; they all exist when it is open,
   and reading and deleting stay within them. -/
namespace RelationalStore
open SortedMap Read

/-! ### Beginning and ending a transaction -/

/-- Why a transaction cannot be begun or committed. -/
inductive Error.OfStore : Error → Prop
  | inactive : OfStore .transactionInactive
  | missing (name : String) : OfStore (.tableNotFound name)
  | locked (name : String) : OfStore (.wouldBlock name)
  | storage (fault : StorageFault) : OfStore (.storage fault)

theorem Error.OfStore.inScope {err : Error} (h : err.OfStore) : err.InScope := by
  cases h <;> exact nofun

namespace Directory

/-- The action fails, if it does, with an error of the storage. -/
abbrev Stores {α : Type} (action : Directory.Action α) : Prop :=
  Operation.Keeps (fun _ : Directory => True) action (fun _ => True) Error.OfStore

theorem stores_write (path text : String) : Stores (write path text) := by
  refine Operation.Triple.get fun d _ => Operation.Triple.ite (fun _ => ?_) fun _ => ?_
  · exact fun _ _ => ⟨trivial, trivial⟩
  · exact Operation.Triple.throw fun _ _ => ⟨trivial, .storage _⟩

theorem stores_read (path : String) : Stores (read path) := by
  refine Operation.Triple.get fun d _ => ?_
  split
  · exact Operation.Triple.pure fun _ _ => ⟨trivial, trivial⟩
  · exact Operation.Triple.throw fun _ _ => ⟨trivial, .storage _⟩

theorem stores_rename (source target : String) : Stores (rename source target) := by
  refine Operation.Keeps.andThen (stores_read source) fun text => ?_
  refine Operation.Keeps.andThen (stores_write target text) fun _ => ?_
  exact Operation.Triple.modify fun _ _ => ⟨trivial, trivial⟩

theorem stores_commit (message : String) : Stores (commit message) := by
  refine Operation.Triple.get fun d _ => ?_
  split
  · exact Operation.Triple.throw fun _ _ => ⟨trivial, .storage _⟩
  · refine Operation.Triple.ite (fun _ => ?_) fun _ => ?_
    · exact fun _ _ => ⟨trivial, trivial⟩
    · exact Operation.Triple.pure fun _ _ => ⟨trivial, trivial⟩

end Directory

namespace Disk
open Directory Operation

theorem stores_stage (t : Table) : Stores (stage t) := by
  unfold stage
  split
  · exact stores_write _ _
  · exact Keeps.throw (.storage _)

theorem stores_stageAll (tables : List Table) :
    ∀ staged : List String, Stores (stageAll staged tables) := by
  induction tables with
  | nil => exact fun _ => Keeps.pure trivial
  | cons t rest ih =>
    intro staged
    refine Keeps.andThen (Triple.tryCatch (stores_stage t) fun e => ?_) fun _ => ih _
    refine Triple.bind (R := fun _ _ => e.OfStore) (Triple.modify fun _ h => h.2) fun _ => ?_
    exact Triple.throw fun _ h => ⟨trivial, h⟩

theorem publishAll_fails (tables : List Table) : ∀ (published : List String) (d : Directory),
    Yields (publishAll published tables d).2.1 (fun _ => True) Error.OfStore := by
  induction tables with
  | nil => exact fun _ _ => .ok trivial
  | cons t rest ih =>
    intro published d
    have hpublish := stores_rename (stagedPath t.name) (tablePath t.name) d trivial
    rw [publishAll]
    cases hrun : (publish t.name).run d with
    | ok _ d' => exact ih _ d'
    | error e d' =>
      rw [publish] at hrun
      rw [hrun] at hpublish
      exact .error hpublish.2

theorem flush_fails (git : Bool) (message : String) (tables : List Table) (d : Directory) :
    Yields (flush git message tables d).2.1 (fun _ => True) Error.OfStore := by
  unfold flush
  have hstage := stores_stageAll tables [] d trivial
  cases hs : (stageAll [] tables).run d with
  | error e d' =>
    rw [hs] at hstage
    exact .error hstage.2
  | ok _ d' =>
    simp only
    have hpublish := publishAll_fails tables [] d'
    split
    · next heq =>
      rw [heq] at hpublish
      exact hpublish
    · next d'' heq =>
      have hrecord : Stores (record git message) :=
        Triple.ite (fun _ => stores_commit message) fun _ => Keeps.pure trivial
      have hrecord := hrecord d'' trivial
      split
      · exact .ok trivial
      · next hr =>
        rw [hr] at hrecord
        exact .error hrecord.2

end Disk

namespace Store
variable {s : Store}

theorem commitTransaction_fails (tx : Transaction) :
    Yields (s.commitTransaction tx).1 (fun _ => True) Error.OfStore := by
  unfold commitTransaction
  split
  · exact .error .inactive
  · split
    · exact .ok trivial
    · next b _ =>
      split
      · exact .ok trivial
      · simp only
        split
        · exact .ok trivial
        · next heq =>
          have hflush := Disk.flush_fails b.git
            (s!"Transaction {tx.id}: write " ++ ", ".intercalate tx.dirty)
            (tablesOf s.tables tx.dirty) b.directory
          rw [heq] at hflush
          exact hflush

theorem commit_fails (id : Nat) : Yields (s.commit id).1 (fun _ => True) Error.OfStore := by
  unfold commit
  split
  · exact commitTransaction_fails _
  · exact .error .inactive

/-- A transaction is opened over tables that exist. -/
theorem acquire_fails (mode : TransactionMode) (names : List String) :
    Yields (s.acquire mode names) (fun _ => ∀ n ∈ names, (s.tables.get? n).isSome)
      Error.OfStore := by
  induction names with
  | nil => exact .ok (by simp)
  | cons n rest ih =>
    rw [acquire]
    by_cases hfound : s.tables.contains n
    · simp only [hfound, Bool.not_true, Bool.false_eq_true, if_false]
      refine .ite (fun _ => .error (.locked n)) fun _ => ih.mono (fun _ hrest => ?_) fun _ he => he
      rw [List.forall_mem_cons]
      refine ⟨?_, hrest⟩
      rw [SortedMap.get?, Option.isSome_map]
      exact hfound
    · simp only [hfound]
      exact .error (.missing n)

end Store

namespace Client
variable {c : Client} {α : Type}

theorem run_inScope {tx : Transaction} {op : Operation α} {e : Error} {c' : Client}
    (hop : Operation.Scoped tx.scope op) (hexist : ∀ n ∈ tx.scope, (c.store.tables.get? n).isSome)
    (hrun : c.run tx op = (.error e, c')) : e.InScope := by
  have hstays := hop ⟨c.store.tables, tx, c.supply, [], []⟩ ⟨rfl, hexist⟩
  unfold run at hrun
  simp only at hrun
  split at hrun
  · cases hrun
  · next heq =>
    rw [heq] at hstays
    cases hrun
    exact hstays.2

/-- An operation that stays in every scope with its tables, in a transaction of its own. -/
theorem runAlone_inScope (hnumbered : c.store.Numbered) {tables : List String}
    (mode : TransactionMode) {op : Operation α}
    (hop : ∀ scope : List String, (∀ n ∈ tables, n ∈ scope) → Operation.Scoped scope op) :
    Yields (c.runAlone tables mode op).result (fun _ => True) Error.InScope := by
  have hacquire := Store.acquire_fails (s := c.store) mode (SortedSet.ofList tables).keys
  have hruns := c.runsAlone tables mode op
  generalize c.runAlone tables mode op = o at hruns ⊢
  cases hruns with
  | refused hb =>
    cases ha : c.store.acquire mode (SortedSet.ofList tables).keys with
    | ok u => simp [Store.beginTransaction, ha, bind, Except.bind, pure, Except.pure] at hb
    | error e' =>
      rw [ha] at hacquire
      simp only [Store.beginTransaction, ha] at hb
      cases hb
      exact .error hacquire.inScope
  | missing hb htx => cases htx.symm.trans (hnumbered.transaction?_begin hb)
  | @failed _ store _ _ _ hb htx hrun =>
    have hfresh := hnumbered.transaction?_begin hb
    rw [htx] at hfresh
    cases hfresh
    obtain ⟨hlocks, -, hstore⟩ := Store.beginTransaction_ok hb
    rw [hlocks] at hacquire
    refine .error (run_inScope (hop _ fun n hn => mem_keys_set.2 hn) (fun n hn => ?_) hrun)
    show (store.tables.get? n).isSome
    rw [hstore]
    exact hacquire n hn
  | @uncommitted id _ _ _ _ c' _ _ _ _ hcommit =>
    have hfails := Store.commit_fails (s := c'.store) id
    rw [hcommit] at hfails
    exact .error hfails.inScope
  | done => exact .ok trivial

/-- A request whose operation stays in every scope with the tables that the walk finds. -/
theorem ask_inScope (hnumbered : c.store.Numbered) (hs : c.schema.Resolved) (entity : String)
    {r : Request α}
    (hop : ∀ (e : Entity) (scope : List String), c.schema.entity? e.name = some e →
      (∀ n ∈ c.schema.neededTables e r.query r.access, n ∈ scope) →
      Operation.Scoped scope (r.operation c.schema e)) :
    Yields (c.ask entity r none).result (fun _ => True) Error.InScope := by
  unfold ask
  have hrequire := c.schema.scoped_require entity
  cases he : c.schema.require entity with
  | error e =>
    rw [he] at hrequire
    exact .error hrequire
  | ok e =>
    rw [he] at hrequire
    have hname : c.schema.entity? e.name = some e := by
      rw [hs.name hrequire]
      exact hrequire
    exact runAlone_inScope hnumbered _ fun scope hscope => hop e scope hname hscope

end Client

/-! ### Reading and deleting -/

/-- The requests that read or delete what a query asks for. -/
inductive Request.Searches (q : Query) : {α : Type} → Request α → Prop
  | findMany : Searches q (.findMany q)
  | findFirst : Searches q (.findFirst q)
  | findFirstOrThrow : Searches q (.orThrow (.findFirst q))
  | findUnique : Searches q (.findUnique q)
  | findUniqueOrThrow : Searches q (.orThrow (.findUnique q))
  | count : Searches q (.count q)
  | delete : Searches q (.delete q)
  | deleteMany : Searches q (.deleteMany q)

namespace View
variable {v : View} {e : Entity} {q : Query}

theorem scoped_findMany (hs : v.schema.Resolved) (hq : q.Named)
    (h : ∀ n ∈ v.schema.queryTables e q, v.Sees n) : Scoped (v.findMany e q) := by
  obtain ⟨hname, hfilter, horder, -, -⟩ := sees_of_queryTables h
  refine .andThen (scoped_rows hname) fun rows => ?_
  exact .andThen (scoped_readRows hfilter horder rows) fun rows => scoped_attach v hs e rows q hq h

theorem scoped_record (hs : v.schema.Resolved) (hq : q.Named)
    (h : ∀ n ∈ v.schema.queryTables e q, v.Sees n) (row : Row) : Scoped (v.record e q row) := by
  refine .andThen (scoped_attach v hs e [row] q hq h) fun records => ?_
  split
  · exact .pure trivial
  · exact .throw nofun

theorem scoped_matching (h : ∀ n ∈ v.schema.queryTables e q, v.Sees n) :
    Scoped (v.matching e q.filter) := by
  obtain ⟨hname, hfilter, -⟩ := sees_of_queryTables h
  refine .andThen (scoped_rows hname) fun rows => ?_
  split
  · next f hf => exact scoped_select (hfilter f hf) rows
  · exact .pure trivial

theorem scoped_count (h : ∀ n ∈ v.schema.queryTables e q, v.Sees n) : Scoped (v.count e q) := by
  obtain ⟨hname, hfilter, horder, -, -⟩ := sees_of_queryTables h
  refine .andThen (scoped_rows hname) fun rows => ?_
  refine .andThen (scoped_readRows hfilter horder rows) fun rows => ?_
  split
  · exact .pure trivial
  · refine .andThen (scoped_mapM fun name _ => .andThen ?_ fun _ => .pure trivial) fun _ =>
      .pure trivial
    refine .ite (fun _ => .pure trivial) fun _ => ?_
    exact .andThen (.andThen (e.scoped_requireField name) fun _ => .pure trivial) fun _ =>
      .pure trivial

/-- The row that the selector of a query names. -/
theorem scoped_selected (h : ∀ n ∈ v.schema.queryTables e q, v.Sees n) {selector : Filter}
    (hselector : q.filter = some selector) : Scoped (v.findUnique e selector) := by
  obtain ⟨hname, hfilter, -⟩ := sees_of_queryTables h
  exact scoped_findUnique hname (hfilter selector hselector)

end View

theorem Operation.requireSelector_inScope (e : Entity) (q : Query) :
    Yields (requireSelector e q) (fun f => q.filter = some f) Error.InScope := by
  unfold requireSelector
  cases q.filter with
  | none => exact .error nofun
  | some f => exact .ok rfl

theorem Operation.requireFound_inScope {α : Type} (e : Entity) (found : Option α) :
    Read.Scoped (requireFound e found) :=
  .elim (.error nofun) fun _ _ => .ok trivial

namespace Request
variable {s : Schema} {e : Entity} {q : Query} {scope : List String} {α : Type}

theorem scoped_findMany (hs : s.Resolved) (hq : q.Named)
    (h : ∀ n ∈ s.queryTables e q, n ∈ scope) :
    Operation.Scoped scope ((findMany q).operation s e) := by
  simp only [findMany]
  refine Operation.scoped_look fun v hv hsees => ?_
  subst hv
  exact View.scoped_findMany hs hq fun n hn => hsees n (h n hn)

theorem scoped_findFirst (hs : s.Resolved) (hq : q.Named)
    (h : ∀ n ∈ s.queryTables e (first q), n ∈ scope) :
    Operation.Scoped scope ((findFirst q).operation s e) := by
  have hfirst : (first q).Named := by
    rw [Query.named_iff] at hq ⊢
    exact hq
  exact Operation.Keeps.andThen (scoped_findMany hs hfirst h) fun _ => Operation.Keeps.pure trivial

theorem scoped_findUnique (hs : s.Resolved) (hq : q.Named)
    (h : ∀ n ∈ s.queryTables e q, n ∈ scope) :
    Operation.Scoped scope ((findUnique q).operation s e) := by
  simp only [findUnique]
  refine Operation.scoped_look fun v hv hsees => ?_
  subst hv
  have hsees := fun n hn => hsees n (h n hn)
  refine .bind (Operation.requireSelector_inScope e q) fun selector hselector => ?_
  refine .andThen (View.scoped_selected hsees hselector) fun row => ?_
  exact .andThen (View.scoped_attach v hs e row.toList q hq hsees) fun _ => .pure trivial

theorem scoped_orThrow {r : Request (Option Record)}
    (h : Operation.Scoped scope (r.operation s e)) :
    Operation.Scoped scope ((orThrow r).operation s e) :=
  Operation.Keeps.andThen h fun found =>
    Operation.scoped_ofExcept (Operation.requireFound_inScope e found)

theorem scoped_count (h : ∀ n ∈ s.queryTables e q, n ∈ scope) :
    Operation.Scoped scope ((count q).operation s e) := by
  simp only [count]
  refine Operation.scoped_look fun v hv hsees => ?_
  subst hv
  exact View.scoped_count fun n hn => hsees n (h n hn)

theorem scoped_delete (hs : s.Resolved) (hq : q.Named) (he : s.entity? e.name = some e)
    (h : ∀ n ∈ s.queryTables e q, n ∈ scope) (hroot : Operation.DeletesWithin s e scope) :
    Operation.Scoped scope ((delete q).operation s e) := by
  have hname : e.name ∈ scope := h e.name (by cases q; exact List.mem_cons_self)
  simp only [delete]
  refine Operation.Keeps.bind
    (Operation.Keeps.ofExcept (Operation.requireSelector_inScope e q)) fun selector hselector => ?_
  refine Operation.Keeps.andThen (Operation.scoped_look fun v hv hsees => ?_) fun row => ?_
  · subst hv
    refine .andThen (View.scoped_selected (fun n hn => hsees n (h n hn)) hselector) fun row => ?_
    exact Operation.requireFound_inScope e row
  · refine Operation.Keeps.andThen (Operation.scoped_look fun v hv hsees => ?_) fun record => ?_
    · subst hv
      exact View.scoped_record hs hq (fun n hn => hsees n (h n hn)) row
    · exact Operation.Keeps.andThen (Operation.scoped_delete hs hroot he hname row) fun _ =>
        Operation.Keeps.pure trivial

theorem scoped_deleteMany (hs : s.Resolved) (he : s.entity? e.name = some e)
    (h : ∀ n ∈ s.queryTables e q, n ∈ scope) (hroot : Operation.DeletesWithin s e scope) :
    Operation.Scoped scope ((deleteMany q).operation s e) := by
  have hname : e.name ∈ scope := h e.name (by cases q; exact List.mem_cons_self)
  simp only [deleteMany]
  refine Operation.Keeps.andThen (Operation.scoped_look fun v hv hsees => ?_) fun rows => ?_
  · subst hv
    exact View.scoped_matching fun n hn => hsees n (h n hn)
  · refine Operation.Keeps.foldlM trivial fun n _ row _ => ?_
    refine Operation.Keeps.andThen
      (Operation.scoped_look fun v _ hsees => View.scoped_row? (hsees _ hname) _) fun found => ?_
    split
    · exact Operation.Keeps.andThen (Operation.scoped_delete hs hroot he hname _) fun _ =>
        Operation.Keeps.pure trivial
    · exact Operation.Keeps.pure trivial

/-- The walk finds the tables of the query, and for a deletion those that it can come to. -/
theorem of_neededTables {access : Access} (hs : s.Resolved) (he : s.entity? e.name = some e)
    (h : ∀ n ∈ s.neededTables e q access, n ∈ scope) :
    (∀ n ∈ s.queryTables e q, n ∈ scope) ∧
      (access = .delete → Operation.DeletesWithin s e scope) := by
  refine ⟨fun n hn => h n (mem_keys_set.2 (List.mem_append_left _ hn)), ?_⟩
  intro haccess
  subst haccess
  exact ⟨(Schema.closed_cascadeClosure hs he).2,
    fun n hn => h n (mem_keys_set.2 (List.mem_append_right _ hn))⟩

theorem Searches.scoped {r : Request α} (hr : r.Searches q) (hs : s.Resolved) (hq : q.Named)
    (he : s.entity? e.name = some e) (h : ∀ n ∈ s.neededTables e r.query r.access, n ∈ scope) :
    Operation.Scoped scope (r.operation s e) := by
  obtain ⟨hquery, hroot⟩ := of_neededTables hs he h
  cases hr with
  | findMany => exact scoped_findMany hs hq hquery
  | findFirst => exact scoped_findFirst hs hq hquery
  | findFirstOrThrow => exact scoped_orThrow (scoped_findFirst hs hq hquery)
  | findUnique => exact scoped_findUnique hs hq hquery
  | findUniqueOrThrow => exact scoped_orThrow (scoped_findUnique hs hq hquery)
  | count => exact scoped_count hquery
  | delete => exact scoped_delete hs hq he hquery (hroot rfl)
  | deleteMany => exact scoped_deleteMany hs he hquery (hroot rfl)

end Request

/-- Whatever was done with a client of a schema before: a request that reads or deletes what a
payload asks for does not fail because a table is not part of its transaction. -/
theorem Client.searches_inScope {defs : List EntityDef} {s : Schema}
    (hs : Schema.ofDefs defs = .ok s) {c : Client} (hc : c.Reached s) {payload : Json} {q : Query}
    (hq : Query.ofJson payload = .ok q) (entity : String) {α : Type} {r : Request α}
    (hr : r.Searches q) (table : String) :
    (c.ask entity r none).result ≠ .error (.tableNotInScope table) := by
  have hresolved := Schema.Resolved.ofDefs hs
  have hschema := hc.schema
  subst hschema
  have hask := ask_inScope hc.numbered hresolved entity fun e scope he h =>
    hr.scoped hresolved (Query.named_of_ofJson hq) he h
  intro hresult
  rw [hresult] at hask
  exact hask table rfl

/-- Authors, and books that are deleted with their author. -/
def EntityDef.shelf : List EntityDef :=
  [{ name := "author", fields := [{ name := "id", kind := .int, id := true }],
     relations := [.many "books" "book"] },
   { name := "book",
     fields := [{ name := "id", kind := .int, id := true }, { name := "authorId", kind := .int }],
     relations := [{ RelationDef.owning "author" "author" ["authorId"] ["id"] with
       onDelete := .cascade }] }]

/-- Deleting authors takes their books along. -/
theorem Client.searches_inScope_shelf : ∃ (s : Schema) (c : Client) (q : Query),
    Schema.ofDefs EntityDef.shelf = .ok s ∧ c.Reached s ∧
      Query.ofJson (.object [("where", .object [("books", .object [("some", .object [])])])]) = .ok q ∧
      (c.ask "author" (.deleteMany q) none).result ≠ .error (.tableNotInScope "book") := by
  have hopens : ((Schema.ofDefs EntityDef.shelf).bind fun s =>
      (openWith s { name := "shelf" } ⟨0, 1⟩ {}).result).toOption.isSome := by
    decide +kernel
  have hreads : (Query.ofJson
      (.object [("where", .object [("books", .object [("some", .object [])])])])).toOption.isSome := by
    decide +kernel
  cases hopened : (Schema.ofDefs EntityDef.shelf).bind fun s =>
      (openWith s { name := "shelf" } ⟨0, 1⟩ {}).result with
  | error e => simp [hopened, Except.toOption] at hopens
  | ok c =>
    obtain ⟨s, hs, hc⟩ := Except.bind_eq_ok.1 hopened
    cases hq : Query.ofJson
        (.object [("where", .object [("books", .object [("some", .object [])])])]) with
    | error e => simp [hq, Except.toOption] at hreads
    | ok q =>
      have hreached : c.Reached s := ⟨c, ⟨_, _, _, hc⟩, [], rfl⟩
      exact ⟨s, c, q, hs, hreached, rfl, searches_inScope hs hreached hq "author" .deleteMany "book"⟩

end RelationalStore

import Mathlib.Data.List.Perm.Basic
import RelationalStore.Proofs.DeletionRequests
import RelationalStore.Proofs.FilterSets
import RelationalStore.Proofs.RowOrder

/- What `findMany`, `findFirst` and `count` answer, as stages over the rows of the table: those that
   the filter lets through, sorted stably, the first one for each combination of distinct values,
   and a window of these (`View.Pipeline`).

   A query without its window is `Query.unpaged`. The window comes last and nothing before it looks
   at it (`readRows_window`), and records are made row by row (`attach_eq_ok`), so the answer to a
   query with any window is that window of the answer without one (`findMany_window`). Pages, the
   first record and the count all come from this. Requests for reading that need the same tables see
   the same tables, so that one is answered as the other allows (`Client.ask_read`). -/
namespace RelationalStore
open SortedMap Read

theorem Except.map_bind {ε α β γ : Type} (f : β → γ) (x : Except ε α) (g : α → Except ε β) :
    (x >>= g).map f = x >>= fun a => (g a).map f := by
  cases x <;> rfl

theorem Except.mapM_ok {ε α β : Type} (f : α → β) (as : List α) :
    as.mapM (fun a => (.ok (f a) : Except ε β)) = .ok (as.map f) := by
  induction as with
  | nil => rfl
  | cons a as ih => rw [List.mapM_cons, ih]; rfl

theorem Except.mapM_map {ε α β γ : Type} (f : β → γ) (g : α → Except ε β) (as : List α) :
    (as.mapM fun a => (g a).map f) = (as.mapM g).map (List.map f) := by
  induction as with
  | nil => rfl
  | cons a as ih =>
    rw [List.mapM_cons, List.mapM_cons, ih]
    cases g a with
    | error err => rfl
    | ok b => cases as.mapM g <;> rfl

namespace Query

/-- The query for every row that passes, without a window. -/
def unpaged (q : Query) : Query := { q with take := none, skip := none }

/-- The query for the page with a number when there are `n` records to a page. -/
def page (q : Query) (n number : Nat) : Query := { q with take := some n, skip := some (number * n) }

/-- The part of a list that the query asks for. -/
def window {α : Type} (q : Query) (l : List α) : List α :=
  let rest := l.drop (q.skip.getD 0)
  q.take.elim rest rest.take

@[simp] theorem window_unpaged {α : Type} (q : Query) (l : List α) : q.unpaged.window l = l := rfl

theorem window_sublist {α : Type} (q : Query) (l : List α) : (q.window l).Sublist l := by
  unfold window
  cases q.take with
  | none => exact List.drop_sublist _ _
  | some n => exact (List.take_sublist _ _).trans (List.drop_sublist _ _)

theorem window_forall₂ {α β : Type} {R : α → β → Prop} (q : Query) {as : List α} {bs : List β}
    (h : List.Forall₂ R as bs) : List.Forall₂ R (q.window as) (q.window bs) := by
  unfold window
  cases q.take with
  | none => exact List.forall₂_drop _ h
  | some n => exact List.forall₂_take _ (List.forall₂_drop _ h)

/-- Pages follow each other without a gap and without an overlap. -/
theorem flatMap_page {α : Type} (q : Query) (n pages : Nat) (l : List α) :
    (List.range pages).flatMap (fun number => (q.page n number).window l) = l.take (pages * n) := by
  induction pages with
  | zero => simp
  | succ pages ih =>
    rw [List.range_succ, List.flatMap_append, ih, List.flatMap_singleton]
    calc l.take (pages * n) ++ (l.drop (pages * n)).take n
        = l.take (pages * n + n) := (List.take_add ..).symm
      _ = l.take ((pages + 1) * n) := by rw [Nat.succ_mul]

end Query

namespace View
variable {v : View} {e : Entity} {q : Query} {rows : List Row}

/-! ### The stages -/

/-- Whether a query's filter lets a row through. -/
def passes (v : View) (e : Entity) (q : Query) (row : Row) : Bool :=
  q.filter.all fun f => (v.lets e row f).toOption.any id

/-- The rows that a query asks for, stage by stage. -/
def Pipeline (v : View) (e : Entity) (q : Query) (rows result : List Row) : Prop :=
  ∃ sorted, SortedStably (v.Precedes e q.order) (rows.filter (v.passes e q)) sorted ∧
    result = q.window (if q.distinct = [] then sorted else firstOfEach q.distinct sorted)

end View

namespace Read
variable {α : Type} {l kept : List α} {f : α → Read Bool}

/-- Every one was asked about. -/
theorem ok_of_filterM (h : l.filterM f = .ok kept) :
    ∀ a ∈ l, f a = .ok ((f a).toOption.any id) := by
  have aux : ∀ acc out : List α, l.filterAuxM f acc = .ok out →
      ∀ a ∈ l, f a = .ok ((f a).toOption.any id) := by
    clear h
    induction l with
    | nil => simp
    | cons a l ih =>
      intro acc out hout
      rw [List.filterAuxM] at hout
      obtain ⟨b, hb, hout⟩ := Except.bind_eq_ok.1 hout
      refine List.forall_mem_cons.2 ⟨?_, ih _ _ hout⟩
      rw [hb]
      cases b <;> rfl
  rw [List.filterM] at h
  obtain ⟨out, hout, -⟩ := Except.bind_eq_ok.1 h
  exact aux [] out hout

theorem filterM_eq_ok (h : l.filterM f = .ok kept) :
    kept = l.filter fun a => (f a).toOption.any id := by
  rw [filterM_ok (ok_of_filterM h)] at h
  exact (Except.ok.inj h).symm

end Read

namespace View
variable {v : View} {e : Entity} {q : Query} {rows result : List Row} {records : List Record}

theorem select_ok {f : Filter} (h : v.select e rows f = .ok result) :
    result = rows.filter fun row => (v.lets e row f).toOption.any id :=
  Read.filterM_eq_ok h

/-- The window is cut last, out of what there is without one. -/
theorem readRows_window (q : Query) (rows : List Row) :
    v.readRows e q rows = (v.readRows e q.unpaged rows).map q.window := by
  obtain ⟨filter, order, select, load, take, skip, distinct, data, skipDuplicates⟩ := q
  unfold readRows
  cases filter <;> simp only [Query.unpaged, Except.map_bind] <;> rfl

theorem readRows_unpaged (h : v.readRows e q.unpaged rows = .ok result) :
    ∃ sorted, v.sort e q.order (rows.filter (v.passes e q)) = .ok sorted ∧
      result = if q.distinct = [] then sorted else firstPerKey q.distinct sorted := by
  have hstages : ∀ passing : List Row, (do
      let rows ← v.sort e q.order passing
      q.distinct.forM fun field => discard (e.requireField field)
      return ((if q.distinct.isEmpty then rows else firstPerKey q.distinct rows).drop 0)) =
        .ok result → ∃ sorted, v.sort e q.order passing = .ok sorted ∧
          result = if q.distinct = [] then sorted else firstPerKey q.distinct sorted := by
    intro passing h
    obtain ⟨sorted, hsorted, h⟩ := Except.bind_eq_ok.1 h
    obtain ⟨-, -, h⟩ := Except.bind_eq_ok.1 h
    cases h
    exact ⟨sorted, hsorted, by simp only [List.isEmpty_iff, List.drop_zero]⟩
  obtain ⟨filter, order, select, load, take, skip, distinct, data, skipDuplicates⟩ := q
  unfold readRows at h
  cases filter with
  | none =>
    rw [List.filter_eq_self.2 fun row _ => by rfl]
    exact hstages rows h
  | some f =>
    obtain ⟨passing, hpassing, h⟩ := Except.bind_eq_ok.1 h
    rw [select_ok hpassing] at h
    exact hstages _ h

/-- What is read of rows whose numbers are of one class in each column. -/
theorem readRows_pipeline {κ : String → String → NumberClass}
    (hv : v.Gives fun n row => row.Within (κ n)) (hrows : ∀ row ∈ rows, row.Within (κ e.name))
    (h : v.readRows e q rows = .ok result) : v.Pipeline e q rows result := by
  rw [readRows_window] at h
  obtain ⟨whole, hwhole, rfl⟩ := Except.map_eq_ok.1 h
  obtain ⟨sorted, hsorted, rfl⟩ := readRows_unpaged hwhole
  have hpassing : ∀ row ∈ rows.filter (v.passes e q), row.Within (κ e.name) :=
    fun row hrow => hrows row (List.mem_of_mem_filter hrow)
  have hcomparable : v.Comparable e ((rows.filter (v.passes e q)).map some) q.order := by
    refine .of_within hv e q.order fun row hrow x hx => ?_
    obtain ⟨passed, hpassed, rfl⟩ := List.mem_map.1 hrow
    cases hx
    exact hpassing x hpassed
  refine ⟨sorted, sort_stably (sortKeys_aligned e q.order hcomparable) hsorted, ?_⟩
  rw [firstPerKey_eq fun row hrow => (hpassing row ((sort_perm hsorted).subset hrow)).fits]

theorem readRows_subperm (h : v.readRows e q rows = .ok result) : result.Subperm rows := by
  rw [readRows_window] at h
  obtain ⟨whole, hwhole, rfl⟩ := Except.map_eq_ok.1 h
  obtain ⟨sorted, hsorted, rfl⟩ := readRows_unpaged hwhole
  have hkept : (if q.distinct = [] then sorted else firstPerKey q.distinct sorted).Sublist sorted := by
    split
    · exact .refl _
    · exact firstPerKey_sublist _ _
  have hpassing : sorted.Subperm rows :=
    (sort_perm hsorted).subperm.trans List.filter_sublist.subperm
  exact ((q.window_sublist _).trans hkept).subperm.trans hpassing

/-! ### Records -/

theorem attach_ok (h : v.attach e rows q = .ok records) : q.select = none ∨ q.load = none := by
  obtain ⟨filter, order, select, load, take, skip, distinct, data, skipDuplicates⟩ := q
  cases select with
  | none => exact .inl rfl
  | some select =>
    cases load with
    | none => exact .inr rfl
    | some load =>
      rw [attach] at h
      cases h

/-- Records are made row by row. -/
theorem attach_eq_mapM (h : q.select = none ∨ q.load = none) (rows : List Row) :
    v.attach e rows q = rows.mapM (v.record e q) := by
  have hrow : ∃ g, ∀ rows, v.attach e rows q = rows.mapM g := by
    obtain ⟨filter, order, select, load, take, skip, distinct, data, skipDuplicates⟩ := q
    cases select with
    | none =>
      cases load with
      | none => exact ⟨_, fun rows => by rw [attach, ← Except.mapM_ok]⟩
      | some load => exact ⟨_, fun rows => by rw [attach]⟩
    | some select =>
      obtain rfl : load = none := by simpa using h
      refine ⟨fun row => (v.attachAll e (.ofRow row) select).map
        (.keepFields (Selection.selects select)), fun rows => ?_⟩
      rw [attach, Except.mapM_map]
      cases rows.mapM fun row => v.attachAll e (.ofRow row) select <;> rfl
  obtain ⟨g, hg⟩ := hrow
  have hrecord : v.record e q = g := by
    funext row
    rw [record, hg, List.mapM_cons, List.mapM_nil]
    cases g row <;> rfl
  rw [hrecord, hg]

theorem record_unpaged (row : Row) : v.record e q.unpaged row = v.record e q row := by
  have hattach : v.attach e [row] q.unpaged = v.attach e [row] q := by
    obtain ⟨filter, order, select, load, take, skip, distinct, data, skipDuplicates⟩ := q
    cases select <;> cases load <;> rw [Query.unpaged, attach, attach]
  rw [record, record, hattach]

theorem attach_eq_ok : v.attach e rows q = .ok records ↔
    (q.select = none ∨ q.load = none) ∧
      List.Forall₂ (fun row record => v.record e q row = .ok record) rows records := by
  constructor
  · intro h
    have hq := attach_ok h
    rw [attach_eq_mapM hq] at h
    exact ⟨hq, Except.mapM_eq_ok.1 h⟩
  · rintro ⟨hq, h⟩
    rw [attach_eq_mapM hq]
    exact Except.mapM_eq_ok.2 h

/-- A window is asked for after everything else, so a window of a window is answered by a window of
the answer. -/
theorem findMany_window {q' part : Query} (hq : q'.unpaged = q.unpaged)
    (hwindow : ∀ l : List Row, q'.window l = part.window (q.window l))
    (h : v.findMany e q = .ok records) : v.findMany e q' = .ok (part.window records) := by
  obtain ⟨rows, hrows, h⟩ := Except.bind_eq_ok.1 h
  obtain ⟨result, hresult, h⟩ := Except.bind_eq_ok.1 h
  obtain ⟨hpart, hrecords⟩ := attach_eq_ok.1 h
  rw [readRows_window] at hresult
  obtain ⟨whole, hwhole, rfl⟩ := Except.map_eq_ok.1 hresult
  have hrecord : v.record e q' = v.record e q := by
    funext row
    rw [← record_unpaged row, hq, record_unpaged row]
  have hpart' : q'.select = none ∨ q'.load = none := by
    have hselect : q'.select = q.select := by simpa [Query.unpaged] using congrArg Query.select hq
    have hload : q'.load = q.load := by simpa [Query.unpaged] using congrArg Query.load hq
    rwa [hselect, hload]
  rw [findMany, hrows, Except.ok_bind, readRows_window, hq, hwhole]
  refine attach_eq_ok.2 ⟨hpart', ?_⟩
  rw [hwindow, hrecord]
  exact part.window_forall₂ hrecords

/-- What a query answers is as many records as there are rows that it asks for. -/
theorem count_of_findMany (hselect : q.select = none) (h : v.findMany e q = .ok records) :
    v.count e q = .ok (.total records.length) := by
  obtain ⟨rows, hrows, h⟩ := Except.bind_eq_ok.1 h
  obtain ⟨result, hresult, h⟩ := Except.bind_eq_ok.1 h
  rw [count, hrows, Except.ok_bind, hresult, Except.ok_bind, hselect,
    (attach_eq_ok.1 h).2.length_eq]
  rfl

/-! ### Rows that are in order -/

theorem sort_of_keys {order : List OrderBy} {keys : List (List SortKey)}
    (hkeys : rows.mapM (fun row => v.sortKeys e (some row) order) = .ok keys)
    (hordered : keys.Pairwise fun as bs => (SortKey.compareAll as bs).isLE) :
    v.sort e order rows = .ok rows := by
  have hpairs := Except.mapM_eq_ok.1 hkeys
  have hkeyed : rows.mapM (fun row => do return (← v.sortKeys e (some row) order, row)) =
      .ok (keys.zip rows) := by
    refine Except.mapM_eq_ok.2 ?_
    clear hkeys hordered
    induction hpairs with
    | nil => exact .nil
    | cons hrow _ ih => exact .cons (by rw [hrow]; rfl) ih
  have hfst : (keys.zip rows).map Prod.fst = keys :=
    List.map_fst_zip hpairs.length_eq.ge
  have hsnd : (keys.zip rows).map Prod.snd = rows :=
    List.map_snd_zip hpairs.length_eq.le
  rw [← hfst, List.pairwise_map] at hordered
  rw [sort, hkeyed, Except.ok_bind, List.mergeSort_of_pairwise hordered]
  exact congrArg _ hsnd

/-- The answer to a query where the rows that pass are in order as they are. -/
def findInOrder (v : View) (e : Entity) (q : Query) : Read (Option (List Record)) := do
  let passing ← v.matching e q.filter
  let keys ← passing.mapM fun row => v.sortKeys e (some row) q.order
  q.distinct.forM fun field => discard (e.requireField field)
  let rows := if q.distinct.isEmpty then passing else firstPerKey q.distinct passing
  let records ← v.attach e (q.window rows) q
  return if keys.Pairwise fun as bs => (SortKey.compareAll as bs).isLE then some records else none

theorem findMany_of_findInOrder (h : v.findInOrder e q = .ok (some records)) :
    v.findMany e q = .ok records := by
  obtain ⟨passing, hpassing, h⟩ := Except.bind_eq_ok.1 h
  obtain ⟨keys, hkeys, h⟩ := Except.bind_eq_ok.1 h
  obtain ⟨⟨⟩, hdistinct, h⟩ := Except.bind_eq_ok.1 h
  obtain ⟨found, hfound, h⟩ := Except.bind_eq_ok.1 h
  obtain ⟨all, hall, hpassing⟩ := Except.bind_eq_ok.1 hpassing
  split at h
  · next hordered =>
    cases h
    have hsort := sort_of_keys hkeys hordered
    have hread : v.readRows e q all =
        .ok (q.window (if q.distinct.isEmpty then passing else firstPerKey q.distinct passing)) := by
      rw [readRows]
      cases hfilter : q.filter with
      | none =>
        rw [hfilter] at hpassing
        cases hpassing
        simp only [pure_bind, hsort, Except.ok_bind, hdistinct]
        rfl
      | some f =>
        have hselect : v.select e all f = .ok passing := by
          rw [hfilter] at hpassing
          exact hpassing
        simp only [hselect, Except.ok_bind, hsort, hdistinct]
        rfl
    rw [findMany, hall, Except.ok_bind, hread]
    exact hfound
  · cases h

end View

/-! ### Requests -/

namespace Operation
variable {α : Type}

theorem run_look {s : Schema} {reading : View → Read α} {w : Work} {a : α}
    (h : reading ⟨s, w.tables, w.transaction⟩ = .ok a) : (look s reading).run w = .ok a w := by
  show (MonadExcept.ofExcept (reading ⟨s, w.tables, w.transaction⟩) : Operation α) w = .ok a w
  rw [h]
  rfl

theorem of_run_look {s : Schema} {reading : View → Read α} {w w' : Work} {a : α}
    (h : (look s reading).run w = .ok a w') : reading ⟨s, w.tables, w.transaction⟩ = .ok a := by
  change (MonadExcept.ofExcept (reading ⟨s, w.tables, w.transaction⟩) : Operation α) w = .ok a w' at h
  cases hr : reading ⟨s, w.tables, w.transaction⟩ with
  | error err =>
    rw [hr] at h
    cases h
  | ok b =>
    rw [hr] at h
    cases h
    rfl

/-- Something that is made of what was read. -/
theorem look_map {β : Type} (s : Schema) (reading : View → Read α) (f : α → β) :
    (look s reading >>= fun a => pure (f a)) = look s fun v => (reading v).map f := by
  funext w
  show ((MonadExcept.ofExcept (reading ⟨s, w.tables, w.transaction⟩) : Operation α) >>=
      fun a => pure (f a)) w =
    (MonadExcept.ofExcept ((reading ⟨s, w.tables, w.transaction⟩).map f) : Operation β) w
  cases reading ⟨s, w.tables, w.transaction⟩ <;> rfl

end Operation

namespace Client
variable {α β : Type} {c : Client} {entity : String} {q : Query} {tx : Option Nat}
open Operation (look)

/-- The client after a reading in an open transaction. -/
def hasRead (c : Client) (t : Transaction) : Client :=
  { c with store := { c.store.setTransaction t with tables := c.store.tables } }

theorem run_look {s : Schema} {t : Transaction} {reading : View → Read α} {a : α}
    (h : reading ⟨s, c.store.tables, t⟩ = .ok a) :
    c.run t (look s reading) = (.ok (a, []), c.hasRead t) := by
  have hrun : (look s reading).run ⟨c.store.tables, t, c.supply, [], []⟩ =
      .ok a ⟨c.store.tables, t, c.supply, [], []⟩ := Operation.run_look h
  rw [run, hrun]
  rfl

/-- A reading that is answered in a transaction of its own leaves room for any other one. -/
theorem runAlone_look {s : Schema} {names : List String} {mode : TransactionMode}
    {reading : View → Read α} {a : α} (h : (c.runAlone names mode (look s reading)).result = .ok a) :
    ∃ t, reading ⟨s, c.store.tables, t⟩ = .ok a ∧
      ∀ {β : Type} (other : View → Read β) (b : β), other ⟨s, c.store.tables, t⟩ = .ok b →
        (c.runAlone names mode (look s other)).result = .ok b := by
  have hruns := c.runsAlone names mode (look s reading)
  generalize c.runAlone names mode (look s reading) = o at hruns h
  cases hruns with
  | refused => cases h
  | missing => cases h
  | failed => cases h
  | uncommitted => cases h
  | @done id store t a' changes c' hb htx hrun hcommit =>
    cases h
    have hbegun : store.tables = c.store.tables := by rw [(Store.beginTransaction_ok hb).2.2]
    obtain ⟨w, hw, -⟩ := run_ok hrun
    have hreading := Operation.of_run_look hw
    have hc' : c' = (c.withStore store).hasRead t := by
      rw [run_look hreading] at hrun
      cases hrun
      rfl
    refine ⟨t, hbegun ▸ hreading, fun other b hother => ?_⟩
    have hrunOther : (c.withStore store).run t (look s other) = (.ok (b, []), c') := by
      rw [← hbegun] at hother
      exact hc' ▸ run_look hother
    have hopened : ({ c with store } : Client) = c.withStore store := rfl
    unfold runAlone
    simp only [hb, htx, hopened, hrunOther, hcommit]

theorem runIn_look {s : Schema} {id : Nat} {reading : View → Read α} {a : α}
    (h : (c.runIn id (look s reading)).result = .ok a) :
    ∃ t, reading ⟨s, c.store.tables, t⟩ = .ok a ∧
      ∀ {β : Type} (other : View → Read β) (b : β), other ⟨s, c.store.tables, t⟩ = .ok b →
        (c.runIn id (look s other)).result = .ok b := by
  have hruns := c.runsIn id (look s reading)
  generalize c.runIn id (look s reading) = o at hruns h
  cases hruns with
  | missing => cases h
  | failed => cases h
  | @done t a' changes c' htx hrun =>
    cases h
    obtain ⟨w, hw, -⟩ := run_ok hrun
    refine ⟨t, Operation.of_run_look hw, fun other b hother => ?_⟩
    unfold runIn
    simp only [htx, run_look hother]

/-- A request that reads is answered by what its transaction sees, and so is any other one that
needs the same tables. -/
theorem ask_read {f : Entity → View → Read α} {a : α}
    (h : (c.ask entity ⟨.read, q, fun s e => look s (f e)⟩ tx).result = .ok a) :
    ∃ e t, c.schema.entity? entity = some e ∧ f e ⟨c.schema, c.store.tables, t⟩ = .ok a ∧
      ∀ {β : Type} (q' : Query) (g : Entity → View → Read β) (b : β),
        c.schema.neededTables e q' .read = c.schema.neededTables e q .read →
        g e ⟨c.schema, c.store.tables, t⟩ = .ok b →
          (c.ask entity ⟨.read, q', fun s e => look s (g e)⟩ tx).result = .ok b := by
  unfold ask at h ⊢
  cases hrequire : c.schema.require entity with
  | error err =>
    rw [hrequire] at h
    cases h
  | ok e =>
    simp only [hrequire] at h ⊢
    have hentity := Option.elim_ok_eq_ok.1 hrequire
    cases tx with
    | none =>
      obtain ⟨t, hf, hother⟩ := runAlone_look h
      refine ⟨e, t, hentity, hf, fun q' g b hneeded hg => ?_⟩
      rw [hneeded]
      exact hother _ b hg
    | some id =>
      obtain ⟨t, hf, hother⟩ := runIn_look h
      exact ⟨e, t, hentity, hf, fun q' g b _ hg => hother _ b hg⟩

end Client

namespace Request

theorem findFirst_eq (q : Query) : findFirst q = ⟨.read, first q, fun s e => Operation.look s
    fun v => (v.findMany e (first q)).map List.head?⟩ := by
  refine congrArg _ (funext fun s => funext fun e => funext fun w => ?_)
  exact congrFun (Operation.look_map s (View.findMany · e (first q)) List.head?) w

end Request

namespace Client
variable {c : Client} {entity : String} {q : Query} {tx : Option Nat} {records : List Record}

theorem neededTables_unpaged (s : Schema) (e : Entity) (q : Query) :
    s.neededTables e q.unpaged .read = s.neededTables e q .read := by
  obtain ⟨filter, order, select, load, take, skip, distinct, data, skipDuplicates⟩ := q
  rw [Schema.neededTables, Schema.neededTables, Query.unpaged, Schema.queryTables, Schema.queryTables]

theorem neededTables_congr {s : Schema} {e : Entity} {q' : Query} (h : q'.unpaged = q.unpaged) :
    s.neededTables e q' .read = s.neededTables e q .read := by
  rw [← neededTables_unpaged, h, neededTables_unpaged]

/-- A request for a window of a window. -/
theorem ask_window (q q' part : Query) (hq : q'.unpaged = q.unpaged)
    (hwindow : ∀ l : List Row, q'.window l = part.window (q.window l))
    (h : (c.ask entity (.findMany q) tx).result = .ok records) :
    (c.ask entity (.findMany q') tx).result = .ok (part.window records) := by
  obtain ⟨e, t, -, hfound, hother⟩ := ask_read h
  exact hother q' _ _ (neededTables_congr hq) (View.findMany_window hq hwindow hfound)

theorem head?_first (records : List Record) :
    ({ take := some 1 } : Query).window records = records.head?.toList := by
  cases records <;> rfl

/-- The first record of the answer without a bound. -/
theorem ask_first (h : (c.ask entity (.findMany { q with take := none }) tx).result = .ok records) :
    (c.ask entity (.findFirst q) tx).result = .ok records.head? := by
  have hwindow : ∀ l : List Row, (Request.first q).window l =
      ({ take := some 1 } : Query).window (Query.window { q with take := none } l) := fun l => rfl
  have hq : (Request.first q).unpaged = Query.unpaged { q with take := none } := rfl
  obtain ⟨e, t, -, hfound, hother⟩ := ask_read h
  rw [Request.findFirst_eq]
  refine hother (Request.first q) (fun e v => (v.findMany e (Request.first q)).map List.head?) _
    (neededTables_congr hq) ?_
  rw [View.findMany_window hq hwindow hfound, head?_first]
  cases records <;> rfl

/-- In every state of a client. The records of an answer are those of rows of the table, none of
which is there twice, and a query without a selection is counted as so many. Where in each column
the numbers are of one class, these rows are what the stages of the query give. The pages of a query
make up its answer, whatever their size, and the first record is the first one of all. -/
theorem ask_findMany_pipeline (c : Client) (entity : String) (q : Query) (tx : Option Nat) :
    (∀ records, (c.ask entity (.findMany q) tx).result = .ok records →
      (∃ (e : Entity) (t : Table) (v : View) (rows : List Row),
        c.schema.entity? entity = some e ∧ c.store.tables.get? e.name = some t ∧
        v.schema = c.schema ∧ v.tables = c.store.tables ∧
        List.Forall₂ (fun row record => v.record e q row = .ok record) rows records ∧
        rows.Subperm t.toList ∧
        ∀ κ : String → String → NumberClass,
          (∀ n row, c.store.tables.Has n row → row.Within (κ n)) →
            v.Pipeline e q t.toList rows) ∧
      (q.select = none → (c.ask entity (.count q) tx).result = .ok (.total records.length))) ∧
    (∀ records, (c.ask entity (.findMany q.unpaged) tx).result = .ok records →
      ∀ n > 0, ∃ pages : Nat → List Record,
        (∀ k, (c.ask entity (.findMany (q.page n k)) tx).result = .ok (pages k)) ∧
        ∃ last, ∀ m ≥ last, (List.range m).flatMap pages = records) ∧
    ∀ records, (c.ask entity (.findMany { q with take := none }) tx).result = .ok records →
      (c.ask entity (.findFirst q) tx).result = .ok records.head? := by
  refine ⟨fun records h => ?_, fun records h n hn => ?_, fun records h => ?_⟩
  · obtain ⟨e, tx', hentity, hfound, hother⟩ := ask_read h
    refine ⟨?_, fun hselect => hother q _ _ rfl (View.count_of_findMany hselect hfound)⟩
    obtain ⟨all, hall, hread⟩ := Except.bind_eq_ok.1 hfound
    obtain ⟨rows, hrows, hrecords⟩ := Except.bind_eq_ok.1 hread
    obtain ⟨t, ht, hlist⟩ := Except.bind_eq_ok.1 hall
    obtain rfl : t.toList = all := Except.ok.inj hlist
    obtain ⟨-, -, htable⟩ := Transaction.table_ok ht
    refine ⟨e, t, ⟨c.schema, c.store.tables, tx'⟩, rows, hentity, htable, rfl, rfl,
      (View.attach_eq_ok.1 hrecords).2, View.readRows_subperm hrows, fun κ hκ => ?_⟩
    have hv : View.Gives ⟨c.schema, c.store.tables, tx'⟩ fun n row => row.Within (κ n) := by
      intro n t' ht' row hrow
      obtain ⟨-, -, htable'⟩ := Transaction.table_ok ht'
      exact hκ n row ⟨t', htable', hrow⟩
    exact View.readRows_pipeline hv (fun row hrow => hκ e.name row ⟨t, htable, hrow⟩) hrows
  · refine ⟨fun k => (q.page n k).window records, fun k => ?_, records.length, fun m hm => ?_⟩
    · exact ask_window q.unpaged (q.page n k) (q.page n k) rfl (fun l => rfl) h
    · rw [Query.flatMap_page]
      exact List.take_of_length_le (hm.trans (Nat.le_mul_of_pos_right m hn))
  · exact ask_first h

end Client

/-! ### Parcels -/

/-- Parcels with their weight and the city that they go to. -/
def EntityDef.parcels : List EntityDef :=
  [{ name := "parcel",
     fields := [{ name := "id", kind := .int, id := true }, { name := "weight", kind := .decimal },
       { name := "city", kind := .string }] }]

namespace Client
open Operation (look)

/-- The numbers of the records that a query is answered with. -/
def numbers (c : Client) (entity : String) (q : Query) : Option (List String) :=
  (c.ask entity (.findMany q) none).result.toOption.map
    (·.map fun record => (record.fields.value "id").text)

/-- As `numbers`, where the rows are in order as they are. -/
def numbersInOrder (c : Client) (entity : String) (q : Query) : Option (List String) :=
  (c.ask entity ⟨.read, q, fun s e => look s fun v => v.findInOrder e q⟩ none).result.toOption.join.map
    (·.map fun record => (record.fields.value "id").text)

theorem numbers_eq {c : Client} {entity : String} {q : Query} {ids : List String}
    (h : c.numbersInOrder entity q = some ids) : c.numbers entity q = some ids := by
  obtain ⟨records, hrecords, hids⟩ := Option.map_eq_some_iff.1 h
  obtain ⟨e, t, -, hfound, hother⟩ :=
    ask_read (Except.toOption_eq_some.1 (Option.join_eq_some_iff.1 hrecords))
  have hmany : (c.ask entity (.findMany q) none).result = .ok records :=
    hother q (fun e v => v.findMany e q) records rfl (View.findMany_of_findInOrder hfound)
  rw [numbers, hmany, ← hids]
  rfl

/-- Four parcels, the heaviest first. -/
def post : List Action :=
  [.ask "parcel" (.create (.ofFields [("id", .int 1), ("weight", .int 9), ("city", .string "Oslo")]))
     none,
   .ask "parcel" (.create (.ofFields [("id", .int 2), ("weight", .int 7), ("city", .string "Rome")]))
     none,
   .ask "parcel" (.create (.ofFields [("id", .int 3), ("weight", .int 7), ("city", .string "Oslo")]))
     none,
   .ask "parcel" (.create (.ofFields [("id", .int 4), ("weight", .int 1), ("city", .string "Bern")]))
     none]

/-- The heaviest parcel to each city, the heaviest first. -/
def heaviest : Query := { order := [.desc "weight"], distinct := ["city"] }

theorem ask_findMany_pipeline_parcels : ∃ c₀ : Client,
    Schema.ofDefs EntityDef.parcels = .ok c₀.schema ∧ c₀.Opened c₀.schema ∧
      let c := post.foldl after c₀
      c.numbers "parcel" heaviest = some ["1", "2", "4"] ∧
        c.numbers "parcel" (heaviest.page 2 1) = some ["4"] ∧
        (∃ (e : Entity) (t : Table) (v : View) (rows : List Row),
          c.store.tables.get? e.name = some t ∧ v.Pipeline e heaviest t.toList rows ∧
            rows.length = 3) ∧
        (c.ask "parcel" (.count heaviest) none).result = .ok (.total 3) := by
  have hruns : (openMemory EntityDef.parcels).toOption.any fun c₀ =>
      let c := post.foldl after c₀
      c₀.schema.KeysOfKinds ∧ c.numbersInOrder "parcel" heaviest = some ["1", "2", "4"] ∧
        c.numbersInOrder "parcel" (heaviest.page 2 1) = some ["4"] := by
    decide +kernel
  obtain ⟨c₀, hs, hc₀, hholds, hkinds, hnumbers, hpage⟩ := exists_openMemory hruns
  have hregular : ∀ a ∈ post, a.Regular c₀.schema.classes c₀.store.tables := by
    intro a ha
    simp only [post, List.mem_cons, List.not_mem_nil, or_false] at ha
    rcases ha with rfl | rfl | rfl | rfl <;> exact ⟨_, .inl .create⟩
  obtain ⟨-, hheld⟩ := holds_foldl (Schema.Resolved.ofDefs hs) hkinds hc₀ hholds hregular
  obtain ⟨records, hrecords, hids⟩ := Option.map_eq_some_iff.1 (numbers_eq hnumbers)
  have hlength : records.length = 3 := by simpa using congrArg List.length hids
  obtain ⟨hanswer, -⟩ := ask_findMany_pipeline (post.foldl after c₀) "parcel" heaviest none
  obtain ⟨⟨e, t, v, rows, -, ht, -, -, hrows, -, hpipeline⟩, hcount⟩ :=
    hanswer records (Except.toOption_eq_some.1 hrecords)
  refine ⟨c₀, hs, hc₀, numbers_eq hnumbers, numbers_eq hpage, ⟨e, t, v, rows, ht, ?_, ?_⟩, ?_⟩
  · exact hpipeline _ fun n row hrow => hheld.within hrow
  · rw [hrows.length_eq, hlength]
  · rw [hcount rfl, hlength]

/-- Three parcels with weights of three kinds, put past the engine. The last weight is equal to the
second one and less than the first one, which is less than the second. -/
def weigh : List Action :=
  [.begin ["parcel"] .readWrite,
   .put 1 "parcel" (SortedMap.ofList [("id", .int 1), ("weight", .int 1152921504606846977),
     ("city", .null)]),
   .put 1 "parcel" (SortedMap.ofList [("id", .int 2), ("weight", .bigint 1152921504606846978),
     ("city", .null)]),
   .put 1 "parcel" (SortedMap.ofList [("id", .int 3),
     ("weight", .decimal (.ofInt 1152921504606846976)), ("city", .null)]),
   .commit 1]

/-- Where numbers of different kinds are in one column, a row can be kept although a row before it
has an equal value. -/
theorem ask_findMany_mixed : ∃ c₀ : Client,
    Schema.ofDefs EntityDef.parcels = .ok c₀.schema ∧ c₀.Opened c₀.schema ∧
      let c := weigh.foldl after c₀
      c.numbers "parcel" { distinct := ["weight"] } = some ["1", "2", "3"] ∧
        (c.store.tables.get? "parcel").map (fun t =>
          (firstOfEach ["weight"] t.toList).map fun row => (row.value "id").text) =
            some ["1", "2"] := by
  have hruns : (openMemory EntityDef.parcels).toOption.any fun c₀ =>
      let c := weigh.foldl after c₀
      c.numbersInOrder "parcel" { distinct := ["weight"] } = some ["1", "2", "3"] ∧
        (c.store.tables.get? "parcel").map (fun t =>
          (firstOfEach ["weight"] t.toList).map fun row => (row.value "id").text) =
            some ["1", "2"] := by
    decide +kernel
  obtain ⟨c₀, hs, hc₀, -, hnumbers, hfirst⟩ := exists_openMemory hruns
  exact ⟨c₀, hs, hc₀, numbers_eq hnumbers, hfirst⟩

end Client

end RelationalStore

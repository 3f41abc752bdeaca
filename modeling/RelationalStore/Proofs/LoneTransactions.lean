import RelationalStore.Proofs.StoreRuns

/- A transaction among others and the same transaction alone. Its steps are run on tables in which
   nothing else is going on, and what it does there is mirrored in the store (`Store.Mirrors`): the
   two transactions are in the same state, and as long as they are active, the tables that they lock
   are related. The relation can be equality, or agreement where the tables to begin with agree; all
   that is needed is that calls respect it (`Table.Call.Respects`). -/
namespace RelationalStore
open SortedMap

/-- On the two tables the call fails, or it makes related tables of them. -/
def Table.Call.Respects (c : Table.Call) (R : Table → Table → Prop) (t u : Table) : Prop :=
  (∃ t' u', c.perform t = .ok t' ∧ c.perform u = .ok u' ∧ R t' u') ∨
    (∃ e, c.perform t = .error e) ∧ ∃ e, c.perform u = .error e

namespace Table.Call
variable {kinds : String → ScalarKind} {c : Table.Call} {t u : Table}

theorem respects_eq (c : Table.Call) (t : Table) : c.Respects Eq t t := by
  cases h : c.perform t with
  | ok t' => exact .inl ⟨t', t', h, h, rfl⟩
  | error e => exact .inr ⟨⟨e, h⟩, e, h⟩

theorem respects_agrees (h : t.Agrees (.ofKinds kinds) u) (hc : c.OfKinds kinds t.definition) :
    c.Respects (Table.Agrees (.ofKinds kinds)) t u := by
  cases ht : c.perform t with
  | ok t' =>
    obtain ⟨u', hu, hagrees⟩ := perform_agrees h hc ht
    exact .inl ⟨t', u', ht, hu, hagrees⟩
  | error e =>
    cases hu : c.perform u with
    | ok u' =>
      rw [h.definition] at hc
      obtain ⟨t', ht', -⟩ := perform_agrees h.symm hc hu
      rw [ht] at ht'
      cases ht'
    | error e' => exact .inr ⟨⟨e, ht⟩, e', hu⟩

end Table.Call

namespace Store

/-- The call of the step, if it is one, respects what relates its table. -/
def Step.Respects (R : String → Table → Table → Prop) (tables : Tables) : Step → Prop
  | .write _ name c => ∀ t u, tables.get? name = some t → R name t u → c.Respects (R name) t u
  | _ => True

theorem Step.respects_eq (a : Step) (tables : Tables) : a.Respects (fun _ => Eq) tables := by
  cases a with
  | write id name c =>
    rintro t u - rfl
    exact c.respects_eq t
  | _ => trivial

theorem Step.respects_agrees {kinds : String → String → ScalarKind} {first : Tables} {s : Store}
    (h : s.Isolated (.ofKinds ∘ kinds) first) {a : Step} (ha : a.OfKinds kinds first) :
    a.Respects (fun n => Table.Agrees (.ofKinds (kinds n))) s.tables := by
  cases a with
  | write id name c =>
    intro t u ht htu
    exact Table.Call.respects_agrees htu (h.ofKinds_now ha t ht)
  | _ => trivial

/-- The transaction `tx` over the tables is mirrored in the store `b`, which was begun with the tables
`base` and has no directory: there it is in the same state, and as long as it is active, its tables
are related, and the tables that it may not write to are as they were. -/
structure Mirrors (R : String → Table → Table → Prop) (tx : Transaction) (tables base : Tables)
    (b : Store) : Prop where
  numbered : b.Numbered
  backing : b.backing = none
  mirror : ∃ tx', b.transaction? tx.id = some tx' ∧ tx'.mode = tx.mode ∧ tx'.scope = tx.scope ∧
    tx'.active = tx.active
  within : tx.active = true → ∀ n ∈ tx.scope, Option.Rel (R n) (tables.get? n) (b.tables.get? n)
  outside : tx.active = true → ∀ n, ¬ tx.MayWrite n → b.tables.get? n = base.get? n

variable {R : String → Table → Table → Prop} {tx tx' : Transaction} {tables tables' base : Tables}
  {b s s' : Store} {id : Nat} {name : String} {c : Table.Call}

namespace Mirrors

/-- Only the tables that the transaction locks matter. -/
theorem spare (h : Mirrors R tx tables base b)
    (htables : tx.active = true → ∀ n ∈ tx.scope, tables'.get? n = tables.get? n) :
    Mirrors R tx tables' base b where
  numbered := h.numbered
  backing := h.backing
  mirror := h.mirror
  within hactive n hn := by
    rw [htables hactive n hn]
    exact h.within hactive n hn
  outside := h.outside

/-- A call that succeeds succeeds on the other side. -/
theorem write_ok {u : Unit} (h : Mirrors R tx tables base b)
    (hc : ∀ t u, tables.get? name = some t → R name t u → c.Respects (R name) t u)
    (hperform : tx.perform tables name c = .ok (u, tx', tables')) :
    Mirrors R tx' tables' base (b.after (.write tx.id name c)) := by
  obtain ⟨t, t', undo, hmay, ht, htc, rfl, -, htables⟩ := Transaction.perform_ok hperform
  obtain ⟨tx₁, htx₁, hmode, hscope, hactive⟩ := h.mirror
  have hrel := h.within hmay.1 name hmay.2.2
  obtain ⟨u, hu, hR⟩ := exists_of_rel hrel ht
  have hmay₁ := (Transaction.mayWrite_congr hactive hmode hscope name).2 hmay
  rcases hc t u ht hR with ⟨t'', u', htc', huc, hR'⟩ | ⟨⟨e, he⟩, -⟩
  · -- The other table takes the call too, and the other transaction may write to it.
    cases htc.symm.trans htc'
    obtain ⟨tx₂, tables₂, hperform₂⟩ := Transaction.perform_of_mayWrite hmay₁ hu huc
    obtain ⟨u₀, u'', undo₂, -, hu₀, huc', rfl, -, htables₂⟩ := Transaction.perform_ok hperform₂
    cases hu.symm.trans hu₀
    cases huc.symm.trans huc'
    obtain ⟨hmem, hid⟩ := transaction?_eq_some htx₁
    have hafter : b.after (.write tx.id name c) =
        { b.setTransaction { tx₁ with undo := undo₂ } with tables := tables₂ } := by
      simp only [Store.after, writeIn, htx₁, hperform₂]
    rw [hafter]
    refine ⟨h.numbered.of_ids (ids_setTransaction _) rfl, h.backing, ?_, fun _ n hn => ?_,
      fun hlive n hn => ?_⟩
    · refine ⟨{ tx₁ with undo := undo₂ }, ?_, hmode, hscope, hactive⟩
      have hsame : ({ tx₁ with undo := undo₂ } : Transaction).id = tx₁.id := rfl
      rw [← hid]
      exact h.numbered.transaction?_setTransaction hmem hsame tables₂
    · show Option.Rel _ (tables'.get? n) (tables₂.get? n)
      rw [htables, htables₂]
      split
      · next hname =>
        rw [← hname]
        exact .some hR'
      · exact h.within hmay.1 n hn
    · show tables₂.get? n = _
      rw [htables₂, if_neg]
      · exact h.outside hlive n hn
      · rintro rfl
        exact hn hmay
  · rw [htc] at he
    cases he

/-- A call that fails fails on the other side. -/
theorem write_error (h : Mirrors R tx tables base b) {e : Error}
    (hc : ∀ t u, tables.get? name = some t → R name t u → c.Respects (R name) t u)
    (hperform : tx.perform tables name c = .error e) :
    Mirrors R tx tables base (b.after (.write tx.id name c)) := by
  obtain ⟨tx₁, htx₁, hmode, hscope, hactive⟩ := h.mirror
  have hafter : b.after (.write tx.id name c) = b := by
    simp only [Store.after, writeIn, htx₁]
    split
    · next hperform₁ =>
      -- Otherwise it would succeed here, too.
      obtain ⟨u, u', -, hmay₁, hu, huc, -⟩ := Transaction.perform_ok hperform₁
      have hmay := (Transaction.mayWrite_congr hactive hmode hscope name).1 hmay₁
      have hrel := h.within hmay.1 name hmay.2.2
      rw [hu] at hrel
      generalize ht : tables.get? name = x at hrel
      cases hrel with
      | @some t _ hR =>
        rcases hc t u ht hR with ⟨t', u'', htc, -⟩ | ⟨-, e', he'⟩
        · obtain ⟨tx₂, tables₂, hperform₂⟩ := Transaction.perform_of_mayWrite hmay ht htc
          rw [hperform] at hperform₂
          cases hperform₂
        · rw [huc] at he'
          cases he'
    · rfl
  rw [hafter]
  exact h

/-- A transaction that is aborted is inactive on both sides. -/
theorem abort (h : Mirrors R tx tables base b) :
    Mirrors R (tx.abort tables).1 (tx.abort tables).2 base (b.after (.abort tx.id)) := by
  obtain ⟨tx₁, htx₁, hmode, hscope, hactive⟩ := h.mirror
  obtain ⟨hmem, hid⟩ := transaction?_eq_some htx₁
  have hafter : b.after (.abort tx.id) =
      { b.setTransaction (tx₁.abort b.tables).1 with tables := (tx₁.abort b.tables).2 } := by
    simp only [Store.after, Store.abort, htx₁]
  obtain ⟨hid', hmode', hscope', hactive'⟩ := tx.abort_frame tables
  obtain ⟨hid₁, hmode₁, hscope₁, hactive₁⟩ := tx₁.abort_frame b.tables
  rw [hafter]
  refine ⟨h.numbered.of_ids (ids_setTransaction _) rfl, h.backing, ⟨(tx₁.abort b.tables).1, ?_, ?_, ?_, ?_⟩,
    fun hlive => ?_, fun hlive => ?_⟩
  · rw [hid', ← hid]
    exact h.numbered.transaction?_setTransaction hmem hid₁ _
  · rw [hmode₁, hmode', hmode]
  · rw [hscope₁, hscope', hscope]
  · rw [hactive₁, hactive']
  all_goals
    rw [hactive'] at hlive
    cases hlive

/-- What began on tables that are related begins on the others. -/
theorem begin {names : List String} {mode : TransactionMode}
    (hb : s.beginTransaction names mode = .ok (id, s')) (hnext : b.nextId = id)
    (hnone : b.transactions = []) (hbacking : b.backing = none)
    (htables : ∀ n ∈ (SortedSet.ofList names).keys,
      Option.Rel (R n) (s.tables.get? n) (b.tables.get? n)) :
    Mirrors R { id, mode, scope := (SortedSet.ofList names).keys } s'.tables b.tables
      (b.after (.begin names mode)) := by
  obtain ⟨hacquired, -, rfl⟩ := beginTransaction_ok hb
  have hacquire : b.acquire mode (SortedSet.ofList names).keys = .ok () := by
    refine acquire_eq_ok_iff.2 fun n hn => ⟨?_, by simp [isBlocked, hnone]⟩
    obtain ⟨t, ht⟩ := Option.isSome_iff_exists.1 (acquire_eq_ok_iff.1 hacquired n hn).1
    have hrel := htables n hn
    obtain ⟨u, hu, -⟩ := exists_of_rel hrel ht
    rw [hu]
    rfl
  have hafter : b.after (.begin names mode) =
      { b with
        transactions := [{ id, mode, scope := (SortedSet.ofList names).keys }], nextId := id + 1 } := by
    simp only [Store.after, beginTransaction, hacquire, hnone, hnext]
    rfl
  rw [hafter]
  exact ⟨⟨by simp, by simp⟩, hbacking, ⟨_, by simp [transaction?], rfl, rfl, rfl⟩,
    fun _ => htables, fun _ _ _ => rfl⟩

/-- On equal tables the transaction reads the same. -/
theorem readIn_eq {α : Type} (h : Mirrors (fun _ => Eq) tx s.tables base b)
    (htx : s.transaction? tx.id = some tx) (n : String) (f : Table → Except Error α) :
    s.readIn tx.id n f = b.readIn tx.id n f := by
  obtain ⟨tx₁, htx₁, -, hscope, hactive⟩ := h.mirror
  have htable : tx.table s.tables n = tx₁.table b.tables n := by
    unfold Transaction.table
    rw [hactive, hscope]
    by_cases hlive : tx.active = true
    · by_cases hn : n ∈ tx.scope
      · have hrel := h.within hlive n hn
        have heq : s.tables.get? n = b.tables.get? n := by
          generalize s.tables.get? n = x, b.tables.get? n = y at hrel
          cases hrel with
          | some heq => rw [heq]
          | none => rfl
        rw [heq]
      · simp [hn]
    · simp [hlive]
  simp only [readIn, htx, htx₁, htable]

/-- Without a directory a commit lets all tables stand. -/
theorem tables_commit (h : Mirrors R tx tables base b) :
    (b.after (.commit tx.id)).tables = b.tables := by
  obtain ⟨tx₁, htx₁, -⟩ := h.mirror
  simp only [Store.after, commit, htx₁, commitTransaction, h.backing]
  split <;> rfl

end Mirrors

end Store

end RelationalStore

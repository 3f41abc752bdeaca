import RelationalStore.Proofs.StoreRuns

/- What a transaction that is aborted or dropped leaves. After any calls of it, on any of its tables
   and under any keys, a rollback leads to the tables it was opened over (`Store.Undoes`), which is
   carried from call to call by what a write keeps (`Transaction.Leads`). So every table answers as
   it did. An aborted transaction stays inactive whatever is done with the store (`Store.Ended`),
   and is refused everything. -/
namespace RelationalStore
open SortedMap

namespace Store
variable {kinds : String → String → ScalarKind} {first opened : Tables} {s : Store} {id : Nat}

/-! ### Until the end -/

/-- The transaction is active, and a rollback of it leads back to the tables. -/
def Undoes (kinds : String → String → ScalarKind) (id : Nat) (opened : Tables) (s : Store) : Prop :=
  ∃ tx, s.transaction? id = some tx ∧ tx.active = true ∧ ∀ n,
    Option.Rel (Table.Agrees (.ofKinds (kinds n))) ((tx.rollback s.tables).get? n) (opened.get? n)

theorem Isolated.undoes_begin (h : s.Isolated (.ofKinds ∘ kinds) first) {names : List String}
    {mode : TransactionMode} {s' : Store} (hb : s.beginTransaction names mode = .ok (id, s')) :
    s'.Undoes kinds id s.tables := by
  refine ⟨_, h.numbered.transaction?_begin hb, rfl, fun n => ?_⟩
  rw [(beginTransaction_ok hb).2.2]
  show Option.Rel _ (s.tables.get? n) (s.tables.get? n)
  cases ht : s.tables.get? n with
  | none => exact .none
  | some t => exact .some (.refl (h.under.good ht))

/-- One call, whether it fails or not. -/
theorem Undoes.write (h : s.Undoes kinds id opened) (hs : s.Isolated (.ofKinds ∘ kinds) first)
    {table : String} {call : Table.Call} (hc : (Step.write id table call).OfKinds kinds first) :
    (s.after (.write id table call)).Undoes kinds id opened := by
  obtain ⟨tx, htx, hactive, hback⟩ := h
  obtain ⟨hmem, rfl⟩ := transaction?_eq_some htx
  simp only [after, writeIn, htx]
  split
  · next hperform =>
    have hleads := Transaction.leads_perform hs.under (hs.logged tx hmem) (hs.ofKinds_now hc) hperform
    refine ⟨_, hs.numbered.transaction?_setTransaction hmem hleads.id _, hleads.live.trans hactive,
      fun n => ?_⟩
    exact Transaction.agrees_trans (hleads.back n) (hback n)
  · exact ⟨tx, htx, hactive, hback⟩

/-- A run of calls. -/
theorem Undoes.writes (h : s.Undoes kinds id opened) (hs : s.Isolated (.ofKinds ∘ kinds) first)
    {calls : List (String × Table.Call)}
    (hcalls : ∀ c ∈ calls, (Step.write id c.1 c.2).OfKinds kinds first) :
    ((calls.map fun c => Step.write id c.1 c.2).foldl after s).Undoes kinds id opened := by
  induction calls generalizing s with
  | nil => exact h
  | cons c rest ih =>
    have hc := hcalls c List.mem_cons_self
    exact ih (h.write hs hc) (follows_after hs hc).isolated fun d hd =>
      hcalls d (List.mem_cons_of_mem c hd)

theorem Undoes.abort (h : s.Undoes kinds id opened) (n : String) :
    Option.Rel (Table.Answers (kinds n)) ((s.abort id).tables.get? n) (opened.get? n) := by
  obtain ⟨tx, htx, hactive, hback⟩ := h
  rw [abort_of_active htx hactive]
  exact rel_imp (hback n) fun _ _ h => h.answers

/-! ### Afterwards -/

/-- The number was given, and no active transaction has it. -/
structure Ended (id : Nat) (s : Store) : Prop where
  given : id < s.nextId
  inactive : ∀ tx ∈ s.transactions, tx.id = id → tx.active = false

theorem Ended.of_fewer {s' : Store} (h : s.Ended id) (hnext : s'.nextId = s.nextId)
    (hfewer : ∀ tx ∈ s'.transactions, tx ∈ s.transactions) : s'.Ended id :=
  ⟨by rw [hnext]; exact h.given, fun tx htx => h.inactive tx (hfewer tx htx)⟩

theorem Ended.abort (h : s.Ended id) (other : Nat) : (s.abort other).Ended id := by
  unfold Store.abort
  split
  · next tx htx =>
    refine ⟨h.given, fun b hb hid => ?_⟩
    rcases mem_setTransaction hb with rfl | ⟨hb, -⟩
    · exact (tx.abort_frame s.tables).2.2.2
    · exact h.inactive b hb hid
  · exact h

/-- Whatever is done. -/
theorem Ended.after (h : s.Ended id) (a : Step) : (s.after a).Ended id := by
  cases a with
  | begin names mode =>
    simp only [Store.after]
    cases hb : s.beginTransaction names mode with
    | error e => exact h
    | ok r =>
      obtain ⟨-, hid, hs'⟩ := beginTransaction_ok hb
      have hgiven := h.given
      simp only [Except.toOption, Option.elim, hs']
      refine ⟨Nat.lt_succ_of_lt hgiven, fun b hb hbid => ?_⟩
      rcases List.mem_append.1 hb with hb | hb
      · exact h.inactive b hb hbid
      · -- The new one has a number that was not given.
        rw [List.mem_singleton.1 hb] at hbid
        simp only at hbid
        omega
  | write other table call =>
    simp only [Store.after, writeIn]
    split
    · exact h
    · next tx htx =>
      split
      · next hperform =>
        obtain ⟨-, -, undo, hmay, -, -, rfl, -⟩ := Transaction.perform_ok hperform
        refine ⟨h.given, fun b hb hid => ?_⟩
        rcases mem_setTransaction hb with rfl | ⟨hb, -⟩
        · -- One that wrote is active, so it is another one.
          have := h.inactive tx (transaction?_eq_some htx).1 hid
          rw [hmay.1] at this
          cases this
        · exact h.inactive b hb hid
      · exact h
  | commit other =>
    simp only [Store.after, commit]
    split
    · next tx htx =>
      obtain ⟨htransactions, hnext⟩ := commitTransaction_frame (s := s) tx
      refine h.of_fewer hnext fun b hb => ?_
      rw [mem_forget, htransactions] at hb
      exact hb.1
    · exact h
  | abort other => exact h.abort other
  | drop other => exact (h.abort other).of_fewer rfl fun b hb => (mem_forget.1 hb).1

theorem Ended.foldl (h : s.Ended id) (steps : List Step) : (steps.foldl Store.after s).Ended id := by
  induction steps generalizing s with
  | nil => exact h
  | cons a rest ih => exact ih (h.after a)

/-- A transaction that has ended is refused what it asks for, and nothing changes. -/
structure Refuses (id : Nat) (s : Store) : Prop where
  read : ∀ {α : Type} (n : String) (f : Table → Except Error α),
    s.readIn id n f = .error .transactionInactive
  add : ∀ n row, s.writeIn id (fun tx tables => tx.add tables n row) =
    (.error .transactionInactive, s)
  put : ∀ n row, s.writeIn id (fun tx tables => tx.put tables n row) =
    (.error .transactionInactive, s)
  delete : ∀ n key, s.writeIn id (fun tx tables => tx.delete tables n key) =
    (.error .transactionInactive, s)
  commit : s.commit id = (.error .transactionInactive, s.forget id)

theorem Ended.refuses (h : s.Ended id) : s.Refuses id := by
  cases htx : s.transaction? id with
  | none =>
    have hforget : s.forget id = s := by
      rw [forget, List.filter_eq_self.2 fun tx hmem => ?_]
      simpa using List.find?_eq_none.1 htx tx hmem
    refine ⟨fun n f => ?_, fun n row => ?_, fun n row => ?_, fun n key => ?_, ?_⟩
    · simp only [readIn, htx]
      rfl
    all_goals simp only [writeIn, commit, htx, hforget]
  | some tx =>
    have hinactive := h.inactive tx (transaction?_eq_some htx).1 (transaction?_eq_some htx).2
    have htable (n : String) : tx.table s.tables n = .error .transactionInactive := by
      simp [Transaction.table, hinactive]
    constructor
    all_goals
      intros
      simp only [readIn, writeIn, commit, htx, Transaction.add, Transaction.put, Transaction.delete,
        Transaction.tableToWrite, htable, commitTransaction, hinactive]
      rfl

theorem Undoes.ended (h : s.Undoes kinds id opened) (hs : s.Isolated (.ofKinds ∘ kinds) first) :
    (s.abort id).Ended id := by
  obtain ⟨tx, htx, -⟩ := h
  obtain ⟨hmem, rfl⟩ := transaction?_eq_some htx
  refine ⟨?_, fun b => inactive_abort⟩
  rw [nextId_abort]
  exact hs.numbered.below tx hmem

/-- Writes the amount with fifteen places, and that is the form which an abort puts back. -/
def rewriting : List (String × Table.Call) :=
  [("price", .put (price 4400000000000000 15)), ("price", .add (price 5 0)),
    ("price", .add (price 5 0)), ("price", .delete ⟨[.decimal ⟨false, 44, 1⟩]⟩)]

/-- Whatever is done with a store before, and whatever calls are made in a transaction that writes,
as long as each column of a key gets null or values of one kind: when the transaction is aborted, or
dropped, every table answers as it did when the transaction was opened. An aborted transaction is
refused everything from then on. -/
theorem abort_answers {s₀ : Store} (h₀ : s₀.Settled kinds) {before : List Step}
    (hbefore : ∀ a ∈ before, a.OfKinds kinds s₀.tables) {names : List String}
    (hb : (before.foldl after s₀).beginTransaction names .readWrite = .ok (id, s))
    {calls : List (String × Table.Call)}
    (hcalls : ∀ c ∈ calls, (Step.write id c.1 c.2).OfKinds kinds s₀.tables) :
    let opened := (before.foldl after s₀).tables
    let left := (calls.map fun c => Step.write id c.1 c.2).foldl after s
    (∀ n, Option.Rel (Table.Answers (kinds n)) ((left.abort id).tables.get? n) (opened.get? n)) ∧
      (∀ n, Option.Rel (Table.Answers (kinds n)) ((left.drop id).tables.get? n) (opened.get? n)) ∧
      ∀ later : List Step, (later.foldl after (left.abort id)).Refuses id := by
  have hisolated := (follows_foldl h₀.isolated hbefore).isolated
  have hbegun := (hisolated.follows_begin hb).isolated
  have hundoes := (hisolated.undoes_begin hb).writes hbegun hcalls
  intro opened left
  have hleft : left.Isolated (.ofKinds ∘ kinds) s₀.tables :=
    (follows_foldl hbegun (List.forall_mem_map.2 hcalls)).isolated
  exact ⟨hundoes.abort, hundoes.abort, fun later => ((hundoes.ended hleft).foldl later).refuses⟩

/-- Four calls, of which one fails and one removes what another wrote, are taken back. -/
theorem abort_answers_prices :
    ∃ s, (pricing.foldl after prices).beginTransaction ["price"] .readWrite = .ok (2, s) ∧
      let left := (rewriting.map fun c => Step.write 2 c.1 c.2).foldl after s
      pricesAt left.tables (.decimal ⟨false, 5, 0⟩) = 1 ∧
        pricesAt left.tables (.decimal ⟨false, 44, 1⟩) = 0 ∧
        (∀ n, Option.Rel (Table.Answers fun _ => .decimal) ((left.abort 2).tables.get? n)
          ((pricing.foldl after prices).tables.get? n)) ∧
        ((left.abort 2).after (.begin ["price"] .readOnly)).Refuses 2 := by
  have hruns : ((pricing.foldl after prices).beginTransaction ["price"] .readWrite).toOption.any
      fun r => r.1 = 2 ∧
        let left := (rewriting.map fun c => Step.write 2 c.1 c.2).foldl after r.2
        pricesAt left.tables (.decimal ⟨false, 5, 0⟩) = 1 ∧
          pricesAt left.tables (.decimal ⟨false, 44, 1⟩) = 0 := by
    decide +kernel
  obtain ⟨⟨id, s⟩, hb, hleft⟩ := (Option.any_eq_true _ _).1 hruns
  obtain ⟨rfl, hfive, hnone⟩ := of_decide_eq_true hleft
  have hbegin := Except.toOption_eq_some.1 hb
  have hpricing : ∀ a ∈ pricing, a.OfKinds (fun _ _ => .decimal) prices.tables := by decide +kernel
  have hrewriting : ∀ c ∈ rewriting,
      (Step.write 2 c.1 c.2).OfKinds (fun _ _ => .decimal) prices.tables := by
    decide +kernel
  obtain ⟨habort, -, hrefuses⟩ := abort_answers (settled_prices _) hpricing hbegin hrewriting
  exact ⟨s, hbegin, hfive, hnone, habort, hrefuses [.begin ["price"] .readOnly]⟩

/-- With other keys answers can change. The floating-point number that is nearest to "4.4" finds the
price before, and does not find it when a call that wrote the amount in another way has been taken
back. And two integers that are deleted under the floating-point number that is equal to both are put
back under that number, where there is room for one. -/
theorem abort_answers_inexact :
    (∃ s, (pricing.foldl after prices).beginTransaction ["price"] .readWrite = .ok (2, s) ∧
      (∀ a ∈ pricing, a.OfKinds (fun _ _ => .decimal) prices.tables) ∧
      (∀ c ∈ rewriting, (Step.write 2 c.1 c.2).OfKinds (fun _ _ => .decimal) prices.tables) ∧
      let left := (rewriting.map fun c => Step.write 2 c.1 c.2).foldl after s
      pricesAt (pricing.foldl after prices).tables (.float ⟨0x401199999999999A⟩) = 1 ∧
        pricesAt (left.abort 2).tables (.float ⟨0x401199999999999A⟩) = 0) ∧
      ∃ s, (counting.foldl after prices).beginTransaction ["price"] .readWrite = .ok (2, s) ∧
        (∀ a ∈ counting, a.OfKinds (fun _ _ => .int) prices.tables) ∧
        let left := (merging.map fun c => Step.write 2 c.1 c.2).foldl after s
        (((counting.foldl after prices).tables.get? "price").map (·.size)) = some 2 ∧
          (((left.abort 2).tables.get? "price").map (·.size)) = some 1 := by
  refine ⟨⟨_, rfl, ?_, ?_, ?_, ?_⟩, ⟨_, rfl, ?_, ?_, ?_⟩⟩ <;> decide +kernel

end Store

end RelationalStore

import Mathlib.Data.List.Nodup
import RelationalStore.Client
import RelationalStore.Proofs.MapEntries
import RelationalStore.Proofs.OperationTriple

/- What a client goes through after it was opened: requests, transactions that are begun, written in
   and ended, and subscriptions. The ways in which an operation can go are listed once, for a
   transaction that is given (`Client.RunsIn`) and for one of its own (`Client.RunsAlone`). The
   schema stays what it was, and the numbers of the open transactions are their own and lie below
   the next one to be given (`Store.Numbered`). -/
namespace RelationalStore

namespace Client

/-- Something that is done with a client. -/
inductive Action : Type 1 where
  | ask {α : Type} (entity : String) (request : Request α) (tx : Option Nat)
  | begin (tables : List String) (mode : TransactionMode)
  | commit (tx : Nat)
  | abort (tx : Nat)
  | drop (tx : Nat)
  | add (tx : Nat) (table : String) (row : Row)
  | put (tx : Nat) (table : String) (row : Row)
  | delete (tx : Nat) (table : String) (key : Key)
  | subscribe (entity : String) (kinds : List ChangeKind) (listener : String)
  | unsubscribe (entity : String) (id : Nat)

/-- The client with another store. -/
def withStore (c : Client) (store : Store) : Client := { c with store }

/-- The client after something was done; what fails may have aborted a transaction. -/
def after (c : Client) : Action → Client
  | .ask entity r tx => (c.ask entity r tx).client
  | .begin tables mode =>
    match c.store.beginTransaction tables mode with
    | .ok (_, store) => c.withStore store
    | .error _ => c
  | .commit tx => c.withStore (c.store.commit tx).2
  | .abort tx => c.withStore (c.store.abort tx)
  | .drop tx => c.withStore (c.store.drop tx)
  | .add tx table row => c.withStore (c.store.writeIn tx (·.add · table row)).2
  | .put tx table row => c.withStore (c.store.writeIn tx (·.put · table row)).2
  | .delete tx table key => c.withStore (c.store.writeIn tx (·.delete · table key)).2
  | .subscribe entity kinds listener =>
    match c.subscribe entity kinds listener with
    | .ok (_, c) => c
    | .error _ => c
  | .unsubscribe entity id =>
    match c.unsubscribe entity id with
    | .ok (_, c) => c
    | .error _ => c

/-- A client of the schema that was just opened. -/
def Opened (s : Schema) (c : Client) : Prop :=
  ∃ config supply directory, (openWith s config supply directory).result = .ok c

/-- A client of the schema, whatever was done with it since it was opened. -/
def Reached (s : Schema) (c : Client) : Prop :=
  ∃ c₀ : Client, c₀.Opened s ∧ ∃ actions : List Action, c = actions.foldl after c₀

end Client

/-! ### The numbers of transactions -/

namespace Store

/-- Open transactions have numbers of their own, all of them given before. -/
structure Numbered (s : Store) : Prop where
  distinct : (s.transactions.map (·.id)).Nodup
  below : ∀ tx ∈ s.transactions, tx.id < s.nextId

variable {s : Store}

theorem transaction?_eq_some {id : Nat} {tx : Transaction} (h : s.transaction? id = some tx) :
    tx ∈ s.transactions ∧ tx.id = id :=
  ⟨List.mem_of_find?_eq_some h, by simpa using List.find?_some h⟩

theorem Numbered.transaction?_iff (h : s.Numbered) {id : Nat} {tx : Transaction} :
    s.transaction? id = some tx ↔ tx ∈ s.transactions ∧ tx.id = id := by
  refine ⟨transaction?_eq_some, ?_⟩
  intro hboth
  obtain ⟨hmem, rfl⟩ := hboth
  exact SortedMap.find?_of_nodup h.distinct hmem

@[simp] theorem ids_setTransaction (tx : Transaction) :
    (s.setTransaction tx).transactions.map (·.id) = s.transactions.map (·.id) := by
  rw [setTransaction, List.map_map]
  refine List.map_congr_left fun t _ => ?_
  by_cases h : t.id = tx.id <;> simp [h]

/-- Only the list of numbers matters. -/
theorem Numbered.of_ids {s' : Store} (h : s.Numbered)
    (hids : s'.transactions.map (·.id) = s.transactions.map (·.id)) (hnext : s'.nextId = s.nextId) :
    s'.Numbered := by
  refine ⟨by rw [hids]; exact h.distinct, fun tx htx => ?_⟩
  have hmem : tx.id ∈ s'.transactions.map (·.id) := List.mem_map_of_mem htx
  rw [hids] at hmem
  obtain ⟨old, hold, heq⟩ := List.mem_map.1 hmem
  rw [hnext, ← heq]
  exact h.below old hold

/-- The next state of a transaction is found under its number. -/
theorem Numbered.transaction?_setTransaction (h : s.Numbered) {tx tx' : Transaction}
    (htx : tx ∈ s.transactions) (hid : tx'.id = tx.id) (tables : Tables) :
    ({ s.setTransaction tx' with tables := tables } : Store).transaction? tx.id = some tx' := by
  have hnext : ({ s.setTransaction tx' with tables := tables } : Store).Numbered :=
    h.of_ids (ids_setTransaction tx') rfl
  refine hnext.transaction?_iff.2 ⟨List.mem_map.2 ⟨tx, htx, ?_⟩, hid⟩
  simp [hid]

theorem abort_of_active {id : Nat} {tx : Transaction} (htx : s.transaction? id = some tx)
    (hactive : tx.active = true) : s.abort id =
      { s.setTransaction { tx with active := false, undo := [] } with
        tables := tx.rollback s.tables } := by
  simp [Store.abort, htx, Transaction.abort, hactive]

theorem Numbered.forget (h : s.Numbered) (id : Nat) : (s.forget id).Numbered :=
  ⟨h.distinct.sublist (List.filter_sublist.map _),
    fun tx htx => h.below tx (List.mem_of_mem_filter htx)⟩

theorem Numbered.abort (h : s.Numbered) (id : Nat) : (s.abort id).Numbered := by
  unfold Store.abort
  split
  · exact h.of_ids (ids_setTransaction _) rfl
  · exact h

theorem Numbered.drop (h : s.Numbered) (id : Nat) : (s.drop id).Numbered := (h.abort id).forget id

theorem commitTransaction_frame (tx : Transaction) :
    (s.commitTransaction tx).2.transactions = s.transactions ∧
      (s.commitTransaction tx).2.nextId = s.nextId := by
  unfold commitTransaction
  split
  · exact ⟨rfl, rfl⟩
  · split
    · exact ⟨rfl, rfl⟩
    · split
      · exact ⟨rfl, rfl⟩
      · simp only
        split <;> exact ⟨rfl, rfl⟩

theorem Numbered.commit (h : s.Numbered) (id : Nat) : (s.commit id).2.Numbered := by
  unfold Store.commit
  split
  · next tx _ =>
    obtain ⟨hids, hnext⟩ := commitTransaction_frame (s := s) tx
    exact (h.of_ids (by rw [hids]) hnext).forget id
  · exact h

/-- What begins has the next number and the named tables as its scope. -/
theorem beginTransaction_ok {tables : List String} {mode : TransactionMode} {id : Nat} {s' : Store}
    (h : s.beginTransaction tables mode = .ok (id, s')) :
    s.acquire mode (SortedSet.ofList tables).keys = .ok () ∧ id = s.nextId ∧
      s' = { s with
        transactions := s.transactions ++ [{ id := id, mode, scope := (SortedSet.ofList tables).keys }],
        nextId := s.nextId + 1 } := by
  unfold beginTransaction at h
  cases ha : s.acquire mode (SortedSet.ofList tables).keys with
  | error e => simp [ha, bind, Except.bind] at h
  | ok u =>
    simp only [ha] at h
    cases h
    exact ⟨rfl, rfl, rfl⟩

theorem Numbered.begin (h : s.Numbered) {tables : List String} {mode : TransactionMode} {id : Nat}
    {s' : Store} (hb : s.beginTransaction tables mode = .ok (id, s')) : s'.Numbered := by
  obtain ⟨-, rfl, rfl⟩ := beginTransaction_ok hb
  refine ⟨?_, ?_⟩
  · rw [List.map_append, List.nodup_append]
    refine ⟨h.distinct, by simp, fun i hi j hj heq => ?_⟩
    obtain ⟨tx, htx, rfl⟩ := List.mem_map.1 hi
    have hlt := h.below tx htx
    simp only [List.map_cons, List.map_nil, List.mem_singleton] at hj
    omega
  · intro tx htx
    rcases List.mem_append.1 htx with htx | htx
    · exact Nat.lt_succ_of_lt (h.below tx htx)
    · rw [List.mem_singleton.1 htx]
      exact Nat.lt_succ_self _

/-- What was begun is found under its number. -/
theorem Numbered.transaction?_begin (h : s.Numbered) {tables : List String}
    {mode : TransactionMode} {id : Nat} {s' : Store}
    (hb : s.beginTransaction tables mode = .ok (id, s')) :
    s'.transaction? id = some { id, mode, scope := (SortedSet.ofList tables).keys } := by
  refine (h.begin hb).transaction?_iff.2 ⟨?_, rfl⟩
  obtain ⟨-, rfl, rfl⟩ := beginTransaction_ok hb
  exact List.mem_append_right _ (List.mem_singleton_self _)

theorem Numbered.writeIn {α : Type} (h : s.Numbered) (id : Nat)
    (f : Transaction → Tables → Except Error (α × Transaction × Tables)) :
    (s.writeIn id f).2.Numbered := by
  unfold Store.writeIn
  split
  · exact h
  · split
    · exact h.of_ids (ids_setTransaction _) rfl
    · exact h

end Store

/-- No transaction is open in a store that was just opened. -/
theorem Store.transactions_openWith {config : Config} {steps : List UpgradeStep} {d : Directory}
    {store : Store} (h : (Store.openWith config steps d).result = .ok store) :
    store.transactions = [] := by
  unfold Store.openWith at h
  split at h
  · cases h
  · split at h
    · obtain ⟨u, -, rfl⟩ := Except.map_eq_ok.1 h
      rfl
    · unfold Store.openDirectory at h
      simp only at h
      split at h
      · cases h
      · split at h
        · cases h
        · split at h
          · cases h
            rfl
          · split at h
            · cases h
            · split at h
              · cases h
              · cases h
                rfl

namespace Client
variable {c : Client} {α : Type}

/-- Subscriptions are beside the store. -/
theorem after_subscribe (c : Client) (entity : String) (kinds : List ChangeKind)
    (listener : String) :
    (c.after (.subscribe entity kinds listener)).store = c.store ∧
      (c.after (.subscribe entity kinds listener)).schema = c.schema := by
  simp only [after]
  split
  · next heq =>
    obtain ⟨⟨⟩, -, h⟩ := Except.bind_eq_ok.1 heq
    cases h
    exact ⟨rfl, rfl⟩
  · exact ⟨rfl, rfl⟩

theorem after_unsubscribe (c : Client) (entity : String) (id : Nat) :
    (c.after (.unsubscribe entity id)).store = c.store ∧
      (c.after (.unsubscribe entity id)).schema = c.schema := by
  simp only [after]
  split
  · next heq =>
    obtain ⟨⟨⟩, -, h⟩ := Except.bind_eq_ok.1 heq
    cases h
    exact ⟨rfl, rfl⟩
  · exact ⟨rfl, rfl⟩

/-- How an operation goes that is run in a transaction that is given. -/
inductive RunsIn (c : Client) (id : Nat) (op : Operation α) : Outcome α → Prop where
  | missing (htx : c.store.transaction? id = none) :
      RunsIn c id op ⟨.error .transactionInactive, c, []⟩
  | failed {tx : Transaction} {e : Error} {c' : Client} (htx : c.store.transaction? id = some tx)
      (hrun : c.run tx op = (.error e, c')) :
      RunsIn c id op ⟨.error e, c'.withStore (c'.store.abort id), []⟩
  | done {tx : Transaction} {a : α} {changes : List Change} {c' : Client}
      (htx : c.store.transaction? id = some tx) (hrun : c.run tx op = (.ok (a, changes), c')) :
      RunsIn c id op ⟨.ok a, c', c'.deliveries changes⟩

/-- How an operation goes that is run in a transaction of its own. -/
inductive RunsAlone (c : Client) (tables : List String) (mode : TransactionMode) (op : Operation α) :
    Outcome α → Prop where
  | refused {e : Error} (hb : c.store.beginTransaction tables mode = .error e) :
      RunsAlone c tables mode op ⟨.error e, c, []⟩
  | missing {id : Nat} {store : Store} (hb : c.store.beginTransaction tables mode = .ok (id, store))
      (htx : store.transaction? id = none) :
      RunsAlone c tables mode op ⟨.error .transactionInactive, c.withStore store, []⟩
  | failed {id : Nat} {store : Store} {tx : Transaction} {e : Error} {c' : Client}
      (hb : c.store.beginTransaction tables mode = .ok (id, store))
      (htx : store.transaction? id = some tx) (hrun : (c.withStore store).run tx op = (.error e, c')) :
      RunsAlone c tables mode op ⟨.error e, c'.withStore (c'.store.drop id), []⟩
  | uncommitted {id : Nat} {store : Store} {tx : Transaction} {a : α} {changes : List Change}
      {c' : Client} {e : Error} (hb : c.store.beginTransaction tables mode = .ok (id, store))
      (htx : store.transaction? id = some tx)
      (hrun : (c.withStore store).run tx op = (.ok (a, changes), c'))
      (hcommit : (c'.store.commit id).1 = .error e) :
      RunsAlone c tables mode op ⟨.error e, c'.withStore (c'.store.commit id).2, []⟩
  | done {id : Nat} {store : Store} {tx : Transaction} {a : α} {changes : List Change} {c' : Client}
      (hb : c.store.beginTransaction tables mode = .ok (id, store))
      (htx : store.transaction? id = some tx)
      (hrun : (c.withStore store).run tx op = (.ok (a, changes), c'))
      (hcommit : (c'.store.commit id).1 = .ok ()) :
      RunsAlone c tables mode op ⟨.ok a, c'.withStore (c'.store.commit id).2,
        (c'.withStore (c'.store.commit id).2).deliveries changes⟩

theorem runsIn (c : Client) (id : Nat) (op : Operation α) : c.RunsIn id op (c.runIn id op) := by
  unfold runIn
  split
  · next htx => exact .missing htx
  · next tx htx =>
    split
    · next hrun => exact .done htx hrun
    · next hrun => exact .failed htx hrun

theorem runsAlone (c : Client) (tables : List String) (mode : TransactionMode) (op : Operation α) :
    c.RunsAlone tables mode op (c.runAlone tables mode op) := by
  unfold runAlone
  split
  · next hb => exact .refused hb
  · next id store hb =>
    simp only
    split
    · next htx => exact .missing hb htx
    · next tx htx =>
      split
      · next hrun => exact .failed hb htx hrun
      · next hrun =>
        split
        · next hcommit => exact .done hb htx hrun hcommit
        · next hcommit => exact .uncommitted hb htx hrun hcommit

section
variable {tx : Transaction} {op : Operation α} {outcome : Except Error (α × List Change)} {c' : Client}

theorem numbered_run (h : c.store.Numbered) (hrun : c.run tx op = (outcome, c')) :
    c'.store.Numbered := by
  unfold run at hrun
  simp only at hrun
  split at hrun <;> cases hrun <;> exact h.of_ids (Store.ids_setTransaction _) rfl

theorem schema_run (hrun : c.run tx op = (outcome, c')) : c'.schema = c.schema := by
  unfold run at hrun
  simp only at hrun
  split at hrun <;> cases hrun <;> rfl

end

theorem numbered_runIn (h : c.store.Numbered) (id : Nat) (op : Operation α) :
    (c.runIn id op).client.store.Numbered := by
  have hruns := c.runsIn id op
  generalize c.runIn id op = o at hruns ⊢
  cases hruns with
  | missing => exact h
  | failed _ hrun => exact (numbered_run h hrun).abort id
  | done _ hrun => exact numbered_run h hrun

theorem numbered_runAlone (h : c.store.Numbered) (tables : List String) (mode : TransactionMode)
    (op : Operation α) : (c.runAlone tables mode op).client.store.Numbered := by
  have hruns := c.runsAlone tables mode op
  generalize c.runAlone tables mode op = o at hruns ⊢
  cases hruns with
  | refused => exact h
  | missing hb => exact h.begin hb
  | failed hb _ hrun => exact (numbered_run (h.begin hb) hrun).drop _
  | uncommitted hb _ hrun => exact (numbered_run (h.begin hb) hrun).commit _
  | done hb _ hrun => exact (numbered_run (h.begin hb) hrun).commit _

theorem numbered_after (h : c.store.Numbered) (a : Action) : (c.after a).store.Numbered := by
  cases a with
  | ask entity r tx =>
    simp only [after, ask]
    split
    · exact h
    · cases tx with
      | some id => exact numbered_runIn h id _
      | none => exact numbered_runAlone h _ _ _
  | begin tables mode =>
    simp only [after]
    split
    · next hb => exact h.begin hb
    · exact h
  | commit tx => exact h.commit tx
  | abort tx => exact h.abort tx
  | drop tx => exact h.drop tx
  | add tx table row => exact h.writeIn tx _
  | put tx table row => exact h.writeIn tx _
  | delete tx table key => exact h.writeIn tx _
  | subscribe entity kinds listener =>
    rw [(after_subscribe c entity kinds listener).1]
    exact h
  | unsubscribe entity id =>
    rw [(after_unsubscribe c entity id).1]
    exact h

theorem schema_runIn (c : Client) (id : Nat) (op : Operation α) :
    (c.runIn id op).client.schema = c.schema := by
  have hruns := c.runsIn id op
  generalize c.runIn id op = o at hruns ⊢
  cases hruns with
  | missing => rfl
  | failed _ hrun =>
    have hsame := schema_run hrun
    exact hsame
  | done _ hrun =>
    have hsame := schema_run hrun
    exact hsame

theorem schema_runAlone (c : Client) (tables : List String) (mode : TransactionMode)
    (op : Operation α) : (c.runAlone tables mode op).client.schema = c.schema := by
  have hruns := c.runsAlone tables mode op
  generalize c.runAlone tables mode op = o at hruns ⊢
  cases hruns with
  | refused => rfl
  | missing => rfl
  | failed _ _ hrun =>
    have hsame := schema_run hrun
    exact hsame
  | uncommitted _ _ hrun =>
    have hsame := schema_run hrun
    exact hsame
  | done _ _ hrun =>
    have hsame := schema_run hrun
    exact hsame

theorem schema_after (c : Client) (a : Action) : (c.after a).schema = c.schema := by
  cases a with
  | ask entity r tx =>
    simp only [after, ask]
    split
    · rfl
    · cases tx with
      | some id => exact schema_runIn c id _
      | none => exact schema_runAlone c _ _ _
  | begin tables mode =>
    simp only [after]
    split <;> rfl
  | subscribe entity kinds listener => exact (after_subscribe c entity kinds listener).2
  | unsubscribe entity id => exact (after_unsubscribe c entity id).2
  | _ => rfl

theorem schema_foldl (c : Client) (actions : List Action) :
    (actions.foldl after c).schema = c.schema := by
  induction actions generalizing c with
  | nil => rfl
  | cons a rest ih => exact (ih (c.after a)).trans (schema_after c a)

/-! ### Opening -/

theorem Opened.schema {s : Schema} (h : c.Opened s) : c.schema = s := by
  obtain ⟨config, supply, d, h⟩ := h
  obtain ⟨store, -, rfl⟩ := Except.map_eq_ok.1 h
  rfl

theorem Opened.transactions {s : Schema} (h : c.Opened s) : c.store.transactions = [] := by
  obtain ⟨config, supply, d, h⟩ := h
  obtain ⟨store, hstore, rfl⟩ := Except.map_eq_ok.1 h
  exact Store.transactions_openWith hstore

theorem Reached.schema {s : Schema} (h : c.Reached s) : c.schema = s := by
  obtain ⟨c₀, hopened, actions, rfl⟩ := h
  rw [schema_foldl, hopened.schema]

theorem numbered_foldl (h : c.store.Numbered) (actions : List Action) :
    (actions.foldl after c).store.Numbered := by
  induction actions generalizing c with
  | nil => exact h
  | cons a rest ih => exact ih (numbered_after h a)

theorem Opened.numbered {s : Schema} (h : c.Opened s) : c.store.Numbered :=
  ⟨by simp [h.transactions], by simp [h.transactions]⟩

theorem Reached.numbered {s : Schema} (h : c.Reached s) : c.store.Numbered := by
  obtain ⟨c₀, hopened, actions, rfl⟩ := h
  exact numbered_foldl hopened.numbered actions

end Client

end RelationalStore

import RelationalStore.Proofs.Isolation
import RelationalStore.Proofs.KindedTables

/- Stores that are run by the steps of transactions alone: a transaction begins, writes, commits,
   aborts or is dropped, in any order with the others. Readings change nothing and are no steps;
   what they give is a matter of the store between two steps. As long as each column of a key gets
   null or values of one kind, the transactions stay apart whatever the order of their steps is
   (`Store.follows_foldl`), so that each can be taken back. -/
namespace RelationalStore
open SortedMap

/-! ### Calls in a transaction -/

namespace Transaction
variable {kinds : String → String → ScalarKind} {tx tx' : Transaction} {tables tables' : Tables}
  {name : String} {t t' : Table} {c : Table.Call} {u : Unit}

/-- A call on one of its tables, without what it gives back. -/
def perform (tx : Transaction) (tables : Tables) (name : String) :
    Table.Call → Except Error (Unit × Transaction × Tables)
  | .add row => (tx.add tables name row).map fun r => ((), r.2)
  | .put row => (tx.put tables name row).map fun r => ((), r.2)
  | .delete key => (tx.delete tables name key).map fun r => ((), r.2)

/-- The table of that name becomes what the call makes of it, no other changes, and of the
transaction only the log does, which may get a note about the table. -/
theorem perform_ok (h : tx.perform tables name c = .ok (u, tx', tables')) :
    ∃ t t' undo, tx.MayWrite name ∧ tables.get? name = some t ∧ c.perform t = .ok t' ∧
      tx' = { tx with undo } ∧ (∀ u ∈ undo, u.table = t.name ∨ u ∈ tx.undo) ∧
      ∀ n, tables'.get? n = if name = n then some t' else tables.get? n := by
  have hnoted (u : Undo) : ∀ v ∈ u :: tx.undo, v.table = u.table ∨ v ∈ tx.undo := by
    intro v hv
    rcases List.mem_cons.1 hv with rfl | hv
    · exact .inl rfl
    · exact .inr hv
  cases c with
  | add row =>
    obtain ⟨⟨k, r⟩, hr, heq⟩ := Except.map_eq_ok.1 h
    cases heq
    obtain ⟨t, ht, hr⟩ := Except.bind_eq_ok.1 hr
    obtain ⟨⟨k, next⟩, hadd, hr⟩ := Except.bind_eq_ok.1 hr
    cases hr
    obtain ⟨hmay, hfound⟩ := tableToWrite_ok ht
    exact ⟨t, next, _, hmay, hfound, Except.map_eq_ok.2 ⟨_, hadd, rfl⟩, rfl, hnoted _,
      fun _ => get?_insert_eq⟩
  | put row =>
    obtain ⟨⟨k, r⟩, hr, heq⟩ := Except.map_eq_ok.1 h
    cases heq
    obtain ⟨t, ht, hr⟩ := Except.bind_eq_ok.1 hr
    obtain ⟨⟨k, next⟩, hput, hr⟩ := Except.bind_eq_ok.1 hr
    cases hr
    obtain ⟨hmay, hfound⟩ := tableToWrite_ok ht
    exact ⟨t, next, _, hmay, hfound, Except.map_eq_ok.2 ⟨_, hput, rfl⟩, rfl, hnoted _,
      fun _ => get?_insert_eq⟩
  | delete key =>
    obtain ⟨⟨k, r⟩, hr, heq⟩ := Except.map_eq_ok.1 h
    cases heq
    obtain ⟨t, ht, hr⟩ := Except.bind_eq_ok.1 hr
    obtain ⟨hmay, hfound⟩ := tableToWrite_ok ht
    refine ⟨t, (t.delete key).2, ?_⟩
    simp only [Table.delete] at hr ⊢
    cases hg : t.get? key with
    | none =>
      rw [hg] at hr
      cases hr
      -- Nothing is noted, and nothing was to be removed.
      refine ⟨tx.undo, hmay, hfound, rfl, rfl, fun u hu => .inr hu, fun n => ?_⟩
      rw [Table.remove_of_absent hg]
      split
      · next hn => rw [← hn, hfound]
      · rfl
    | some row =>
      rw [hg] at hr
      cases hr
      exact ⟨_, hmay, hfound, rfl, rfl, hnoted _, fun _ => get?_insert_eq⟩

/-- In a transaction that may write to the table a call is refused by the table alone. -/
theorem perform_of_mayWrite (hmay : tx.MayWrite name) (ht : tables.get? name = some t)
    (hc : c.perform t = .ok t') : ∃ tx' tables', tx.perform tables name c = .ok ((), tx', tables') := by
  have htable : tx.tableToWrite tables name = .ok t := by
    obtain ⟨hactive, hmode, hscope⟩ := hmay
    simp [tableToWrite, table, hactive, hmode, hscope, ht, bind, Except.bind, pure, Except.pure]
  cases c with
  | add row =>
    obtain ⟨⟨k, next⟩, hadd, -⟩ := Except.map_eq_ok.1 hc
    exact ⟨_, _, Except.map_eq_ok.2 ⟨_, Except.bind_eq_ok.2 ⟨t, htable,
      Except.bind_eq_ok.2 ⟨_, hadd, rfl⟩⟩, rfl⟩⟩
  | put row =>
    obtain ⟨⟨k, next⟩, hput, -⟩ := Except.map_eq_ok.1 hc
    exact ⟨_, _, Except.map_eq_ok.2 ⟨_, Except.bind_eq_ok.2 ⟨t, htable,
      Except.bind_eq_ok.2 ⟨_, hput, rfl⟩⟩, rfl⟩⟩
  | delete key =>
    cases hg : t.get? key with
    | none =>
      refine ⟨tx, tables, Except.map_eq_ok.2 ⟨(none, tx, tables),
        Except.bind_eq_ok.2 ⟨t, htable, ?_⟩, rfl⟩⟩
      simp only [Table.delete, hg]
      rfl
    | some row =>
      let result := (some row, tx.note ⟨t.name, key, some row⟩, tables.insert name (t.remove key))
      refine ⟨result.2.1, result.2.2, Except.map_eq_ok.2 ⟨result,
        Except.bind_eq_ok.2 ⟨t, htable, ?_⟩, rfl⟩⟩
      simp only [Table.delete, hg]
      rfl

theorem leads_perform (hp : Tables.Under (.ofKinds ∘ kinds) tables)
    (hl : tx.Logged (.ofKinds ∘ kinds) tables)
    (hc : ∀ t, tables.get? name = some t → c.OfKinds (kinds name) t.definition)
    (h : tx.perform tables name c = .ok (u, tx', tables')) :
    tx.Leads (.ofKinds ∘ kinds) tables tx' tables' := by
  cases c with
  | add row =>
    obtain ⟨⟨k, r⟩, hr, heq⟩ := Except.map_eq_ok.1 h
    cases heq
    exact leads_add hp hl (fun t ht => TableDef.types_own (hc t ht)) hr
  | put row =>
    obtain ⟨⟨k, r⟩, hr, heq⟩ := Except.map_eq_ok.1 h
    cases heq
    exact leads_put hp hl (fun t ht => TableDef.types_own (hc t ht)) hr
  | delete key =>
    obtain ⟨⟨k, r⟩, hr, heq⟩ := Except.map_eq_ok.1 h
    cases heq
    exact leads_delete hp hl (fun t ht hlen => TableDef.types_none (.of_zip hlen (hc t ht))) hr

end Transaction

/-! ### Steps -/

namespace Store

/-- What can be done with a store by transactions. -/
inductive Step where
  | begin (names : List String) (mode : TransactionMode)
  | write (id : Nat) (table : String) (call : Table.Call)
  | commit (id : Nat)
  | abort (id : Nat)
  | drop (id : Nat)

/-- The store after a step. A transaction that cannot begin at once does not begin. -/
def after (s : Store) : Step → Store
  | .begin names mode => (s.beginTransaction names mode).toOption.elim s (·.2)
  | .write id table call => (s.writeIn id fun tx tables => tx.perform tables table call).2
  | .commit id => (s.commit id).2
  | .abort id => s.abort id
  | .drop id => s.drop id

/-- What is written into columns of keys is null or of the kind of its column, as the parts of a key
are that is deleted. -/
def Step.OfKinds (kinds : String → String → ScalarKind) (first : Tables) : Step → Prop
  | .write _ table call => ∀ t, first.get? table = some t → call.OfKinds (kinds table) t.definition
  | _ => True

instance {kinds : String → ScalarKind} {d : TableDef} : DecidablePred (Table.Call.OfKinds kinds d)
  | .add row => inferInstanceAs (Decidable (∀ c ∈ d.columns, (row.value c).isOf (kinds c)))
  | .put row => inferInstanceAs (Decidable (∀ c ∈ d.columns, (row.value c).isOf (kinds c)))
  | .delete key =>
    inferInstanceAs (Decidable (∀ p ∈ d.keyPath.zip key.parts, p.2.isOf (kinds p.1)))

instance {kinds : String → String → ScalarKind} {first : Tables} :
    DecidablePred (Step.OfKinds kinds first)
  | .write _ table call => inferInstanceAs
      (Decidable (∀ t ∈ first.get? table, call.OfKinds (kinds table) t.definition))
  | .begin _ _ | .commit _ | .abort _ | .drop _ => inferInstanceAs (Decidable True)

variable {kinds : String → String → ScalarKind} {first : Tables} {s s' : Store} {id : Nat}

theorem Isolated.ofKinds_now (h : s.Isolated (.ofKinds ∘ kinds) first) {table : String}
    {call : Table.Call}
    (hc : ∀ t, first.get? table = some t → call.OfKinds (kinds table) t.definition) :
    ∀ t, s.tables.get? table = some t → call.OfKinds (kinds table) t.definition := by
  intro t ht
  obtain ⟨t₀, ht₀, heq⟩ := exists_of_map_eq (h.definition table) ht
  rw [← heq]
  exact hc t₀ ht₀

/-- One step. -/
theorem follows_after (h : s.Isolated (.ofKinds ∘ kinds) first) {a : Step}
    (ha : a.OfKinds kinds first) : s.Follows (.ofKinds ∘ kinds) first (s.after a) := by
  cases a with
  | begin names mode =>
    simp only [Store.after]
    cases hb : s.beginTransaction names mode with
    | ok r => exact h.follows_begin hb
    | error e => exact .refl h
  | write id table call =>
    exact h.follows_writeIn id fun tx hl _ _ _ hf =>
      Transaction.leads_perform h.under hl (h.ofKinds_now ha) hf
  | commit id => exact h.follows_commit id
  | abort id => exact h.follows_abort id
  | drop id => exact h.follows_drop id

/-- A run of steps. -/
theorem follows_foldl (h : s.Isolated (.ofKinds ∘ kinds) first) {steps : List Step}
    (hsteps : ∀ a ∈ steps, a.OfKinds kinds first) :
    s.Follows (.ofKinds ∘ kinds) first (steps.foldl after s) := by
  induction steps generalizing s with
  | nil => exact .refl h
  | cons a rest ih =>
    have hstep := follows_after h (hsteps a List.mem_cons_self)
    exact hstep.trans (ih hstep.isolated fun b hb => hsteps b (List.mem_cons_of_mem a hb))

/-- No transaction is open, and the tables hold in each column of a key null or values of one
kind. -/
structure Settled (kinds : String → String → ScalarKind) (s : Store) : Prop where
  transactions : s.transactions = []
  tables : Tables.Under (.ofKinds ∘ kinds) s.tables

/-- A store whose tables are all empty. -/
theorem Settled.of_empty (htransactions : s.transactions = [])
    (htables : ∀ n t, s.tables.get? n = some t → ∃ d : TableDef, d.name = n ∧ t = .ofDef d) :
    s.Settled kinds := by
  refine ⟨htransactions, fun {n t} ht => ?_, fun {n t} ht => ?_⟩ <;>
    obtain ⟨d, rfl, rfl⟩ := htables n t ht
  · rfl
  · exact .ofDef d

theorem Settled.isolated (h : s.Settled kinds) : s.Isolated (.ofKinds ∘ kinds) s.tables where
  numbered := ⟨by simp [h.transactions], by simp [h.transactions]⟩
  under := h.tables
  definition _ := rfl
  logged := by simp [h.transactions]
  apart := by simp [Apart, h.transactions]

/-! ### Prices -/

/-- A table of rows that are known by their amounts. -/
def byAmount (name : String) : TableDef := ⟨name, ["amount"], [⟨"amountIndex", ["amount"], true⟩]⟩

/-- A store of bids and prices. -/
def prices : Store :=
  { name := "prices", version := 1,
    tables := .ofList (["bid", "price"].map fun n => (n, .ofDef (byAmount n))) }

theorem settled_prices (kinds : String → String → ScalarKind) : prices.Settled kinds := by
  refine .of_empty rfl fun n t ht => ?_
  obtain ⟨m, -, heq⟩ := List.mem_map.1 (mem_of_get?_ofList ht)
  cases heq
  exact ⟨_, rfl, rfl⟩

/-- A row of an amount. -/
def price (coefficient scale : Nat) : Row :=
  .ofList [("amount", .decimal ⟨false, coefficient, scale⟩)]

/-- Adds the price of "4.4". -/
def pricing : List Step :=
  [.begin ["price"] .readWrite, .write 1 "price" (.add (price 44 1)), .commit 1]

/-- Adds two amounts that are next to each other, as integers. -/
def counting : List Step :=
  [.begin ["price"] .readWrite,
    .write 1 "price" (.add (.ofList [("amount", .int 9007199254740992)])),
    .write 1 "price" (.add (.ofList [("amount", .int 9007199254740993)])), .commit 1]

/-- Deletes twice under the floating-point number that is nearest to both. -/
def merging : List (String × Table.Call) :=
  [("price", .delete ⟨[.float ⟨0x4340000000000000⟩]⟩),
    ("price", .delete ⟨[.float ⟨0x4340000000000000⟩]⟩)]

/-- The prices of an amount. -/
def pricesAt (tables : Tables) (amount : Value) : Nat :=
  ((tables.get? "price").bind (·.get? ⟨[amount]⟩)).toList.length

end Store

end RelationalStore

import RelationalStore.Proofs.LoneTransactions

/- Transactions in any order of their steps, and what each of them reads. Locks keep the others away
   from its tables, whatever they write (`Store.Locked`). A history follows a run and notes for each
   open transaction what was committed when it was opened, and its own steps (`Store.Party`). Every
   step keeps that those steps alone, over what was committed, lead to the tables that the
   transaction has in the run (`History.Faithful`). -/
namespace RelationalStore
open SortedMap

namespace Transaction

theorem get?_abort (tx : Transaction) (tables : Tables) (n : String) :
    (tx.abort tables).2.get? n =
      if tx.active then (tx.rollback tables).get? n else tables.get? n := by
  unfold Transaction.abort
  split <;> rfl

theorem definition_abort (tx : Transaction) (tables : Tables) (n : String) :
    ((tx.abort tables).2.get? n).map (·.definition) = (tables.get? n).map (·.definition) := by
  rw [get?_abort]
  split
  · exact definition_rollback n
  · rfl

theorem Noted.abort {tx : Transaction} (h : tx.Noted) (tables : Tables) :
    (tx.abort tables).1.Noted := by
  unfold Transaction.abort
  split
  · exact fun u hu => absurd hu List.not_mem_nil
  · exact h

end Transaction

namespace Store
variable {s s' : Store} {tx tx' : Transaction} {tables : Tables} {id : Nat} {n : String}

/-! ### Locks -/

/-- Tables are stored under their own names, and transactions are apart and note only what they
write. -/
structure Locked (s : Store) : Prop where
  numbered : s.Numbered
  named : ∀ {n t}, s.tables.get? n = some t → t.name = n
  noted : ∀ tx ∈ s.transactions, tx.Noted
  apart : s.Apart

namespace Locked

theorem begin (h : s.Locked) {names : List String} {mode : TransactionMode}
    (hb : s.beginTransaction names mode = .ok (id, s')) : s'.Locked where
  numbered := h.numbered.begin hb
  named := by
    rw [(beginTransaction_ok hb).2.2]
    exact h.named
  noted b hmem := by
    rw [(beginTransaction_ok hb).2.2] at hmem
    rcases List.mem_append.1 hmem with hmem | hmem
    · exact h.noted b hmem
    · rw [List.mem_singleton.1 hmem]
      exact fun u hu => absurd hu List.not_mem_nil
  apart := h.apart.begin hb

/-- One transaction becomes another. -/
theorem turn (h : s.Locked) (htx : tx ∈ s.transactions) (hid : tx'.id = tx.id)
    (hmode : tx'.mode = tx.mode) (hscope : tx'.scope = tx.scope)
    (hactive : tx'.active = true → tx.active = true) (hnoted : tx'.Noted)
    (hdefinition : ∀ n,
      (tables.get? n).map (·.definition) = (s.tables.get? n).map (·.definition)) :
    ({ s.setTransaction tx' with tables := tables } : Store).Locked where
  numbered := h.numbered.of_ids (ids_setTransaction tx') rfl
  named {n t} ht := by
    obtain ⟨t₀, ht₀, heq⟩ := exists_of_map_eq (hdefinition n) ht
    rw [Table.name, ← heq]
    exact h.named ht₀
  noted b hb := by
    rcases mem_setTransaction hb with rfl | ⟨hb, -⟩
    · exact hnoted
    · exact h.noted b hb
  apart := by
    refine h.apart.of_fewer fun b hb => ?_
    rcases mem_setTransaction hb with rfl | ⟨hb, -⟩
    · exact ⟨tx, htx, hid.symm, hmode.symm, fun n hn => ⟨hactive hn.1, hscope ▸ hn.2⟩⟩
    · exact ⟨b, hb, rfl, rfl, fun _ hn => hn⟩

/-- Some transactions go and the tables stay. -/
theorem fewer (h : s.Locked) (htables : s'.tables = s.tables) (hnext : s'.nextId = s.nextId)
    (hfewer : s'.transactions.Sublist s.transactions) : s'.Locked where
  numbered := ⟨h.numbered.distinct.sublist (hfewer.map _), fun b hb => by
    rw [hnext]
    exact h.numbered.below b (hfewer.subset hb)⟩
  named := by
    rw [htables]
    exact h.named
  noted b hb := h.noted b (hfewer.subset hb)
  apart := h.apart.of_fewer fun b hb => ⟨b, hfewer.subset hb, rfl, rfl, fun _ hn => hn⟩

end Locked

/-- The transactions that hold a lock on the table. -/
def holders (s : Store) (n : String) : List Transaction :=
  s.transactions.filter fun tx => tx.active && tx.scope.contains n

/-- The table is held by readers only, or by one transaction, which writes. -/
def Exclusive (s : Store) (n : String) : Prop :=
  (∀ tx ∈ s.holders n, tx.mode = .readOnly) ∨ ∃ tx, s.holders n = [tx] ∧ tx.mode = .readWrite

theorem Locked.exclusive (h : s.Locked) (n : String) : s.Exclusive n := by
  have hlocks {b : Transaction} (hb : b ∈ s.holders n) : b ∈ s.transactions ∧ b.Locks n := by
    obtain ⟨hmem, hholds⟩ := List.mem_filter.1 hb
    exact ⟨hmem, by simpa [Transaction.Locks] using hholds⟩
  by_cases hread : ∀ tx ∈ s.holders n, tx.mode = .readOnly
  · exact .inl hread
  · push Not at hread
    obtain ⟨tx, htx, hmode⟩ := hread
    have hsame (b : Transaction) : b ∈ s.holders n ↔ b ∈ [tx] := by
      rw [List.mem_singleton]
      refine ⟨fun hb => ?_, fun heq => heq ▸ htx⟩
      obtain ⟨hmem, hb⟩ := hlocks hb
      obtain ⟨hmem', htx⟩ := hlocks htx
      -- If it were another one, both would be reading.
      refine List.inj_on_of_nodup_map h.numbered.distinct hmem hmem' ?_
      by_contra hne
      exact hmode (h.apart b hmem tx hmem' hne n hb htx).2
    have hdistinct : (s.holders n).Nodup := h.numbered.distinct.of_map.filter _
    refine .inr ⟨tx, List.perm_singleton.1 ?_, ?_⟩
    · exact (List.perm_ext_iff_of_nodup hdistinct (List.nodup_singleton tx)).2 hsame
    · cases hwrites : tx.mode with
      | readOnly => exact absurd hwrites hmode
      | readWrite => rfl

/-! ### What is committed -/

/-- The tables without the writes of the transactions that are open. -/
def committed (s : Store) : Tables :=
  s.transactions.foldl (fun tables tx => (tx.abort tables).2) s.tables

namespace Locked

/-- Aborting transactions that may not write to a table leaves it alone. -/
theorem get?_foldl_abort (h : s.Locked) {txs : List Transaction}
    (hmem : ∀ tx ∈ txs, tx ∈ s.transactions) (hfree : ∀ tx ∈ txs, ¬ tx.MayWrite n)
    (tables : Tables) :
    (txs.foldl (fun tables tx => (tx.abort tables).2) tables).get? n = tables.get? n := by
  induction txs generalizing tables with
  | nil => rfl
  | cons tx rest ih =>
    rw [List.forall_mem_cons] at hmem hfree
    rw [List.foldl_cons, ih hmem.2 hfree.2, Transaction.get?_abort]
    split
    · next hactive => exact (h.noted tx hmem.1).rollback_of_free hactive hfree.1 tables
    · rfl

theorem committed_of_free (h : s.Locked) (hfree : ∀ tx ∈ s.transactions, ¬ tx.MayWrite n) :
    s.committed.get? n = s.tables.get? n :=
  h.get?_foldl_abort (fun _ htx => htx) hfree s.tables

/-- Of a table that a transaction may write to, what is committed is what its rollback leads to. -/
theorem committed_of_mayWrite (h : s.Locked) (htx : tx ∈ s.transactions) (hmay : tx.MayWrite n) :
    s.committed.get? n = (tx.rollback s.tables).get? n := by
  obtain ⟨before, since, hsplit⟩ := List.append_of_mem htx
  have hothers (b : Transaction) (hb : b ∈ before ++ since) : b ∈ s.transactions ∧ ¬ b.MayWrite n := by
    have hmem : b ∈ s.transactions := by
      rw [hsplit]
      rcases List.mem_append.1 hb with hb | hb
      · exact List.mem_append_left _ hb
      · exact List.mem_append_right _ (List.mem_cons_of_mem _ hb)
    have hne : tx.id ≠ b.id := by
      have hdistinct := h.numbered.distinct
      rw [hsplit, List.map_append, List.map_cons, List.nodup_middle, List.nodup_cons,
        ← List.map_append] at hdistinct
      exact fun heq => hdistinct.1 (heq ▸ List.mem_map_of_mem hb)
    exact ⟨hmem, h.apart.not_mayWrite hmem htx hne ⟨hmay.1, hmay.2.2⟩⟩
  -- Only its own abort touches the table; those before it and after it leave it alone.
  rw [committed, hsplit, List.foldl_append, List.foldl_cons,
    h.get?_foldl_abort (fun b hb => (hothers b (List.mem_append_right _ hb)).1)
      fun b hb => (hothers b (List.mem_append_right _ hb)).2,
    Transaction.get?_abort, if_pos hmay.1, Transaction.get?_rollback,
    h.get?_foldl_abort (fun b hb => (hothers b (List.mem_append_left _ hb)).1)
      fun b hb => (hothers b (List.mem_append_left _ hb)).2, ← Transaction.get?_rollback]

end Locked

/-! ### One transaction goes on -/

/-- By the step one transaction becomes another, in the store as well as where it is mirrored, and
tables that it may not write to stay. -/
structure Advances (s : Store) (tx : Transaction) (a : Step) (tx' : Transaction) : Prop where
  locked : (s.after a).Locked
  transactions : (s.after a).transactions = (s.setTransaction tx').transactions
  id : tx'.id = tx.id
  scope : tx'.scope = tx.scope
  active : tx'.active = true → tx.active = true
  outside : ∀ n, ¬ tx.MayWrite n → (s.after a).tables.get? n = s.tables.get? n
  mirrors : ∀ {R base b}, a.Respects R s.tables → Mirrors R tx s.tables base b →
    Mirrors R tx' (s.after a).tables base (b.after a)

/-- A call, whether it fails or not. -/
theorem Locked.advances_write (h : s.Locked) (htx : s.transaction? tx.id = some tx) (name : String)
    (c : Table.Call) :
    ∃ tx', s.Advances tx (.write tx.id name c) tx' ∧ ∀ n, tx'.MayWrite n ↔ tx.MayWrite n := by
  have hmem := (transaction?_eq_some htx).1
  cases hperform : tx.perform s.tables name c with
  | ok r =>
    obtain ⟨u, tx', tables'⟩ := r
    have hafter : s.after (.write tx.id name c) = { s.setTransaction tx' with tables := tables' } := by
      simp only [after, writeIn, htx, hperform]
    obtain ⟨t, t', undo, hmay, ht, hc, rfl, hundo, htables⟩ := Transaction.perform_ok hperform
    have hnoted : ({ tx with undo } : Transaction).Noted := by
      intro u hu
      rcases hundo u hu with hname | hold
      · -- A note has the table's own name, which is the one that the scope has.
        rw [hname, h.named ht]
        exact hmay.2
      · exact h.noted tx hmem u hold
    have hdefinition (n : String) :
        (tables'.get? n).map (·.definition) = (s.tables.get? n).map (·.definition) := by
      rw [htables]
      split
      · next hn => rw [← hn, ht, Option.map_some, Option.map_some, Table.Call.definition_perform hc]
      · rfl
    refine ⟨{ tx with undo }, ⟨?_, ?_, rfl, rfl, fun hlive => hlive, fun n hn => ?_,
      fun hR hb => ?_⟩, fun n => .rfl⟩ <;> rw [hafter]
    · exact h.turn hmem rfl rfl rfl (fun hlive => hlive) hnoted hdefinition
    · refine (htables n).trans (if_neg ?_)
      rintro rfl
      exact hn hmay
    · exact hb.write_ok hR hperform
  | error e =>
    have hafter : s.after (.write tx.id name c) = s := by
      simp only [after, writeIn, htx, hperform]
    refine ⟨tx, ⟨?_, ?_, rfl, rfl, fun hlive => hlive, fun _ _ => ?_, fun hR hb => ?_⟩,
      fun n => .rfl⟩ <;> rw [hafter]
    · exact h
    · exact (h.numbered.setTransaction_self hmem).symm
    · exact hb.write_error hR hperform

theorem Locked.advances_abort (h : s.Locked) (htx : s.transaction? tx.id = some tx) :
    s.Advances tx (.abort tx.id) (tx.abort s.tables).1 := by
  have hmem := (transaction?_eq_some htx).1
  have hafter : s.after (.abort tx.id) =
      { s.setTransaction (tx.abort s.tables).1 with tables := (tx.abort s.tables).2 } := by
    simp only [after, Store.abort, htx]
  obtain ⟨hid, hmode, hscope, hinactive⟩ := tx.abort_frame s.tables
  have hactive : (tx.abort s.tables).1.active = true → tx.active = true := by
    rw [hinactive]
    intro hlive
    cases hlive
  refine ⟨?_, ?_, hid, hscope, hactive, fun n hn => ?_, fun _ hb => ?_⟩ <;> rw [hafter]
  · exact h.turn hmem hid hmode hscope hactive ((h.noted tx hmem).abort s.tables)
      (tx.definition_abort s.tables)
  · refine (tx.get?_abort s.tables n).trans ?_
    split
    · next hlive => exact (h.noted tx hmem).rollback_of_free hlive hn s.tables
    · rfl
  · exact hb.abort

/-! ### Histories -/

/-- A transaction by itself: its number, what was committed when it was opened, and its own steps,
the opening first. -/
structure Party where
  id : Nat
  opened : Tables
  steps : List Step

/-- A store in which nothing goes on, and the next transaction gets the number. -/
def lone (id : Nat) (tables : Tables) : Store :=
  { name := "alone", version := 1, tables, nextId := id }

/-- Its steps alone, over some tables. -/
def Party.alone (p : Party) (tables : Tables) : Store := p.steps.foldl after (lone p.id tables)

def Party.extend (p : Party) (a : Step) : Party := { p with steps := p.steps ++ [a] }

/-- A run: the store, the transactions that are open in it, and those that were committed, in the
order of their commits. -/
structure History where
  store : Store
  parties : List Party := []
  committed : List Party := []

namespace History

/-- A transaction makes a step. -/
def goesOn (h : History) (id : Nat) (a : Step) : History :=
  { h with
    store := h.store.after a
    parties := h.parties.map fun p => if p.id = id then p.extend a else p }

/-- A transaction is open no more. -/
def leaves (h : History) (id : Nat) (store : Store) : History :=
  { h with store, parties := h.parties.filter (·.id ≠ id) }

/-- The history after one more step of the run. -/
def after (h : History) : Step → History
  | .begin names mode =>
    match h.store.beginTransaction names mode with
    | .ok (id, store) =>
      { h with store, parties := h.parties ++ [⟨id, h.store.committed, [.begin names mode]⟩] }
    | .error _ => h
  | .write id table call => h.goesOn id (.write id table call)
  | .abort id => h.goesOn id (.abort id)
  | .drop id => h.leaves id (h.store.drop id)
  | .commit id =>
    match h.store.commit id with
    | (.ok _, store) =>
      { h.leaves id store with
        committed := h.committed ++
          ((h.parties.find? (·.id = id)).map (·.extend (.commit id))).toList }
    | (.error _, store) => h.leaves id store

/-- What the committed transactions make of some tables, one after another. -/
def serial (h : History) (tables : Tables) : Tables :=
  h.committed.foldl (fun tables p => (p.alone tables).tables) tables

theorem serial_append (h : History) (p : Party) (tables : Tables) :
    ({ h with committed := h.committed ++ [p] } : History).serial tables =
      (p.alone (h.serial tables)).tables := by
  simp [serial]

@[simp] theorem goesOn_store (h : History) (id : Nat) (a : Step) :
    (h.goesOn id a).store = h.store.after a := rfl

@[simp] theorem goesOn_parties (h : History) (id : Nat) (a : Step) : (h.goesOn id a).parties =
    h.parties.map fun p => if p.id = id then p.extend a else p := rfl

@[simp] theorem leaves_store (h : History) (id : Nat) (store : Store) :
    (h.leaves id store).store = store := rfl

/-- Of a party that leaves it does not matter what it did last. -/
theorem leaves_goesOn (h : History) (id : Nat) (a : Step) (store : Store) :
    (h.goesOn id a).leaves id store = h.leaves id store := by
  have hparties : (h.parties.map fun p => if p.id = id then p.extend a else p).filter (·.id ≠ id) =
      h.parties.filter (·.id ≠ id) := by
    induction h.parties with
    | nil => rfl
    | cons p rest ih =>
      rw [List.map_cons, List.filter_cons, List.filter_cons, ih]
      by_cases hid : p.id = id <;> simp [hid, Party.extend]
  rw [leaves, goesOn, hparties]
  rfl

/-- A history follows its run. -/
theorem store_after (h : History) (a : Step) : (h.after a).store = h.store.after a := by
  cases a with
  | begin names mode =>
    simp only [after, Store.after]
    cases h.store.beginTransaction names mode <;> rfl
  | commit id =>
    simp only [after, Store.after]
    split <;> next hc => rw [hc]; rfl
  | _ => rfl

theorem store_foldl (h : History) (steps : List Step) :
    (steps.foldl after h).store = steps.foldl Store.after h.store := by
  induction steps generalizing h with
  | nil => rfl
  | cons a rest ih => rw [List.foldl_cons, List.foldl_cons, ih, store_after]

end History

/-! ### What a transaction reads -/

section
variable {R : String → Table → Table → Prop} {tables' : Tables} {p q : Party} {h : History}

/-- The transaction is mirrored by its own steps over whatever tables are related to those that it
was opened over. -/
def Party.Mirrored (R : String → Table → Table → Prop) (tables : Tables) (tx : Transaction)
    (p : Party) : Prop :=
  ∀ base, (∀ n ∈ tx.scope, Option.Rel (R n) (p.opened.get? n) (base.get? n)) →
    Mirrors R tx tables base (p.alone base)

theorem Party.alone_extend (p : Party) (a : Step) (base : Tables) :
    (p.extend a).alone base = (p.alone base).after a := by
  simp [Party.alone, Party.extend]

/-- Only the tables that it locks matter. -/
theorem Party.Mirrored.spare (hp : p.Mirrored R tables tx)
    (htables : ∀ n, tx.Locks n → tables'.get? n = tables.get? n) : p.Mirrored R tables' tx :=
  fun base hbase => (hp base hbase).spare fun hactive n hn => htables n ⟨hactive, hn⟩

theorem Party.Mirrored.advance (hp : p.Mirrored R s.tables tx) {a : Step}
    (ha : s.Advances tx a tx') (hR : a.Respects R s.tables) :
    (p.extend a).Mirrored R (s.after a).tables tx' := by
  intro base hbase
  rw [ha.scope] at hbase
  rw [Party.alone_extend]
  exact ha.mirrors hR (hp base hbase)

/-- Whoever begins is mirrored over what is related to what it finds. -/
theorem Party.mirrored_begin {names : List String} {mode : TransactionMode}
    (hb : s.beginTransaction names mode = .ok (id, s')) (opened : Tables)
    (hopened : ∀ n ∈ (SortedSet.ofList names).keys, opened.get? n = s.tables.get? n) :
    ({ id, opened, steps := [.begin names mode] } : Party).Mirrored R s'.tables
      { id, mode, scope := (SortedSet.ofList names).keys } := by
  intro base hbase
  refine Mirrors.begin (b := lone id base) hb rfl rfl rfl fun n hn => ?_
  rw [← hopened n hn]
  exact hbase n hn

/-- Every open transaction has its party, which alone does over what was committed what the
transaction does in the run. -/
structure History.Faithful (h : History) : Prop where
  locked : h.store.Locked
  ids : h.parties.map (·.id) = h.store.transactions.map (·.id)
  mirrored : ∀ tx ∈ h.store.transactions, ∀ p ∈ h.parties, p.id = tx.id →
    p.Mirrored (fun _ => Eq) h.store.tables tx

namespace History

/-- Where a transaction went on, its party went on, and the others are as they were. -/
theorem pair_goesOn {a : Step} (ha : h.store.Advances tx a tx')
    {b : Transaction} (hb : b ∈ (h.goesOn tx.id a).store.transactions)
    (hq : q ∈ (h.goesOn tx.id a).parties) (hqid : q.id = b.id) :
    (b = tx' ∧ ∃ p ∈ h.parties, p.id = tx.id ∧ q = p.extend a) ∨
      b ∈ h.store.transactions ∧ b.id ≠ tx.id ∧ q ∈ h.parties := by
  obtain ⟨p, hp, rfl⟩ := List.mem_map.1 hq
  rw [goesOn_store, ha.transactions] at hb
  by_cases hpid : p.id = tx.id
  · rw [if_pos hpid] at hqid ⊢
    rcases mem_setTransaction hb with rfl | ⟨-, hne⟩
    · exact .inl ⟨rfl, p, hp, hpid, rfl⟩
    · exact absurd (hqid.symm.trans (hpid.trans ha.id.symm)) hne
  · rw [if_neg hpid] at hqid ⊢
    rcases mem_setTransaction hb with rfl | ⟨hb, hne⟩
    · exact absurd (hqid.trans ha.id) hpid
    · exact .inr ⟨hb, fun heq => hne (heq.trans ha.id.symm), hp⟩

/-- The transaction is gone from the store. -/
structure Released (s : Store) (id : Nat) (s' : Store) : Prop where
  transactions : s'.transactions = (s.forget id).transactions
  nextId : s'.nextId = s.nextId

theorem Released.mem_iff (hr : Released s id s') {b : Transaction} :
    b ∈ s'.transactions ↔ b ∈ s.transactions ∧ b.id ≠ id := by
  rw [hr.transactions, mem_forget]

theorem Released.sublist (hr : Released s id s') : s'.transactions.Sublist s.transactions := by
  rw [hr.transactions]
  exact List.filter_sublist

theorem released_drop (s : Store) (id : Nat) : Released s id (s.drop id) :=
  ⟨transactions_drop s id, nextId_abort s id⟩

theorem Released.of_abort (hr : Released s id s') : Released (s.abort id) id s' :=
  ⟨hr.transactions.trans (transactions_drop s id).symm, hr.nextId.trans (nextId_abort s id).symm⟩

/-- What comes of a commit. -/
inductive Commits (h : History) (id : Nat) : History → Prop where
  | done {s' : Store} {tx : Transaction} {p : Party} (hr : Released h.store id s')
      (htables : s'.tables = h.store.tables) (htx : tx ∈ h.store.transactions) (hid : tx.id = id)
      (hactive : tx.active = true) (hp : p ∈ h.parties) (hpid : p.id = id) :
      Commits h id { h.leaves id s' with committed := h.committed ++ [p.extend (.commit id)] }
  | inactive {s' : Store} (hr : Released h.store id s') (htables : s'.tables = h.store.tables)
      (hinactive : ∀ tx ∈ h.store.transactions, tx.id = id → tx.active = false) :
      Commits h id (h.leaves id s')
  | failed {s' : Store} (hr : Released h.store id s')
      (htables : s'.tables = (h.store.abort id).tables) : Commits h id (h.leaves id s')

namespace Faithful

/-- Every party is that of an open transaction. -/
theorem transaction (hf : h.Faithful) (hp : p ∈ h.parties) :
    ∃ tx ∈ h.store.transactions, tx.id = p.id := by
  have hmem : p.id ∈ h.parties.map (·.id) := List.mem_map_of_mem hp
  rw [hf.ids] at hmem
  exact List.mem_map.1 hmem

/-- Every open transaction has its party. -/
theorem party (hf : h.Faithful) (htx : tx ∈ h.store.transactions) :
    ∃ p ∈ h.parties, p.id = tx.id := by
  have hmem : tx.id ∈ h.store.transactions.map (·.id) := List.mem_map_of_mem htx
  rw [← hf.ids] at hmem
  exact List.mem_map.1 hmem

theorem below (hf : h.Faithful) (hp : p ∈ h.parties) : p.id < h.store.nextId := by
  obtain ⟨tx, htx, hid⟩ := hf.transaction hp
  rw [← hid]
  exact hf.locked.numbered.below tx htx

theorem eq_of_id (hf : h.Faithful) (htx : tx ∈ h.store.transactions)
    (htx' : tx' ∈ h.store.transactions) (hid : tx.id = tx'.id) : tx = tx' :=
  List.inj_on_of_nodup_map hf.locked.numbered.distinct htx htx' hid

/-- Nobody has that number, so nobody goes on. -/
theorem goesOn_unknown (hf : h.Faithful) (hnone : h.store.transaction? id = none) {a : Step}
    (hafter : h.store.after a = h.store) : h.goesOn id a = h := by
  have hparties : (h.parties.map fun p => if p.id = id then p.extend a else p) = h.parties := by
    refine (List.map_congr_left fun p hp => if_neg fun hid => ?_).trans (List.map_id _)
    obtain ⟨tx, htx, heq⟩ := hf.transaction hp
    have := List.find?_eq_none.1 hnone tx htx
    simp [heq, hid] at this
  rw [goesOn, hafter, hparties]

/-- One transaction goes on, with its party, and the others stay. -/
theorem goesOn (hf : h.Faithful) (htx : tx ∈ h.store.transactions) {a : Step}
    (ha : h.store.Advances tx a tx') : (h.goesOn tx.id a).Faithful where
  locked := ha.locked
  ids := by
    rw [goesOn_parties, goesOn_store, List.map_map, ha.transactions, ids_setTransaction, ← hf.ids]
    refine List.map_congr_left fun p _ => ?_
    simp only [Function.comp_apply]
    split <;> rfl
  mirrored b hb q hq hqid := by
    rcases pair_goesOn ha hb hq hqid with ⟨rfl, p, hp, hpid, rfl⟩ | ⟨hb, hne, hq⟩
    · exact (hf.mirrored tx htx p hp hpid).advance ha (a.respects_eq h.store.tables)
    · -- What another one has locked was not written to.
      refine (hf.mirrored b hb q hq hqid).spare fun n hn => ?_
      exact ha.outside n (hf.locked.apart.not_mayWrite htx hb hne hn)

theorem write (hf : h.Faithful) (id : Nat) (name : String) (c : Table.Call) :
    (h.after (.write id name c)).Faithful := by
  show (h.goesOn id _).Faithful
  cases htx : h.store.transaction? id with
  | none =>
    rw [hf.goesOn_unknown htx (by simp only [Store.after, writeIn, htx])]
    exact hf
  | some tx =>
    obtain ⟨hmem, rfl⟩ := transaction?_eq_some htx
    obtain ⟨tx', hadvances, -⟩ := hf.locked.advances_write htx name c
    exact hf.goesOn hmem hadvances

theorem abort (hf : h.Faithful) (id : Nat) : (h.after (.abort id)).Faithful := by
  show (h.goesOn id _).Faithful
  cases htx : h.store.transaction? id with
  | none =>
    rw [hf.goesOn_unknown htx (by simp only [Store.after, Store.abort, htx])]
    exact hf
  | some tx =>
    obtain ⟨hmem, rfl⟩ := transaction?_eq_some htx
    exact hf.goesOn hmem (hf.locked.advances_abort htx)

/-- Who has gone matters to nobody. -/
theorem leaves (hf : h.Faithful) (hr : Released h.store id s')
    (htables : s'.tables = h.store.tables) (committed : List Party) :
    ({ h.leaves id s' with committed } : History).Faithful where
  locked := hf.locked.fewer htables hr.nextId hr.sublist
  ids := by
    have hids := congrArg (List.filter (· ≠ id)) hf.ids
    rw [List.filter_map, List.filter_map] at hids
    rw [leaves_store, hr.transactions]
    simpa [History.leaves, forget, Function.comp_def, bne, beq_eq_decide] using hids
  mirrored b hb p hp hpid := by
    rw [leaves_store, htables]
    exact hf.mirrored b (hr.mem_iff.1 hb).1 p (List.mem_filter.1 hp).1 hpid

/-- Whoever was aborted can go. -/
theorem leaves_abort (hf : h.Faithful) (hr : Released h.store id s')
    (htables : s'.tables = (h.store.abort id).tables) : (h.leaves id s').Faithful := by
  have hleaves := (hf.abort id).leaves hr.of_abort htables h.committed
  rwa [← leaves_goesOn h id (.abort id) s']

theorem commits (hf : h.Faithful) (id : Nat) : h.Commits id (h.after (.commit id)) := by
  cases htx : h.store.transaction? id with
  | none =>
    have hnone (b : Transaction) (hb : b ∈ h.store.transactions) : b.id ≠ id := by
      simpa using List.find?_eq_none.1 htx b hb
    have hforget : h.store.transactions = (h.store.forget id).transactions :=
      (List.filter_eq_self.2 fun b hb => by simpa using hnone b hb).symm
    simp only [History.after, Store.commit, htx]
    exact .inactive ⟨hforget, rfl⟩ rfl fun b hb hid => absurd hid (hnone b hb)
  | some tx =>
    obtain ⟨hmem, rfl⟩ := transaction?_eq_some htx
    obtain ⟨htransactions, hnext⟩ := commitTransaction_frame (s := h.store) tx
    have hr : Released h.store tx.id ((h.store.commitTransaction tx).2.forget tx.id) :=
      ⟨by rw [forget, forget, htransactions], hnext⟩
    simp only [History.after, Store.commit, htx]
    rcases commitTransaction_tables h.store tx with ⟨htables, hcase⟩ | ⟨htables, hactive, e, he⟩
    · -- The writes stand, and if it was active, they were committed.
      by_cases hactive : tx.active = true
      · rw [hcase.resolve_right (by simp [hactive])]
        obtain ⟨q, hq, hqid⟩ := hf.party hmem
        obtain ⟨p, hfind⟩ := Option.isSome_iff_exists.1
          ((List.find?_isSome (p := fun r : Party => decide (r.id = tx.id))).2
            ⟨q, hq, by simpa using hqid⟩)
        rw [hfind]
        exact .done hr htables hmem rfl hactive (List.mem_of_find?_eq_some hfind)
          (by simpa using List.find?_some hfind)
      · have he : (h.store.commitTransaction tx).1 = .error .transactionInactive := by
          simp [commitTransaction, hactive]
        rw [he]
        refine .inactive hr htables fun b hb hid => ?_
        rw [hf.eq_of_id hb hmem hid]
        simpa using hactive
    · rw [he]
      refine .failed hr ?_
      rw [abort_of_active htx hactive]
      exact htables

theorem commit (hf : h.Faithful) (id : Nat) : (h.after (.commit id)).Faithful := by
  have hcommits := hf.commits id
  generalize h.after (.commit id) = h' at hcommits ⊢
  cases hcommits with
  | done hr htables => exact hf.leaves hr htables _
  | inactive hr htables => exact hf.leaves hr htables h.committed
  | failed hr htables => exact hf.leaves_abort hr htables

/-- Whoever can begin finds that nobody may write to its tables, so they are what is committed. -/
theorem committed_of_begin (hf : h.Faithful) {names : List String} {mode : TransactionMode}
    (hb : h.store.beginTransaction names mode = .ok (id, s')) (hn : n ∈ (SortedSet.ofList names).keys) :
    (∀ b ∈ h.store.transactions, ¬ b.MayWrite n) ∧
      h.store.committed.get? n = h.store.tables.get? n := by
  have hapart := hf.locked.apart.begin hb
  obtain ⟨-, hid, rfl⟩ := beginTransaction_ok hb
  have hfree (b : Transaction) (hb : b ∈ h.store.transactions) : ¬ b.MayWrite n := by
    refine hapart.not_mayWrite (List.mem_append_left _ hb)
      (List.mem_append_right _ (List.mem_singleton_self _)) ?_ ⟨rfl, hn⟩
    rw [hid]
    exact Nat.ne_of_gt (hf.locked.numbered.below b hb)
  exact ⟨hfree, hf.locked.committed_of_free hfree⟩

/-- Its number is a new one. -/
theorem not_mem_of_begin (hf : h.Faithful) {names : List String} {mode : TransactionMode}
    (hb : h.store.beginTransaction names mode = .ok (id, s')) (hq : q.id = id) : q ∉ h.parties := by
  intro hold
  rw [(beginTransaction_ok hb).2.1] at hq
  exact absurd hq (Nat.ne_of_lt (hf.below hold))

/-- One begins, with its party, and the others stay. -/
theorem pair_begin (hf : h.Faithful) {names : List String} {mode : TransactionMode}
    (hb : h.store.beginTransaction names mode = .ok (id, s')) {new : Party} (hnew : new.id = id)
    {b : Transaction} (hmem : b ∈ s'.transactions) (hq : q ∈ h.parties ++ [new])
    (hqid : q.id = b.id) :
    (b = { id, mode, scope := (SortedSet.ofList names).keys } ∧ q = new) ∨
      b ∈ h.store.transactions ∧ q ∈ h.parties := by
  have hfresh := hf.not_mem_of_begin (q := q) hb
  obtain ⟨-, hid, rfl⟩ := beginTransaction_ok hb
  rcases List.mem_append.1 hmem with hmem | hmem <;> rcases List.mem_append.1 hq with hq | hq
  · exact .inr ⟨hmem, hq⟩
  · rw [List.mem_singleton.1 hq, hnew, hid] at hqid
    exact absurd hqid.symm (Nat.ne_of_lt (hf.locked.numbered.below b hmem))
  · rw [List.mem_singleton.1 hmem] at hqid
    exact absurd hq (hfresh hqid)
  · exact .inl ⟨List.mem_singleton.1 hmem, List.mem_singleton.1 hq⟩

theorem begin (hf : h.Faithful) (names : List String) (mode : TransactionMode) :
    (h.after (.begin names mode)).Faithful := by
  cases hb : h.store.beginTransaction names mode with
  | error e =>
    have hafter : h.after (.begin names mode) = h := by simp only [History.after, hb]
    rw [hafter]
    exact hf
  | ok r =>
    obtain ⟨id, s'⟩ := r
    simp only [History.after, hb]
    have hs' := (beginTransaction_ok hb).2.2
    refine ⟨hf.locked.begin hb, ?_, fun b hmem q hq hqid => ?_⟩
    · simp [hs', hf.ids]
    · rcases hf.pair_begin hb rfl hmem hq hqid with ⟨rfl, rfl⟩ | ⟨hmem, hq⟩
      · exact Party.mirrored_begin hb _ fun n hn => (hf.committed_of_begin hb hn).2
      · refine (hf.mirrored b hmem q hq hqid).spare fun n _ => ?_
        rw [hs']

/-- One step. -/
theorem after (hf : h.Faithful) (a : Step) : (h.after a).Faithful := by
  cases a with
  | begin names mode => exact hf.begin names mode
  | write id name c => exact hf.write id name c
  | commit id => exact hf.commit id
  | abort id => exact hf.abort id
  | drop id => exact hf.leaves_abort (released_drop h.store id) rfl

/-- A run of steps. -/
theorem foldl (hf : h.Faithful) (steps : List Step) : (steps.foldl History.after h).Faithful := by
  induction steps generalizing h with
  | nil => exact hf
  | cons a rest ih => exact ih (hf.after a)

/-- Before the first step. -/
theorem start (hs : s.Locked) (hnone : s.transactions = []) : ({ store := s } : History).Faithful where
  locked := hs
  ids := by simp [hnone]
  mirrored := by simp

/-- An open transaction reads what its own steps alone would read over what was committed when it was
opened. -/
theorem readIn (hf : h.Faithful) (hp : p ∈ h.parties) (n : String) {α : Type}
    (f : Table → Except Error α) :
    h.store.readIn p.id n f = (p.alone p.opened).readIn p.id n f := by
  obtain ⟨tx, htx, hid⟩ := hf.transaction hp
  have hmirrors : Mirrors (fun _ => Eq) tx h.store.tables p.opened (p.alone p.opened) := by
    refine hf.mirrored tx htx p hp hid.symm p.opened fun m _ => ?_
    cases p.opened.get? m with
    | none => exact .none
    | some t => exact .some rfl
  rw [← hid]
  exact hmirrors.readIn_eq (hf.locked.numbered.transaction?_iff.2 ⟨htx, rfl⟩) n f

end Faithful

end History

end

end Store

end RelationalStore

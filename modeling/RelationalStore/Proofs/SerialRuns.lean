import RelationalStore.Proofs.FailedRequests
import RelationalStore.Proofs.Histories

/- Transactions in any order of their steps, and what they leave. As long as each column of a key
   gets null or values of one kind, a rollback leads back to what was committed, and a transaction
   alone makes tables that agree out of tables that agree. So every step keeps that the open
   transactions were opened over what the committed ones make one after another, and that tables
   which nobody may write to are what those make (`History.Keeps`). Every run is serial up to the
   form of keys (`Store.run_serial`). -/
namespace RelationalStore
open SortedMap

namespace Store

/-! ### What every step keeps -/

section
variable {kinds : String → String → ScalarKind} {serial serial' tables tables' start : Tables}
  {tx tx' : Transaction} {p : Party} {h : History} {s' : Store} {id : Nat} {n : String}

theorem Isolated.locked {D : String → Table.Discipline} {first : Tables} {s : Store}
    (h : s.Isolated D first) : s.Locked :=
  ⟨h.numbered, h.under.name, fun tx htx => (h.logged tx htx).isNoted, h.apart⟩

/-- What is known of a transaction in the run: its tables were what the committed transactions make
of them, and still are, and it is mirrored over what they make. -/
structure Party.Goes (kinds : String → String → ScalarKind) (serial tables : Tables)
    (tx : Transaction) (p : Party) : Prop where
  opened : tx.active = true → ∀ n ∈ tx.scope,
    Option.Rel (Table.Agrees (.ofKinds (kinds n))) (p.opened.get? n) (serial.get? n)
  alike : p.Mirrored (fun n => Table.Agrees (.ofKinds (kinds n))) tables tx

/-- Only the tables that it locks matter. -/
theorem Party.Goes.spare (hp : p.Goes kinds serial tables tx)
    (htables : ∀ n, tx.Locks n → tables'.get? n = tables.get? n)
    (hserial : ∀ n, tx.Locks n → serial'.get? n = serial.get? n) :
    p.Goes kinds serial' tables' tx where
  opened hactive n hn := by
    rw [hserial n ⟨hactive, hn⟩]
    exact hp.opened hactive n hn
  alike := hp.alike.spare htables

/-- The invariant of a run that started with the tables. -/
structure History.Keeps (kinds : String → String → ScalarKind) (start : Tables) (h : History) :
    Prop extends h.Faithful where
  isolated : h.store.Isolated (.ofKinds ∘ kinds) start
  remembers : ∀ p ∈ h.parties, h.store.Remembers (.ofKinds ∘ kinds) p.id p.opened
  goes : ∀ tx ∈ h.store.transactions, ∀ p ∈ h.parties, p.id = tx.id →
    p.Goes kinds (h.serial start) h.store.tables tx
  settled : ∀ n, (∀ tx ∈ h.store.transactions, ¬ tx.MayWrite n) →
    Option.Rel (Table.Agrees (.ofKinds (kinds n))) (h.store.tables.get? n) ((h.serial start).get? n)

namespace History.Keeps

/-- One transaction goes on, with its party, and the others stay. -/
theorem goesOn (hk : h.Keeps kinds start) (htx : tx ∈ h.store.transactions) {a : Step}
    (ha : h.store.Advances tx a tx') (hkinds : a.OfKinds kinds start)
    (hsettled : ∀ n, tx.MayWrite n → ¬ tx'.MayWrite n →
      Option.Rel (Table.Agrees (.ofKinds (kinds n))) ((h.store.after a).tables.get? n)
        ((h.serial start).get? n)) :
    (h.goesOn tx.id a).Keeps kinds start where
  toFaithful := hk.toFaithful.goesOn htx ha
  isolated := (follows_after hk.isolated hkinds).isolated
  remembers q hq := by
    obtain ⟨p, hp, rfl⟩ := List.mem_map.1 hq
    have hback := (follows_after hk.isolated hkinds).remembers (hk.below hp) (hk.remembers p hp)
    split
    · exact hback
    · exact hback
  goes b hb q hq hqid := by
    rcases pair_goesOn ha hb hq hqid with ⟨rfl, p, hp, hpid, rfl⟩ | ⟨hb, hne, hq⟩
    · have hgoes := hk.goes tx htx p hp hpid
      have hrespects := Step.respects_agrees hk.isolated hkinds
      refine ⟨fun hlive n hn => ?_, hgoes.alike.advance ha hrespects⟩
      rw [ha.scope] at hn
      exact hgoes.opened (ha.active hlive) n hn
    · -- What another one has locked was not written to.
      refine (hk.goes b hb q hq hqid).spare (fun n hn => ?_) fun _ _ => rfl
      exact ha.outside n (hk.locked.apart.not_mayWrite htx hb hne hn)
  settled n hfree := by
    rw [goesOn_store, ha.transactions] at hfree
    have hid := ha.id
    have hfree' : ¬ tx'.MayWrite n := hfree tx' (List.mem_map.2 ⟨tx, htx, by simp [hid]⟩)
    -- Either this one has just given the table up, or nobody could write to it before.
    by_cases hmay : tx.MayWrite n
    · exact hsettled n hmay hfree'
    · rw [goesOn_store, ha.outside n hmay]
      refine hk.settled n fun b hb => ?_
      by_cases hbid : b.id = tx.id
      · rw [hk.eq_of_id hb htx hbid]
        exact hmay
      · exact hfree b (List.mem_map.2 ⟨b, hb, by simp [hid, hbid]⟩)

theorem write (hk : h.Keeps kinds start) {name : String} {c : Table.Call}
    (hc : (Step.write id name c).OfKinds kinds start) :
    (h.after (.write id name c)).Keeps kinds start := by
  show (h.goesOn id _).Keeps kinds start
  cases htx : h.store.transaction? id with
  | none =>
    rw [hk.goesOn_unknown htx (by simp only [Store.after, writeIn, htx])]
    exact hk
  | some tx =>
    obtain ⟨hmem, rfl⟩ := transaction?_eq_some htx
    obtain ⟨tx', hadvances, hmay⟩ := hk.locked.advances_write htx name c
    -- Who may write before may write afterwards.
    exact hk.goesOn hmem hadvances hc fun n hn hn' => absurd ((hmay n).2 hn) hn'

theorem abort (hk : h.Keeps kinds start) (id : Nat) : (h.after (.abort id)).Keeps kinds start := by
  show (h.goesOn id _).Keeps kinds start
  cases htx : h.store.transaction? id with
  | none =>
    rw [hk.goesOn_unknown htx (by simp only [Store.after, Store.abort, htx])]
    exact hk
  | some tx =>
    obtain ⟨hmem, rfl⟩ := transaction?_eq_some htx
    refine hk.goesOn hmem (hk.locked.advances_abort htx) trivial fun n hn _ => ?_
    -- The rollback leads back to what it was opened over.
    obtain ⟨p, hp, hid⟩ := hk.party hmem
    have hback := hk.remembers p hp tx hmem hid.symm hn.1 n hn.2.2
    simp only [Store.after, abort_of_active htx hn.1]
    exact Transaction.agrees_trans hback ((hk.goes tx hmem p hp hid).opened hn.1 n hn.2.2)

/-- A transaction goes, and perhaps what it did is committed. The tables that others lock and those
that nobody else may write to are what the committed transactions make of them. -/
theorem leaving (hk : h.Keeps kinds start) (hr : Released h.store id s')
    (htables : s'.tables = h.store.tables) (committed : List Party)
    (hlocked : ∀ b ∈ h.store.transactions, b.id ≠ id → ∀ n, b.Locks n →
      (({ h with committed } : History).serial start).get? n = (h.serial start).get? n)
    (hsettled : ∀ n, (∀ b ∈ h.store.transactions, b.id ≠ id → ¬ b.MayWrite n) →
      Option.Rel (Table.Agrees (.ofKinds (kinds n))) (h.store.tables.get? n)
        ((({ h with committed } : History).serial start).get? n)) :
    ({ h.leaves id s' with committed } : History).Keeps kinds start := by
  have hfollows : h.store.Follows (.ofKinds ∘ kinds) start s' :=
    hk.isolated.follows_fewer htables hr.nextId hr.sublist
  refine ⟨hk.toFaithful.leaves hr htables committed, hfollows.isolated, fun p hp => ?_,
    fun b hb p hp hid => ?_, fun n hfree => ?_⟩
  · have hp := (List.mem_filter.1 hp).1
    exact hfollows.remembers (hk.below hp) (hk.remembers p hp)
  · rw [leaves_store, htables]
    obtain ⟨hb, hne⟩ := hr.mem_iff.1 hb
    exact (hk.goes b hb p (List.mem_filter.1 hp).1 hid).spare (fun _ _ => rfl) (hlocked b hb hne)
  · rw [leaves_store, htables]
    exact hsettled n fun b hb hne => hfree b (hr.mem_iff.2 ⟨hb, hne⟩)

/-- Whoever holds no lock can go. -/
theorem leaves (hk : h.Keeps kinds start) (hr : Released h.store id s')
    (htables : s'.tables = h.store.tables)
    (hinactive : ∀ tx ∈ h.store.transactions, tx.id = id → tx.active = false) :
    (h.leaves id s').Keeps kinds start := by
  refine hk.leaving hr htables h.committed (fun _ _ _ _ _ => rfl) fun n hfree =>
    hk.settled n fun b hb hmay => ?_
  by_cases hid : b.id = id
  · have hlive := hmay.1
    rw [hinactive b hb hid] at hlive
    cases hlive
  · exact hfree b hb hid hmay

/-- Whoever was aborted can go. -/
theorem leaves_abort (hk : h.Keeps kinds start) (hr : Released h.store id s')
    (htables : s'.tables = (h.store.abort id).tables) : (h.leaves id s').Keeps kinds start := by
  rw [← leaves_goesOn h id (.abort id) s']
  exact (hk.abort id).leaves hr.of_abort htables fun b => inactive_abort

/-- What a transaction has made is what it makes alone of what the committed ones make. -/
theorem leaves_done (hk : h.Keeps kinds start) (hr : Released h.store tx.id s')
    (htables : s'.tables = h.store.tables) (htx : tx ∈ h.store.transactions)
    (hactive : tx.active = true) (hp : p ∈ h.parties) (hpid : p.id = tx.id) :
    ({ h.leaves tx.id s' with
      committed := h.committed ++ [p.extend (.commit tx.id)] } : History).Keeps kinds start := by
  have hgoes := hk.goes tx htx p hp hpid
  have halone := hgoes.alike (h.serial start) (hgoes.opened hactive)
  have hserial : ({ h with committed := h.committed ++ [p.extend (.commit tx.id)] } : History).serial
      start = (p.alone (h.serial start)).tables := by
    rw [serial_append, Party.alone_extend, halone.tables_commit]
  refine hk.leaving hr htables _ (fun b hb hne n hn => ?_) fun n hfree => ?_
  · -- What another one locks it may not write to, neither here nor alone.
    rw [hserial]
    exact halone.outside hactive n (hk.locked.apart.not_mayWrite htx hb hne hn)
  · -- In its scope the two runs have made tables that agree, and elsewhere they changed nothing.
    rw [hserial]
    by_cases hn : n ∈ tx.scope
    · exact halone.within hactive n hn
    · have hmay : ¬ tx.MayWrite n := fun hmay => hn hmay.2.2
      rw [halone.outside hactive n hmay]
      refine hk.settled n fun b hb => ?_
      by_cases hid : b.id = tx.id
      · rw [hk.eq_of_id hb htx hid]
        exact hmay
      · exact hfree b hb hid

theorem commit (hk : h.Keeps kinds start) (id : Nat) : (h.after (.commit id)).Keeps kinds start := by
  have hcommits := hk.commits id
  generalize h.after (.commit id) = h' at hcommits ⊢
  cases hcommits with
  | done hr htables htx hid hactive hp hpid =>
    subst hid
    exact hk.leaves_done hr htables htx hactive hp hpid
  | inactive hr htables hinactive => exact hk.leaves hr htables hinactive
  | failed hr htables => exact hk.leaves_abort hr htables

/-- Whoever begins does so over what the committed transactions make. -/
theorem begin (hk : h.Keeps kinds start) (names : List String) (mode : TransactionMode) :
    (h.after (.begin names mode)).Keeps kinds start := by
  have hfaithful := hk.toFaithful.begin names mode
  cases hb : h.store.beginTransaction names mode with
  | error e =>
    have hafter : h.after (.begin names mode) = h := by simp only [History.after, hb]
    rw [hafter]
    exact hk
  | ok r =>
    obtain ⟨id, s'⟩ := r
    have hfollows := hk.isolated.follows_begin hb
    have hs' := (beginTransaction_ok hb).2.2
    have htables : s'.tables = h.store.tables := by rw [hs']
    simp only [History.after, hb] at hfaithful ⊢
    refine ⟨hfaithful, hfollows.isolated, fun q hq => ?_, fun b hmem q hq hqid => ?_,
      fun n hfree => ?_⟩
    · rcases List.mem_append.1 hq with hq | hq
      · exact hfollows.remembers (hk.below hq) (hk.remembers q hq)
      · -- What is committed is what it finds in its tables, and that it remembers.
        obtain rfl := List.mem_singleton.1 hq
        intro b hmem hid hactive n hn
        have hback := hk.isolated.remembers_begin hb b hmem hid hactive n hn
        rcases hk.pair_begin hb rfl hmem (List.mem_append_right _ hq) hid.symm with
          ⟨rfl, -⟩ | ⟨-, hold⟩
        · rwa [(hk.committed_of_begin hb hn).2]
        · exact absurd hold (hk.not_mem_of_begin hb rfl)
    · rcases hk.pair_begin hb rfl hmem hq hqid with ⟨rfl, rfl⟩ | ⟨hmem, hq⟩
      · refine ⟨fun _ n hn => ?_, Party.mirrored_begin hb _ fun n hn => ?_⟩
        · rw [(hk.committed_of_begin hb hn).2]
          exact hk.settled n (hk.committed_of_begin hb hn).1
        · exact (hk.committed_of_begin hb hn).2
      · exact (hk.goes b hmem q hq hqid).spare (fun n _ => by rw [htables]) fun _ _ => rfl
    · rw [htables]
      refine hk.settled n fun b hmem => hfree b ?_
      rw [hs']
      exact List.mem_append_left _ hmem

/-- One step. -/
theorem after (hk : h.Keeps kinds start) {a : Step} (ha : a.OfKinds kinds start) :
    (h.after a).Keeps kinds start := by
  cases a with
  | begin names mode => exact hk.begin names mode
  | write id name c => exact hk.write ha
  | commit id => exact hk.commit id
  | abort id => exact hk.abort id
  | drop id => exact hk.leaves_abort (released_drop h.store id) rfl

/-- A run of steps. -/
theorem foldl (hk : h.Keeps kinds start) {steps : List Step}
    (hsteps : ∀ a ∈ steps, a.OfKinds kinds start) : (steps.foldl History.after h).Keeps kinds start := by
  induction steps generalizing h with
  | nil => exact hk
  | cons a rest ih =>
    rw [List.forall_mem_cons] at hsteps
    exact ih (hk.after hsteps.1) hsteps.2

/-- Before the first step. -/
theorem of_settled {s : Store} (hs : s.Settled kinds) :
    ({ store := s } : History).Keeps kinds s.tables where
  toFaithful := .start hs.isolated.locked hs.transactions
  isolated := hs.isolated
  remembers := by simp
  goes := by simp
  settled n _ := by
    show Option.Rel _ (s.tables.get? n) (s.tables.get? n)
    cases ht : s.tables.get? n with
    | none => exact .none
    | some t => exact .some (.refl (hs.tables.good ht))

/-- What is committed is what the committed transactions make, also where someone is writing. -/
theorem committed (hk : h.Keeps kinds start) (n : String) :
    Option.Rel (Table.Agrees (.ofKinds (kinds n))) (h.store.committed.get? n)
      ((h.serial start).get? n) := by
  by_cases hfree : ∀ tx ∈ h.store.transactions, ¬ tx.MayWrite n
  · rw [hk.locked.committed_of_free hfree]
    exact hk.settled n hfree
  · push Not at hfree
    obtain ⟨tx, htx, hmay⟩ := hfree
    obtain ⟨p, hp, hid⟩ := hk.party htx
    rw [hk.locked.committed_of_mayWrite htx hmay]
    exact Transaction.agrees_trans (hk.remembers p hp tx htx hid.symm hmay.1 n hmay.2.2)
      ((hk.goes tx htx p hp hid).opened hmay.1 n hmay.2.2)

end History.Keeps

end

/-! ### Serial runs -/

variable {kinds : String → String → ScalarKind}

/-- Steps of transactions in any order: a table is held by readers only or by one that writes, and
every open transaction reads what it would read alone over what was committed when it was opened. If
what is written into columns of keys is of their kinds, what is committed is what the committed
transactions make one after another. Only a key of it can be written in another way, where an abort
has put a row back. -/
theorem run_serial {s : Store} (hs : s.Settled kinds) (steps : List Step) :
    let h : History := steps.foldl History.after { store := s }
    h.store = steps.foldl after s ∧ h.parties.map (·.id) = h.store.transactions.map (·.id) ∧
      (∀ n, h.store.Exclusive n) ∧
      (∀ p ∈ h.parties, ∀ (n : String) {α : Type} (f : Table → Except Error α),
        h.store.readIn p.id n f = (p.alone p.opened).readIn p.id n f) ∧
      ((∀ a ∈ steps, a.OfKinds kinds s.tables) →
        ∀ n, Option.Rel (fun t u => t.Same u ∧ t.Answers (kinds n) u) (h.store.committed.get? n)
          ((h.serial s.tables).get? n)) := by
  intro h
  have hf : h.Faithful := (History.Faithful.start hs.isolated.locked hs.transactions).foldl steps
  refine ⟨History.store_foldl _ steps, hf.ids, hf.locked.exclusive,
    fun p hp n {α} f => hf.readIn hp n f, fun hsteps n => ?_⟩
  have hk : h.Keeps kinds s.tables := (History.Keeps.of_settled hs).foldl hsteps
  exact rel_imp (hk.committed n) fun _ _ hagrees => ⟨hagrees.same, hagrees.answers⟩

/-- Two transactions write, one of which is aborted, while a third one has to wait; then two read, and
one more writes. -/
def trading : List Step :=
  [.begin ["price"] .readWrite, .begin ["bid"] .readWrite, .begin ["bid", "price"] .readOnly,
    .write 1 "price" (.add (price 44 1)), .write 2 "bid" (.add (price 5 0)),
    .write 1 "price" (.put (price 440 2)), .write 2 "bid" (.add (price 50 1)), .commit 2,
    .begin ["bid"] .readOnly, .begin ["bid"] .readOnly, .abort 1, .begin ["price"] .readWrite,
    .write 5 "price" (.add (price 7 0)), .commit 3]

/-- What the last one writes it reads, and it is not committed. -/
theorem run_serial_trading :
    let h : History := trading.foldl History.after { store := prices }
    h.committed.map (·.id) = [2, 3] ∧ h.parties.map (·.id) = [1, 4, 5] ∧
      pricesAt h.store.tables (.decimal ⟨false, 7, 0⟩) = 1 ∧
      pricesAt h.store.committed (.decimal ⟨false, 7, 0⟩) = 0 ∧
      (∀ n, h.store.Exclusive n) ∧
      (∀ p ∈ h.parties, ∀ (n : String) (f : Table → Except Error Nat),
        h.store.readIn p.id n f = (p.alone p.opened).readIn p.id n f) ∧
      ∀ n, Option.Rel (fun t u => t.Same u ∧ t.Answers (fun _ => .decimal) u)
        (h.store.committed.get? n) ((h.serial prices.tables).get? n) := by
  have htrading : ∀ a ∈ trading, a.OfKinds (fun _ _ => .decimal) prices.tables := by decide +kernel
  obtain ⟨-, -, hexclusive, hreads, hserial⟩ := run_serial (settled_prices _) trading
  refine ⟨?_, ?_, ?_, ?_, hexclusive, fun p hp n f => hreads p hp n f, hserial htrading⟩ <;>
    decide +kernel

/-- Writes the amount of a price with fifteen places, and aborts. -/
def repricing : List Step :=
  pricing ++ [.begin ["price"] .readWrite, .write 2 "price" (.put (price 4400000000000000 15)), .abort 2]

/-- Deletes under the number that is equal to both amounts, and aborts. -/
def recounting : List Step :=
  counting ++ .begin ["price"] .readWrite :: merging.map (fun c => .write 2 c.1 c.2) ++ [.abort 2]

/-- The form of a key can be seen. The floating-point number that is nearest to "4.4" does not find
the price in what is committed, and finds it in what the one committed transaction makes alone. And
rows that are deleted under a key of another kind need not all be there again. -/
theorem run_serial_inexact :
    (let h : History := repricing.foldl History.after { store := prices }
     (∀ a ∈ repricing, a.OfKinds (fun _ _ => .decimal) prices.tables) ∧
       h.committed.map (·.id) = [1] ∧
       pricesAt h.store.committed (.float ⟨0x401199999999999A⟩) = 0 ∧
       pricesAt (h.serial prices.tables) (.float ⟨0x401199999999999A⟩) = 1 ∧
       h.store.committed ≠ h.serial prices.tables) ∧
      let h : History := recounting.foldl History.after { store := prices }
      (∀ a ∈ counting, a.OfKinds (fun _ _ => .int) prices.tables) ∧
        h.committed.map (·.id) = [1] ∧
        ((h.store.committed.get? "price").map (·.size)) = some 1 ∧
        (((h.serial prices.tables).get? "price").map (·.size)) = some 2 := by
  constructor
  · intro h
    have hleft : pricesAt h.store.committed (.float ⟨0x401199999999999A⟩) = 0 := by decide +kernel
    have hright : pricesAt (h.serial prices.tables) (.float ⟨0x401199999999999A⟩) = 1 := by
      decide +kernel
    refine ⟨?_, ?_, hleft, hright, fun heq => ?_⟩
    · decide +kernel
    · decide +kernel
    · rw [heq, hright] at hleft
      cases hleft
  · refine ⟨?_, ?_, ?_, ?_⟩ <;> decide +kernel

end Store

end RelationalStore

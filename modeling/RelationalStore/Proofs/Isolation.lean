import RelationalStore.Proofs.ClientRuns
import RelationalStore.Proofs.UndoLog

/- Transactions that are open at the same time do not disturb each other. Of two active ones that
   have a table in common neither writes (`Store.Isolated`), since each locks its tables when it
   begins. So whatever is done in one transaction leaves the tables of the others as they are, and a
   rollback of each still leads back to what its tables were when it was opened (`Store.Remembers`). -/
namespace RelationalStore
open SortedMap

/-- The transaction holds a lock on the table. -/
def Transaction.Locks (tx : Transaction) (n : String) : Prop := tx.active = true ∧ n ∈ tx.scope

namespace Store
variable {D : String → Table.Discipline} {first opened : Tables} {s s' : Store}
  {tx tx' : Transaction} {tables : Tables} {id : Nat}

/-- Of two active transactions that share a table neither writes. -/
def Apart (s : Store) : Prop :=
  ∀ a ∈ s.transactions, ∀ b ∈ s.transactions, a.id ≠ b.id → ∀ n, a.Locks n → b.Locks n →
    a.mode = .readOnly ∧ b.mode = .readOnly

/-- The tables are good tables of the first definitions, each log can be replayed, and the
transactions are apart. -/
structure Isolated (D : String → Table.Discipline) (first : Tables) (s : Store) : Prop where
  numbered : s.Numbered
  under : Tables.Under D s.tables
  definition : ∀ n, (s.tables.get? n).map (·.definition) = (first.get? n).map (·.definition)
  logged : ∀ tx ∈ s.transactions, tx.Logged D s.tables
  apart : s.Apart

/-- As long as the transaction is active, a rollback leads back to the tables it was opened over. -/
def Remembers (D : String → Table.Discipline) (id : Nat) (opened : Tables) (s : Store) : Prop :=
  ∀ tx ∈ s.transactions, tx.id = id → tx.active = true → ∀ n ∈ tx.scope,
    Option.Rel (Table.Agrees (D n)) ((tx.rollback s.tables).get? n) (opened.get? n)

/-! ### Locks -/

/-- What one transaction may write to is no table of another. -/
theorem Apart.not_mayWrite (h : s.Apart) (htx : tx ∈ s.transactions) {b : Transaction}
    (hb : b ∈ s.transactions) (hne : b.id ≠ tx.id) {n : String} (hlocks : b.Locks n) :
    ¬ tx.MayWrite n := by
  intro hmay
  obtain ⟨hactive, hmode, hscope⟩ := hmay
  have hreads := (h b hb tx htx hne n hlocks ⟨hactive, hscope⟩).2
  rw [hmode] at hreads
  cases hreads

/-- Each transaction is one from before with the same number and mode, and with its locks or
fewer. -/
theorem Apart.of_fewer (h : s.Apart) (hold : ∀ b ∈ s'.transactions, ∃ b₀ ∈ s.transactions,
    b₀.id = b.id ∧ b₀.mode = b.mode ∧ ∀ n, b.Locks n → b₀.Locks n) : s'.Apart := by
  intro a ha b hb hne n hna hnb
  obtain ⟨a₀, ha₀, haid, hamode, halocks⟩ := hold a ha
  obtain ⟨b₀, hb₀, hbid, hbmode, hblocks⟩ := hold b hb
  rw [← hamode, ← hbmode]
  exact h a₀ ha₀ b₀ hb₀ (by rwa [haid, hbid]) n (halocks n hna) (hblocks n hnb)

/-- Whoever gets the locks is kept from no table, and every table is there. -/
theorem acquire_eq_ok_iff {mode : TransactionMode} {names : List String} :
    s.acquire mode names = .ok () ↔
      ∀ n ∈ names, (s.tables.get? n).isSome ∧ s.isBlocked mode n = false := by
  induction names with
  | nil => simp [acquire]
  | cons n rest ih =>
    have hcontains : s.tables.contains n = (s.tables.get? n).isSome := by
      simp [SortedMap.contains, SortedMap.get?]
    rw [List.forall_mem_cons, ← ih, acquire, hcontains]
    cases (s.tables.get? n).isSome <;> cases s.isBlocked mode n <;>
      simp [bind, Except.bind, throw, throwThe, MonadExceptOf.throw]

/-- A transaction that begins has found its locks free. -/
theorem Apart.begin (h : s.Apart) {names : List String} {mode : TransactionMode}
    (hb : s.beginTransaction names mode = .ok (id, s')) : s'.Apart := by
  obtain ⟨hacquired, rfl, rfl⟩ := beginTransaction_ok hb
  -- A table that someone has a lock on could be had only if both read.
  have hfree (b : Transaction) (hb : b ∈ s.transactions) (n : String)
      (hn : n ∈ (SortedSet.ofList names).keys) (hlocks : b.Locks n) :
      b.mode = .readOnly ∧ mode = .readOnly := by
    have hblocked := (acquire_eq_ok_iff.1 hacquired n hn).2
    rw [isBlocked, List.any_eq_false] at hblocked
    have hblocks := hblocked b hb
    obtain ⟨hactive, hscope⟩ := hlocks
    cases hbmode : b.mode <;> cases mode <;>
      simp [Transaction.blocks, hactive, hscope, hbmode] at hblocks ⊢
  intro a ha b hb hne n hna hnb
  rcases List.mem_append.1 ha with ha | ha <;> rcases List.mem_append.1 hb with hb | hb
  · exact h a ha b hb hne n hna hnb
  · rw [List.mem_singleton.1 hb] at hnb ⊢
    exact hfree a ha n hnb.2 hna
  · rw [List.mem_singleton.1 ha] at hna ⊢
    exact (hfree b hb n hna.2 hnb).symm
  · rw [List.mem_singleton.1 ha, List.mem_singleton.1 hb] at hne
    exact absurd rfl hne

/-! ### A step of one transaction -/

/-- The step keeps transactions apart, and each keeps what it remembers. -/
structure Follows (D : String → Table.Discipline) (first : Tables) (s s' : Store) : Prop where
  isolated : s'.Isolated D first
  nextId : s.nextId ≤ s'.nextId
  remembers : ∀ {id opened}, id < s.nextId → s.Remembers D id opened → s'.Remembers D id opened

theorem Follows.refl (h : s.Isolated D first) : s.Follows D first s :=
  ⟨h, Nat.le_refl _, fun _ hr => hr⟩

theorem Follows.trans {s'' : Store} (h : s.Follows D first s') (h' : s'.Follows D first s'') :
    s.Follows D first s'' where
  isolated := h'.isolated
  nextId := Nat.le_trans h.nextId h'.nextId
  remembers hid hr := h'.remembers (Nat.lt_of_lt_of_le hid h.nextId) (h.remembers hid hr)

/-- One transaction becomes another or goes, and the rest stay. -/
theorem Isolated.turn (h : s.Isolated D first) (htx : tx ∈ s.transactions)
    (ht : tx.Turns D s.tables tx' s'.tables) (hnumbered : s'.Numbered)
    (hrest : ∀ b ∈ s'.transactions, b = tx' ∨ b ∈ s.transactions ∧ b.id ≠ tx.id) :
    s'.Isolated D first where
  numbered := hnumbered
  under := ht.under
  definition n := (ht.definition n).trans (h.definition n)
  logged := by
    intro b hb
    rcases hrest b hb with rfl | ⟨hb, -⟩
    · exact ht.logged
    · exact (h.logged b hb).of_definitions ht.definition
  apart := by
    refine h.apart.of_fewer fun b hb => ?_
    rcases hrest b hb with rfl | ⟨hb, -⟩
    · refine ⟨tx, htx, ht.id.symm, ht.mode.symm, fun n hn => ⟨ht.active hn.1, ?_⟩⟩
      rw [← ht.scope]
      exact hn.2
    · exact ⟨b, hb, rfl, rfl, fun _ hn => hn⟩

theorem Isolated.follows_turn {r : Store} {u : Transaction} (h : s.Isolated D first)
    (htx : tx ∈ s.transactions)
    (ht : tx.Turns D s.tables u r.tables) (hnumbered : r.Numbered)
    (hnext : r.nextId = s.nextId)
    (hrest : ∀ b ∈ r.transactions, b = u ∨ b ∈ s.transactions ∧ b.id ≠ tx.id)
    (hback : u ∈ r.transactions → u.active = true → ∀ n, Option.Rel (Table.Agrees (D n))
      ((u.rollback r.tables).get? n) ((tx.rollback s.tables).get? n)) :
    s.Follows D first r where
  isolated := h.turn htx ht hnumbered hrest
  nextId := Nat.le_of_eq hnext.symm
  remembers {id opened} _ hr := by
    intro b hb hid hactive n hn
    rcases hrest b hb with rfl | ⟨hb, hne⟩
    · -- The transaction itself: its rollback leads back to where it led before.
      refine Transaction.agrees_trans (hback hb hactive n) (hr tx htx ?_ (ht.active hactive) n ?_)
      · rw [← ht.id, hid]
      · rwa [← ht.scope]
    · -- Another one: what it has locked was not written to.
      have houtside := ht.outside n (h.apart.not_mayWrite htx hb hne ⟨hactive, hn⟩)
      rw [Transaction.get?_rollback, houtside, ← Transaction.get?_rollback]
      exact hr b hb hid hactive n hn

/-! ### The steps that there are -/

theorem mem_setTransaction {b : Transaction} (h : b ∈ (s.setTransaction tx').transactions) :
    b = tx' ∨ b ∈ s.transactions ∧ b.id ≠ tx'.id := by
  obtain ⟨t, ht, rfl⟩ := List.mem_map.1 h
  by_cases hid : t.id = tx'.id
  · exact .inl (by simp [hid])
  · exact .inr (by simpa [hid] using ht)

theorem mem_forget {b : Transaction} :
    b ∈ (s.forget id).transactions ↔ b ∈ s.transactions ∧ b.id ≠ id := by
  simp [forget]

theorem Numbered.setTransaction_self (h : s.Numbered) (htx : tx ∈ s.transactions) :
    (s.setTransaction tx).transactions = s.transactions := by
  refine (List.map_congr_left fun b hb => ?_).trans (List.map_id _)
  by_cases hid : b.id = tx.id
  · simp [List.inj_on_of_nodup_map h.distinct hb htx hid]
  · simp [hid]

theorem inactive_abort (htx : tx ∈ (s.abort id).transactions) (hid : tx.id = id) :
    tx.active = false := by
  unfold Store.abort at htx
  split at htx
  · next old hold =>
    rcases mem_setTransaction htx with rfl | ⟨-, hne⟩
    · exact (old.abort_frame s.tables).2.2.2
    · refine absurd ?_ hne
      rw [hid, (old.abort_frame s.tables).1, (transaction?_eq_some hold).2]
  · next hnone =>
    have := List.find?_eq_none.1 hnone tx htx
    simp [hid] at this

theorem transactions_drop (s : Store) (id : Nat) :
    (s.drop id).transactions = (s.forget id).transactions := by
  unfold Store.drop Store.abort
  split
  · next tx htx =>
    have hid : (tx.abort s.tables).1.id = id :=
      (tx.abort_frame s.tables).1.trans (transaction?_eq_some htx).2
    simp only [forget, setTransaction]
    induction s.transactions with
    | nil => rfl
    | cons b rest ih =>
      rw [List.map_cons, List.filter_cons, List.filter_cons, ih]
      by_cases hb : b.id = id <;> simp [hb, hid]
  · rfl

theorem nextId_abort (s : Store) (id : Nat) : (s.abort id).nextId = s.nextId := by
  unfold Store.abort
  split <;> rfl

/-- What was done in a transaction. -/
theorem Isolated.follows_leads (h : s.Isolated D first) (htx : tx ∈ s.transactions)
    (ht : tx.Leads D s.tables tx' tables) :
    s.Follows D first { s.setTransaction tx' with tables := tables } := by
  refine h.follows_turn (r := { s.setTransaction tx' with tables := tables }) htx ht.toTurns
    (h.numbered.of_ids (ids_setTransaction tx') rfl) rfl (fun b hb => ?_) fun _ _ => ht.back
  rw [← ht.id]
  exact mem_setTransaction hb

/-- Some transactions go and the tables stay. -/
theorem Isolated.follows_fewer (h : s.Isolated D first) (htables : s'.tables = s.tables)
    (hnext : s'.nextId = s.nextId) (hfewer : s'.transactions.Sublist s.transactions) :
    s.Follows D first s' where
  isolated :=
    { numbered := ⟨h.numbered.distinct.sublist (hfewer.map _), fun b hb => by
        rw [hnext]
        exact h.numbered.below b (hfewer.subset hb)⟩
      under := by rw [htables]; exact h.under
      definition := by rw [htables]; exact h.definition
      logged := fun b hb => by rw [htables]; exact h.logged b (hfewer.subset hb)
      apart := h.apart.of_fewer fun b hb => ⟨b, hfewer.subset hb, rfl, rfl, fun _ hn => hn⟩ }
  nextId := Nat.le_of_eq hnext.symm
  remembers _ hr b hb := by
    rw [htables]
    exact hr b (hfewer.subset hb)

theorem Isolated.follows_forget (h : s.Isolated D first) (id : Nat) :
    s.Follows D first (s.forget id) :=
  h.follows_fewer rfl rfl List.filter_sublist

theorem Isolated.follows_abort (h : s.Isolated D first) (id : Nat) :
    s.Follows D first (s.abort id) := by
  unfold Store.abort
  cases htx : s.transaction? id with
  | none => exact .refl h
  | some tx =>
    have hmem := (transaction?_eq_some htx).1
    have ht := Transaction.Turns.abort h.under (h.logged tx hmem)
    refine h.follows_turn (r := { s.setTransaction (tx.abort s.tables).1 with
      tables := (tx.abort s.tables).2 }) hmem ht
      (h.numbered.of_ids (ids_setTransaction _) rfl) rfl (fun b hb => ?_) fun _ hactive => ?_
    · rw [← ht.id]
      exact mem_setTransaction hb
    · -- Only one that was inactive before is as it was.
      have hwas := ht.active hactive
      simp [Transaction.abort, hwas] at hactive

theorem Isolated.follows_drop (h : s.Isolated D first) (id : Nat) : s.Follows D first (s.drop id) :=
  (h.follows_abort id).trans ((h.follows_abort id).isolated.follows_forget id)

theorem Isolated.follows_writeIn {α : Type} (h : s.Isolated D first) (id : Nat)
    {f : Transaction → Tables → Except Error (α × Transaction × Tables)}
    (hf : ∀ tx, tx.Logged D s.tables → ∀ {a tx' tables'}, f tx s.tables = .ok (a, tx', tables') →
      tx.Leads D s.tables tx' tables') :
    s.Follows D first (s.writeIn id f).2 := by
  unfold Store.writeIn
  cases htx : s.transaction? id with
  | none => exact .refl h
  | some tx =>
    have hmem := (transaction?_eq_some htx).1
    simp only
    split
    · next heq => exact h.follows_leads hmem (hf tx (h.logged tx hmem) heq)
    · exact .refl h

/-- A commit lets the writes stand or takes them all back, and an active transaction that could not
be committed has taken them back. -/
theorem commitTransaction_tables (s : Store) (tx : Transaction) :
    (s.commitTransaction tx).2.tables = s.tables ∧
        ((s.commitTransaction tx).1 = .ok () ∨ tx.active = false) ∨
      (s.commitTransaction tx).2.tables = tx.rollback s.tables ∧ tx.active = true ∧
        ∃ e, (s.commitTransaction tx).1 = .error e := by
  unfold commitTransaction
  split
  · next hactive => exact .inl ⟨rfl, .inr (by simpa using hactive)⟩
  · next hactive =>
    split
    · exact .inl ⟨rfl, .inl rfl⟩
    · split
      · exact .inl ⟨rfl, .inl rfl⟩
      · simp only
        split
        · exact .inl ⟨rfl, .inl rfl⟩
        · exact .inr ⟨rfl, by simpa using hactive, _, rfl⟩

theorem Isolated.follows_commit (h : s.Isolated D first) (id : Nat) :
    s.Follows D first (s.commit id).2 := by
  unfold Store.commit
  cases htx : s.transaction? id with
  | none => exact .refl h
  | some tx =>
    obtain ⟨hmem, rfl⟩ := transaction?_eq_some htx
    obtain ⟨htransactions, hnext⟩ := commitTransaction_frame (s := s) tx
    simp only
    rcases commitTransaction_tables s tx with ⟨htables, -⟩ | ⟨htables, hactive, -⟩
    · refine h.follows_fewer htables hnext ?_
      rw [forget, htransactions]
      exact List.filter_sublist
    · have ht := Transaction.Turns.abort h.under (h.logged tx hmem)
      rw [Transaction.abort, if_pos hactive] at ht
      have hrest (b : Transaction) (hb : b ∈ ((s.commitTransaction tx).2.forget tx.id).transactions) :
          b ∈ s.transactions ∧ b.id ≠ tx.id := by
        rw [mem_forget, htransactions] at hb
        exact hb
      refine h.follows_turn (r := (s.commitTransaction tx).2.forget tx.id) hmem
        (u := { tx with active := false, undo := [] }) ?_ ?_ hnext (fun b hb => .inr (hrest b hb)) ?_
      · rw [← htables] at ht
        exact ht
      · exact (h.numbered.of_ids (by rw [htransactions]) hnext).forget tx.id
      · intro _ hlive
        cases hlive

theorem Isolated.follows_begin (h : s.Isolated D first) {names : List String}
    {mode : TransactionMode} (hb : s.beginTransaction names mode = .ok (id, s')) :
    s.Follows D first s' := by
  have hnumbered := h.numbered.begin hb
  have hapart := h.apart.begin hb
  obtain ⟨-, rfl, rfl⟩ := beginTransaction_ok hb
  refine ⟨⟨hnumbered, h.under, h.definition, ?_, hapart⟩, Nat.le_succ _, ?_⟩
  · intro b hb
    rcases List.mem_append.1 hb with hb | hb
    · exact h.logged b hb
    · rw [List.mem_singleton.1 hb]
      exact ⟨fun hne => absurd rfl hne, fun u hu => absurd hu List.not_mem_nil⟩
  · -- The number of the new one is not taken, so none that was remembered is meant by it.
    intro id opened hid hr b hb hbid
    rcases List.mem_append.1 hb with hb | hb
    · exact hr b hb hbid
    · rw [List.mem_singleton.1 hb] at hbid
      exact absurd hbid (Nat.ne_of_gt hid)

/-- A transaction that has just begun remembers the tables as they are. -/
theorem Isolated.remembers_begin (h : s.Isolated D first) {names : List String}
    {mode : TransactionMode} (hb : s.beginTransaction names mode = .ok (id, s')) :
    s'.Remembers D id s.tables := by
  have hfound := (h.numbered.transaction?_begin hb)
  have hnumbered := h.numbered.begin hb
  obtain ⟨-, -, hs'⟩ := beginTransaction_ok hb
  intro tx htx hid hactive n hn
  have hsame := hnumbered.transaction?_iff.2 ⟨htx, hid⟩
  rw [hfound] at hsame
  cases hsame
  rw [hs']
  show Option.Rel _ (s.tables.get? n) (s.tables.get? n)
  cases ht : s.tables.get? n with
  | none => exact .none
  | some t => exact .some (.refl (h.under.good ht))

end Store

end RelationalStore

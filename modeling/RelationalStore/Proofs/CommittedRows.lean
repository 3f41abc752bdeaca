import RelationalStore.Proofs.PairedTables
import RelationalStore.Proofs.SerialRuns

/- Only a commit changes which rows of a table are committed (`Store.Isolated.committed_commit`).
   What a transaction does until then it could take back, and taking it back leads to where it
   began, up to the form of keys, which rows do not show. Of the tables that a transaction may write
   to no other one is held by anybody else; so a step of the one leaves the rows as they are that
   are committed in the rest (`Store.Isolated.committedRows_turn`). -/
namespace RelationalStore
open SortedMap

theorem Transaction.mem_dirty {tx : Transaction} {n : String} :
    n ∈ tx.dirty ↔ ∃ u ∈ tx.undo, u.table = n := by
  rw [dirty, mem_keys_set, List.mem_map]

namespace Store
variable {D : String → Table.Discipline} {first tables : Tables} {s s' : Store} {tx tx' : Transaction}
  {id : Nat} {n : String}

/-- The rows of a table that are committed. -/
def committedRows (s : Store) (n : String) : Option (List Row) :=
  (s.committed.get? n).map Table.toList

theorem committedRows_eq_of_rel {x y : Option Table} {D : Table.Discipline}
    (h : Option.Rel (Table.Agrees D) x y) : x.map Table.toList = y.map Table.toList :=
  map_eq_of_rel h fun _ _ hagrees => hagrees.toList_eq

namespace Isolated

/-- Nobody but the transaction may write to the tables that it may write to. -/
theorem not_mayWrite (h : s.Isolated D first) (htx : tx ∈ s.transactions) (hmay : tx.MayWrite n)
    {b : Transaction} (hb : b ∈ s.transactions) (hne : b.id ≠ tx.id) : ¬ b.MayWrite n := fun hb' =>
  h.apart.not_mayWrite hb htx (Ne.symm hne) ⟨hmay.1, hmay.2.2⟩ hb'

/-- One transaction goes on or is over, and from where it is now it leads back to where it led
before. -/
theorem committedRows_turn (h : s.Isolated D first) (h' : s'.Isolated D first)
    (htx : tx ∈ s.transactions)
    (hothers : ∀ b : Transaction, b.id ≠ tx.id → (b ∈ s'.transactions ↔ b ∈ s.transactions))
    (hself : ∀ b ∈ s'.transactions, b.id = tx.id → b.MayWrite n → tx.MayWrite n)
    (houtside : ¬ tx.MayWrite n → s'.tables.get? n = s.tables.get? n)
    (hback : tx.MayWrite n →
      Option.Rel (Table.Agrees (D n)) (s'.committed.get? n) ((tx.rollback s.tables).get? n)) :
    s'.committedRows n = s.committedRows n := by
  rw [committedRows, committedRows]
  by_cases hmay : tx.MayWrite n
  · rw [h.locked.committed_of_mayWrite htx hmay]
    exact committedRows_eq_of_rel (hback hmay)
  · by_cases hfree : ∀ b ∈ s.transactions, ¬ b.MayWrite n
    · have hfree' : ∀ b ∈ s'.transactions, ¬ b.MayWrite n := fun b hb hb' => by
        by_cases hid : b.id = tx.id
        · exact hmay (hself b hb hid hb')
        · exact hfree b ((hothers b hid).1 hb) hb'
      rw [h.locked.committed_of_free hfree, h'.locked.committed_of_free hfree', houtside hmay]
    · -- Another one may write to the table, and it is still there.
      push Not at hfree
      obtain ⟨b, hb, hb'⟩ := hfree
      have hid : b.id ≠ tx.id := fun heq => by
        rw [List.inj_on_of_nodup_map h.numbered.distinct hb htx heq] at hb'
        exact hmay hb'
      rw [h.locked.committed_of_mayWrite hb hb',
        h'.locked.committed_of_mayWrite ((hothers b hid).2 hb) hb', Transaction.get?_rollback,
        Transaction.get?_rollback, houtside hmay]

theorem mem_setTransaction_iff (htx' : tx'.id = tx.id) {b : Transaction} (hne : b.id ≠ tx.id) :
    b ∈ (s.setTransaction tx').transactions ↔ b ∈ s.transactions := by
  constructor
  · intro hb
    rcases mem_setTransaction hb with rfl | ⟨hb, -⟩
    · exact absurd htx' hne
    · exact hb
  · intro hb
    exact List.mem_map.2 ⟨b, hb, by simp [htx', hne]⟩

/-- What is done in a transaction. -/
theorem committedRows_leads (h : s.Isolated D first) (htx : tx ∈ s.transactions)
    (ht : tx.Leads D s.tables tx' tables) (n : String) :
    ({ s.setTransaction tx' with tables := tables } : Store).committedRows n = s.committedRows n := by
  have h' := (h.follows_leads htx ht).isolated
  refine h.committedRows_turn h' htx (fun b hne => mem_setTransaction_iff ht.id hne) ?_
    (ht.outside n) fun hmay => ?_
  · intro b hb hid hmay
    rcases mem_setTransaction hb with rfl | ⟨-, hne⟩
    · exact (ht.mayWrite_iff n).1 hmay
    · exact absurd (hid.trans ht.id.symm) hne
  · have hmem : tx' ∈ (s.setTransaction tx').transactions :=
      List.mem_map.2 ⟨tx, htx, by simp [ht.id]⟩
    rw [h'.locked.committed_of_mayWrite hmem ((ht.mayWrite_iff n).2 hmay)]
    exact ht.back n

theorem committedRows_abort (h : s.Isolated D first) (id : Nat) (n : String) :
    (s.abort id).committedRows n = s.committedRows n := by
  cases htx : s.transaction? id with
  | none => rw [Store.abort, htx]
  | some tx =>
    obtain ⟨hmem, rfl⟩ := transaction?_eq_some htx
    have h' := (h.follows_abort tx.id).isolated
    have hinactive {b : Transaction} (hb : b ∈ (s.abort tx.id).transactions) (hid : b.id = tx.id) :
        ¬ b.MayWrite n := fun hmay => by
      have hlive := hmay.1
      rw [inactive_abort hb hid] at hlive
      cases hlive
    have habort : s.abort tx.id = { s.setTransaction (tx.abort s.tables).1 with
        tables := (tx.abort s.tables).2 } := by rw [Store.abort, htx]
    have hothers (b : Transaction) (hne : b.id ≠ tx.id) :
        b ∈ (s.abort tx.id).transactions ↔ b ∈ s.transactions := by
      rw [habort]
      exact mem_setTransaction_iff (tx.abort_frame s.tables).1 hne
    refine h.committedRows_turn h' hmem hothers (fun b hb hid hmay => absurd hmay (hinactive hb hid)) ?_
      fun hmay => ?_
    · intro hmay
      rw [habort]
      exact (Transaction.Turns.abort h.under (h.logged tx hmem)).outside n hmay
    · -- Nobody may write to the table any more, and it is the one that the rollback leads to.
      rw [h'.locked.committed_of_free, abort_of_active htx hmay.1]
      · exact Transaction.agrees_rollback h.under (h.logged tx hmem) n
      · intro b hb
        by_cases hid : b.id = tx.id
        · exact hinactive hb hid
        · exact h.not_mayWrite hmem hmay ((hothers b hid).1 hb) hid

/-- Transactions that hold no lock go, and the others stay. -/
theorem committedRows_forget (h : s.Isolated D first)
    (hinactive : ∀ tx ∈ s.transactions, tx.id = id → tx.active = false) (n : String) :
    (s.forget id).committedRows n = s.committedRows n := by
  have h' := (h.follows_forget id).isolated
  rw [committedRows, committedRows]
  by_cases hfree : ∀ b ∈ s.transactions, ¬ b.MayWrite n
  · rw [h.locked.committed_of_free hfree,
      h'.locked.committed_of_free fun b hb => hfree b (mem_forget.1 hb).1]
    rfl
  · push Not at hfree
    obtain ⟨b, hb, hmay⟩ := hfree
    have hne : b.id ≠ id := fun heq => by
      have hlive := hmay.1
      rw [hinactive b hb heq] at hlive
      cases hlive
    rw [h.locked.committed_of_mayWrite hb hmay,
      h'.locked.committed_of_mayWrite (mem_forget.2 ⟨hb, hne⟩) hmay]
    rfl

theorem committedRows_drop (h : s.Isolated D first) (id : Nat) (n : String) :
    (s.drop id).committedRows n = s.committedRows n := by
  rw [Store.drop, (h.follows_abort id).isolated.committedRows_forget fun tx htx => inactive_abort htx]
  exact h.committedRows_abort id n

theorem committedRows_begin (h : s.Isolated D first) {names : List String} {mode : TransactionMode}
    (hb : s.beginTransaction names mode = .ok (id, s')) (n : String) :
    s'.committedRows n = s.committedRows n := by
  have h' := (h.follows_begin hb).isolated
  obtain ⟨-, rfl, rfl⟩ := beginTransaction_ok hb
  rw [committedRows, committedRows]
  by_cases hfree : ∀ b ∈ s.transactions, ¬ b.MayWrite n
  · rw [h.locked.committed_of_free hfree]
    -- The new one has written nothing yet.
    let tx : Transaction := { id := s.nextId, mode, scope := (SortedSet.ofList names).keys }
    by_cases hmay : tx.MayWrite n
    · rw [h'.locked.committed_of_mayWrite (List.mem_append_right _ (List.mem_singleton_self _)) hmay]
      rfl
    · rw [h'.locked.committed_of_free]
      intro b hb
      rcases List.mem_append.1 hb with hb | hb
      · exact hfree b hb
      · rw [List.mem_singleton.1 hb]
        exact hmay
  · push Not at hfree
    obtain ⟨b, hb, hmay⟩ := hfree
    rw [h.locked.committed_of_mayWrite hb hmay,
      h'.locked.committed_of_mayWrite (List.mem_append_left _ hb) hmay]

/-- With a transaction goes its lock. What it has written to is committed as it is, and the rest stays
as it was. -/
theorem committed_commit (h : s.Isolated D first) (htx : tx ∈ s.transactions)
    (hactive : tx.active = true) (n : String) :
    (n ∈ tx.dirty → (s.forget tx.id).committed.get? n = s.tables.get? n) ∧
      (n ∉ tx.dirty → (s.forget tx.id).committedRows n = s.committedRows n) := by
  have h' := (h.follows_forget tx.id).isolated
  have hfree (hmay : tx.MayWrite n) : (s.forget tx.id).committed.get? n = s.tables.get? n := by
    refine h'.locked.committed_of_free fun b hb => ?_
    obtain ⟨hb, hne⟩ := mem_forget.1 hb
    exact h.not_mayWrite htx hmay hb hne
  refine ⟨fun hdirty => hfree ?_, fun hclean => ?_⟩
  · obtain ⟨u, hu, rfl⟩ := Transaction.mem_dirty.1 hdirty
    have hlogged := h.logged tx htx
    exact ⟨hactive, hlogged.mode (List.ne_nil_of_mem hu), (hlogged.noted u hu).1⟩
  · refine h.committedRows_turn h' htx (fun b hne => ?_) (fun b hb hid => ?_) (fun _ => rfl)
      fun hmay => ?_
    · rw [mem_forget]
      exact ⟨fun hb => hb.1, fun hb => ⟨hb, hne⟩⟩
    · exact absurd hid (mem_forget.1 hb).2
    · have hnot : ∀ u ∈ tx.undo, u.table ≠ n := fun u hu heq =>
        hclean (Transaction.mem_dirty.2 ⟨u, hu, heq⟩)
      rw [hfree hmay, ← Transaction.rollback_of_not_noted hnot]
      exact Transaction.agrees_rollback h.under (h.logged tx htx) n

end Isolated

end Store

end RelationalStore

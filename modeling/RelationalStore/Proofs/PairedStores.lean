import RelationalStore.Proofs.CommittedRows
import RelationalStore.Proofs.OpenedDirectories

/- Stores that differ in their numbers. One store stays open while the other one is closed and
   opened again, so that the second one gives its transactions the numbers from one on while the
   first one counts on. Since the last opening the transactions of the two match one by one, each
   with the number that it has from there (`Store.Paired`); those that the first one has from before
   are over. Every step keeps this, up to what a commit writes to files. -/
namespace RelationalStore
open SortedMap Read

namespace Tables
variable {D : String → Table.Discipline} {a b : Tables}

theorem Paired.contains_eq (h : a.Paired D b) (n : String) : a.contains n = b.contains n := by
  have hget := h.get? n
  have hcontains (tables : Tables) : tables.contains n = (tables.get? n).isSome := Option.isSome_map.symm
  rw [hcontains, hcontains]
  cases ha : a.get? n <;> cases hb : b.get? n <;> rw [ha, hb] at hget <;> first | rfl | cases hget

/-- A log is replayed on both. -/
theorem Paired.rollback (us : List Undo) : ∀ {a b : Tables}, a.Paired D b →
    (∀ u ∈ us, ∀ t, a.get? u.table = some t → (D u.table).Suits t.definition u.key u.previous) →
    Tables.Paired D (us.foldl Transaction.undoOne a) (us.foldl Transaction.undoOne b) := by
  induction us with
  | nil => exact fun h _ => h
  | cons u rest ih =>
    intro a b h hsuits
    rw [List.forall_mem_cons] at hsuits
    have hget := h.get? u.table
    rw [List.foldl_cons, List.foldl_cons, Transaction.undoOne, Transaction.undoOne]
    cases ha : a.get? u.table with
    | none =>
      rw [eq_none_of_rel hget ha]
      exact ih h hsuits.2
    | some t =>
      obtain ⟨t', hb, hagrees⟩ := exists_of_rel hget ha
      rw [hb]
      refine ih (h.insert (hagrees.restore (hsuits.1 t ha))) fun v hv t₁ ht₁ => ?_
      rw [get?_insert_eq] at ht₁
      split at ht₁
      · next heq =>
        cases ht₁
        rw [Table.definition_restore]
        exact heq ▸ hsuits.2 v hv t (heq ▸ ha)
      · exact hsuits.2 v hv t₁ ht₁

end Tables

/-- Two transactions that are the same since the stores were opened, where `i` and `j` were the first
numbers. -/
structure Transaction.Twin (i j : Nat) (tx ux : Transaction) : Prop extends tx.Matches ux where
  number : ∃ k, tx.id = i + k ∧ ux.id = j + k

/-- A store that has no transactions yet. -/
theorem Store.Isolated.of_idle {D : String → Table.Discipline} {first : Tables} {s : Store}
    (h : s.transactions = []) (hunder : Tables.Under D s.tables)
    (hd : ∀ n, (s.tables.get? n).map (·.definition) = (first.get? n).map (·.definition)) :
    s.Isolated D first where
  numbered := ⟨by simp [h], by simp [h]⟩
  under := hunder
  definition := hd
  logged := by simp [h]
  apart := by simp [Apart, h]

namespace Store
variable {D : String → Table.Discipline} {i j : Nat} {a b : Store} {tx ux tx' ux' : Transaction}
  {tables tables' : Tables}

/-- The stores have tables that agree and the same transactions since they were opened. -/
structure Paired (D : String → Table.Discipline) (i j : Nat) (a b : Store) : Prop where
  tables : a.tables.Paired D b.tables
  nextId : ∃ k, a.nextId = i + k ∧ b.nextId = j + k
  transactions : ∃ past since, a.transactions = past ++ since ∧
    (∀ tx ∈ past, tx.id < i ∧ tx.active = false) ∧
    List.Forall₂ (Transaction.Twin i j) since b.transactions

namespace Paired

theorem transaction? (h : a.Paired D i j b) (k : Nat) :
    Option.Rel (Transaction.Twin i j) (a.transaction? (i + k)) (b.transaction? (j + k)) := by
  obtain ⟨past, since, heq, hpast, hsince⟩ := h.transactions
  have hnone : past.find? (·.id == i + k) = none := by
    refine List.find?_eq_none.2 fun tx htx hid => ?_
    have hlt := (hpast tx htx).1
    simp at hid
    omega
  rw [Store.transaction?, Store.transaction?, heq, List.find?_append, hnone, Option.none_or]
  refine rel_find? hsince fun tx _ ux _ htu => ?_
  obtain ⟨k', htx, hux⟩ := htu.number
  rw [htx, hux]
  simp

theorem isBlocked (h : a.Paired D i j b) (mode : TransactionMode) (n : String) :
    a.isBlocked mode n = b.isBlocked mode n := by
  obtain ⟨past, since, heq, hpast, hsince⟩ := h.transactions
  have hnone : past.any (·.blocks mode n) = false := by
    refine List.any_eq_false.2 fun tx htx => ?_
    simp [Transaction.blocks, (hpast tx htx).2]
  rw [Store.isBlocked, Store.isBlocked, heq, List.any_append, hnone, Bool.false_or]
  clear heq
  generalize b.transactions = others at hsince ⊢
  induction hsince with
  | nil => rfl
  | cons htu _ ih =>
    rw [List.any_cons, List.any_cons, ih, Transaction.blocks, Transaction.blocks, htu.active, htu.scope,
      htu.mode]

theorem acquire (h : a.Paired D i j b) (mode : TransactionMode) (names : List String) :
    a.acquire mode names = b.acquire mode names := by
  induction names with
  | nil => rfl
  | cons n rest ih => rw [Store.acquire, Store.acquire, h.tables.contains_eq, h.isBlocked, ih]

/-- A transaction begins in both, or in neither. -/
theorem begin (h : a.Paired D i j b) (names : List String) (mode : TransactionMode) :
    Match (fun r r' => (∃ k, r.1 = i + k ∧ r'.1 = j + k) ∧ r.2.Paired D i j r'.2)
      (a.beginTransaction names mode) (b.beginTransaction names mode) := by
  rw [beginTransaction, beginTransaction, h.acquire]
  refine .bind (.of_eq rfl) fun _ _ _ _ => .ok ⟨h.nextId, h.tables, ?_, ?_⟩
  · obtain ⟨k, ha, hb⟩ := h.nextId
    exact ⟨k + 1, by simp only [ha]; omega, by simp only [hb]; omega⟩
  · obtain ⟨past, since, heq, hpast, hsince⟩ := h.transactions
    refine ⟨past, since ++ [_], by rw [heq, List.append_assoc], hpast, ?_⟩
    exact List.rel_append hsince (.cons ⟨⟨rfl, rfl, rfl, rfl⟩, h.nextId⟩ .nil)

theorem setTransaction (h : a.Paired D i j b) (htu : Transaction.Twin i j tx ux)
    (htables : tables.Paired D tables') :
    Paired D i j { a.setTransaction tx with tables } { b.setTransaction ux with tables := tables' } where
  tables := htables
  nextId := h.nextId
  transactions := by
    obtain ⟨past, since, heq, hpast, hsince⟩ := h.transactions
    obtain ⟨k, htx, hux⟩ := htu.number
    refine ⟨past, since.map fun t => if t.id == tx.id then tx else t, ?_, hpast, ?_⟩
    · simp only [Store.setTransaction, heq, List.map_append, List.append_cancel_right_eq]
      refine (List.map_congr_left fun t ht => ?_).trans (List.map_id past)
      have hlt := (hpast t ht).1
      rw [if_neg (by simp; omega)]
      rfl
    · rw [Store.setTransaction, List.forall₂_map_left_iff, List.forall₂_map_right_iff]
      refine hsince.imp fun t u htu' => ?_
      obtain ⟨k', ht, hu⟩ := htu'.number
      by_cases hk : k' = k
      · rw [if_pos (by simp [ht, htx, hk]), if_pos (by simp [hu, hux, hk])]
        exact htu
      · rw [if_neg (by simp [ht, htx, hk]), if_neg (by simp [hu, hux, hk])]
        exact htu'

theorem forget (h : a.Paired D i j b) (k : Nat) :
    (a.forget (i + k)).Paired D i j (b.forget (j + k)) where
  tables := h.tables
  nextId := h.nextId
  transactions := by
    obtain ⟨past, since, heq, hpast, hsince⟩ := h.transactions
    refine ⟨past.filter (·.id != i + k), since.filter (·.id != i + k), ?_, fun tx htx => ?_, ?_⟩
    · simp only [Store.forget, heq, List.filter_append]
    · exact hpast tx (List.mem_of_mem_filter htx)
    · change List.Forall₂ _ _ (b.transactions.filter _)
      clear heq
      generalize b.transactions = others at hsince ⊢
      induction hsince with
      | nil => exact .nil
      | @cons tx ux since since' htu _ ih =>
        obtain ⟨k', htx, hux⟩ := htu.number
        rw [List.filter_cons, List.filter_cons, htx, hux]
        by_cases hk : k' = k
        · simpa [hk] using ih
        · simpa [hk] using ⟨htu, ih⟩

/-- What a transaction wrote is taken back in both. -/
theorem abort {first : Tables} (h : a.Paired D i j b) (ha : a.Isolated D first) (k : Nat) :
    (a.abort (i + k)).Paired D i j (b.abort (j + k)) := by
  have hget := h.transaction? k
  rw [Store.abort, Store.abort]
  cases htx : a.transaction? (i + k) with
  | none =>
    rw [eq_none_of_rel hget htx]
    exact h
  | some tx =>
    obtain ⟨ux, hux, htu⟩ := exists_of_rel hget htx
    rw [hux]
    simp only [Transaction.abort, htu.active]
    split
    · refine h.setTransaction ⟨⟨htu.mode, htu.scope, rfl, rfl⟩, htu.number⟩ ?_
      rw [Transaction.rollback, Transaction.rollback, htu.undo]
      refine h.tables.rollback _ fun u hu t ht => ?_
      obtain ⟨t', ht', hsuits⟩ := ((ha.logged tx (transaction?_eq_some htx).1).noted u hu).2
      rw [ht] at ht'
      cases ht'
      exact hsuits
    · exact h.setTransaction htu h.tables

theorem drop {first : Tables} (h : a.Paired D i j b) (ha : a.Isolated D first) (k : Nat) :
    (a.drop (i + k)).Paired D i j (b.drop (j + k)) :=
  (h.abort ha k).forget k

end Paired

/-! ### Commits -/

/-- The first store is in memory, and the second one in a directory that keeps what is committed in
the first one. -/
structure Persists (git : Bool) (m : StoreMeta) (a b : Store) : Prop where
  memory : a.backing = none
  directory : ∃ d, b.backing = some ⟨d, git⟩ ∧ d.Retains git m a.committed

variable {git : Bool} {m : StoreMeta} {first : Tables} {a' b' : Store}

theorem backing_abort {s : Store} {id : Nat} : (s.abort id).backing = s.backing := by
  unfold Store.abort
  split <;> rfl

/-- As long as the same rows are committed, nothing is to be written. -/
theorem Persists.congr (h : a.Persists git m b) (ha : a'.backing = a.backing)
    (hb : b'.backing = b.backing) (hrows : ∀ n, a'.committedRows n = a.committedRows n) :
    a'.Persists git m b' where
  memory := ha.trans h.memory
  directory := by
    obtain ⟨d, hd, hretains⟩ := h.directory
    refine ⟨d, hb.trans hd, hretains.framed, hretains.describes, fun n t ht => ?_⟩
    obtain ⟨t₀, ht₀, heq⟩ := exists_of_map_eq (hrows n) ht
    exact heq ▸ hretains.holds n t₀ ht₀

/-- Every table under a name of a list, each name once. -/
theorem nodup_tablesOf {tables : Tables} (hname : ∀ n t, tables.get? n = some t → t.name = n)
    {names : List String} (h : names.Nodup) : ((tablesOf tables names).map Table.name).Nodup := by
  have hsublist : ((tablesOf tables names).map Table.name).Sublist names := by
    clear h
    induction names with
    | nil => exact .slnil
    | cons n rest ih =>
      rw [tablesOf, List.filterMap_cons]
      cases hn : tables.get? n with
      | none => exact ih.cons n
      | some t =>
        rw [List.map_cons, hname n t hn]
        exact ih.cons_cons n
  exact h.sublist hsublist

/-- What was written in a transaction is flushed, and the directory keeps what is committed now. -/
theorem Paired.flush (h : a.Paired D i j b) (ha : a.Isolated D first)
    (hplain : ∀ n t, a.tables.get? n = some t → Identifier.Plain n) (htx : tx ∈ a.transactions)
    (hactive : tx.active = true)
    (hstorable : ∀ n t, (a.forget tx.id).committed.get? n = some t → Row.Storable t.toList)
    {d : Directory} (hd : d.Retains git m a.committed) (message : String) :
    ∃ published d', Disk.flush git message (tablesOf b.tables tx.dirty) d = (published, .ok (), d') ∧
      d'.Retains git m (a.forget tx.id).committed := by
  have hget {n : String} {u : Table} (hu : b.tables.get? n = some u) :
      ∃ t, a.tables.get? n = some t ∧ u.name = n ∧ u.toList = t.toList := by
    obtain ⟨t, ht, hagrees⟩ := h.tables.partner hu
    exact ⟨t, ht, (h.tables.under ha.under).name hu, hagrees.toList_eq.symm⟩
  have hnodup : ((tablesOf b.tables tx.dirty).map Table.name).Nodup := by
    refine nodup_tablesOf (fun n u hu => ?_) (ordered_ofList _).nodup_keys
    obtain ⟨-, -, hname, -⟩ := hget hu
    exact hname
  have hwritten : ∀ u ∈ tablesOf b.tables tx.dirty, ∃ n ∈ tx.dirty, b.tables.get? n = some u :=
    fun u hu => List.mem_filterMap.1 hu
  have hts : ∀ u ∈ tablesOf b.tables tx.dirty, Disk.Storable u := by
    intro u hu
    obtain ⟨n, hn, hu⟩ := hwritten u hu
    obtain ⟨t, ht, hname, hrows⟩ := hget hu
    have hcommitted := (ha.committed_commit htx hactive n).1 hn
    refine ⟨hname ▸ (hplain n t ht).2, ?_⟩
    rw [hrows]
    exact hstorable n t (hcommitted.trans ht)
  obtain ⟨published, d', hflush, hw, hholds⟩ := Disk.flush_spec hd.framed hts hnodup message
  refine ⟨published, d', hflush, hw.framed, ?_, fun n t ht => ?_⟩
  · exact (hw.same _ (Disk.metaPath_notMem_paths fun u hu => (hts u hu).name)).trans hd.describes
  · by_cases hn : n ∈ tx.dirty
    · rw [(ha.committed_commit htx hactive n).1 hn] at ht
      obtain ⟨u, hu, hagrees⟩ := exists_of_rel (h.tables.get? n) ht
      obtain ⟨-, -, hname, -⟩ := hget hu
      rw [hagrees.toList_eq, ← hname]
      exact hholds u (List.mem_filterMap.2 ⟨n, hn, hu⟩)
    · obtain ⟨t₀, ht₀, heq⟩ := exists_of_map_eq ((ha.committed_commit htx hactive n).2 hn) ht
      refine heq ▸ (hd.holds n t₀ ht₀).of_writes hw fun hmem => hn ?_
      obtain ⟨u, hu, hname⟩ := List.mem_map.1 (Disk.tablePath_mem_paths.1 hmem)
      obtain ⟨n', hn', hu⟩ := hwritten u hu
      obtain ⟨-, -, hname', -⟩ := hget hu
      rw [← hname, hname']
      exact hn'

/-- A commit succeeds in both stores, or in neither. -/
theorem Paired.commit (h : a.Paired D i j b) (ha : a.Isolated D first)
    (hplain : ∀ n t, a.tables.get? n = some t → Identifier.Plain n) (hab : a.Persists git m b) (k : Nat)
    (hstorable : ∀ n t, (a.commit (i + k)).2.committed.get? n = some t → Row.Storable t.toList) :
    (a.commit (i + k)).1 = (b.commit (j + k)).1 ∧
      (a.commit (i + k)).2.Paired D i j (b.commit (j + k)).2 ∧
      (a.commit (i + k)).2.Persists git m (b.commit (j + k)).2 := by
  have hget := h.transaction? k
  rw [Store.commit] at hstorable
  rw [Store.commit, Store.commit]
  cases htx : a.transaction? (i + k) with
  | none =>
    rw [eq_none_of_rel hget htx]
    exact ⟨rfl, h, hab⟩
  | some tx =>
    rw [htx] at hstorable
    obtain ⟨ux, hux, htu⟩ := exists_of_rel hget htx
    obtain ⟨hmem, hid⟩ := transaction?_eq_some htx
    have hdirty : ux.dirty = tx.dirty := by rw [Transaction.dirty, Transaction.dirty, htu.undo]
    rw [hux]
    by_cases hactive : tx.active = true
    · have hleft : a.commitTransaction tx = (.ok (), a) := by
        simp [commitTransaction, hactive, hab.memory]
      simp only [hleft] at hstorable ⊢
      obtain ⟨d, hd, hretains⟩ := hab.directory
      rw [← hid] at hstorable
      obtain ⟨published, d', hflush, hretains'⟩ := h.flush ha hplain hmem hactive hstorable hretains
        (s!"Transaction {ux.id}: write " ++ ", ".intercalate ux.dirty)
      by_cases hempty : tx.dirty.isEmpty = true
      · have hright : b.commitTransaction ux = (.ok (), b) := by
          simp [commitTransaction, htu.active, hactive, hd, hdirty, hempty]
        simp only [hright]
        refine ⟨trivial, h.forget k, hab.congr rfl rfl fun n => ?_⟩
        rw [← hid]
        refine (ha.committed_commit hmem hactive n).2 fun hn => ?_
        rw [List.isEmpty_iff.1 hempty] at hn
        cases hn
      · have hright : b.commitTransaction ux = (.ok (), { b with backing := some ⟨d', git⟩ }) := by
          simp [commitTransaction, htu.active, hactive, hd, hdirty, hempty] at hflush ⊢
          rw [hflush]
        simp only [hright]
        refine ⟨trivial, ⟨h.tables, h.nextId, (h.forget k).transactions⟩, hab.memory, d', rfl, ?_⟩
        rw [← hid]
        exact hretains'
    · have hleft : a.commitTransaction tx = (.error .transactionInactive, a) := by
        simp [commitTransaction, hactive]
      have hright : b.commitTransaction ux = (.error .transactionInactive, b) := by
        simp [commitTransaction, htu.active, hactive]
      simp only [hleft, hright]
      refine ⟨trivial, h.forget k, hab.congr rfl rfl (ha.committedRows_forget fun tx' htx' hid' => ?_)⟩
      rw [List.inj_on_of_nodup_map ha.numbered.distinct htx' hmem (hid'.trans hid.symm)]
      simpa using hactive

end Store

end RelationalStore

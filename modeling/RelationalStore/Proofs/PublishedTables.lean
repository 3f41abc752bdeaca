import Mathlib.Data.List.Infix
import RelationalStore.Proofs.AbortedTransactions
import RelationalStore.Proofs.CommittedRows
import RelationalStore.Proofs.PairedStores
import RelationalStore.Proofs.StorableRows
import RelationalStore.Proofs.UpgradedStores

/- The files of a store that is run. Transactions begin, write, commit, abort and are dropped in any
   order, and at any time something else can be put where a table is staged, so that the next commit
   of that table fails. Whatever happens, the file of each table is that of the table that is
   committed: made of its rows again it agrees with it (`Store.Published`). Only a commit writes
   files. If it can stage all its tables their documents are put into place, and otherwise it takes
   its writes back and leaves the files alone (`Store.Published.commit`). -/
namespace RelationalStore
open SortedMap Operation

/-- The document of the rows gives them back, if they have one. -/
def Row.Faithful (rows : List Row) : Prop :=
  ∀ text ∈ Row.documentText? rows, Row.ofDocumentText? text = some rows

instance (rows : List Row) : Decidable (Row.Faithful rows) :=
  inferInstanceAs (Decidable (∀ text ∈ Row.documentText? rows, Row.ofDocumentText? text = some rows))

/-! ### Tables that were made of rows -/

namespace Table
variable {kinds : String → ScalarKind} {t : Table} {rows : List Row} {next : Table}

theorem Sound.unique_perform {κ : String → NumberClass} (h : t.Sound κ) (hunique : t.Unique) {c : Call}
    (hc : c.Fits κ t.definition) (hperform : c.perform t = .ok next) : next.Unique := by
  cases c with
  | add row =>
    obtain ⟨⟨key, next⟩, hadd, rfl⟩ := Except.map_eq_ok.1 hperform
    exact h.unique_add hunique hc hadd
  | put row =>
    obtain ⟨⟨key, next⟩, hput, rfl⟩ := Except.map_eq_ok.1 hperform
    exact h.unique_put hunique hc hput
  | delete key =>
    cases hperform
    exact hunique.remove key

theorem typed_foldlM (ht : t.Typed kinds) (hunique : t.Unique)
    (hrows : ∀ row ∈ rows, row.OfKinds kinds t.definition.columns)
    (h : rows.foldlM (fun t row => (t.add row).map (·.2)) t = .ok next) :
    next.Typed kinds ∧ next.Unique := by
  induction rows generalizing t with
  | nil =>
    cases h
    exact ⟨ht, hunique⟩
  | cons row rest ih =>
    rw [List.forall_mem_cons] at hrows
    rw [List.foldlM_cons] at h
    obtain ⟨t', hadd, h⟩ := Except.bind_eq_ok.1 h
    have hperform : (Call.add row).perform t = .ok t' := hadd
    have hnext := ht.toSound.unique_perform hunique (c := .add row) hrows.1.fits hperform
    obtain ⟨⟨hnull, -, -⟩, rfl⟩ := Call.perform_eq_ok_iff.1 hperform
    refine ih (ht.restore (TableDef.types_own hrows.1 hnull)) hnext ?_ h
    rw [definition_restore]
    exact hrows.2

/-- Its rows say what the table holds in the columns of its keys. -/
theorem Made.typed (h : t.Made) (hrows : ∀ row ∈ t.toList, row.OfKinds kinds t.definition.columns) :
    t.Typed kinds ∧ t.Unique := by
  obtain ⟨d, rows, hof⟩ := h
  have hd := definition_ofRows hof
  have hmem {row : Row} (hrow : row ∈ rows) : row ∈ t.toList :=
    (toList_foldlM hof).symm.subset (List.mem_append_left _ hrow)
  refine typed_foldlM (.ofDef d) (Call.kept_ofDef (κ := fun _ => .exact) d).unique ?_ hof
  exact fun row hrow => hd ▸ hrows row (hmem hrow)

end Table

namespace Store
variable {kinds : String → String → ScalarKind} {D : String → Table.Discipline} {first : Tables}
  {s s' : Store} {tx : Transaction} {id : Nat} {n : String} {t : Table}

/-! ### Tables that are committed -/

/-- Nobody may write to the table, or it is the table that a transaction would take back. -/
theorem Isolated.committed_cases (h : s.Isolated D first) (n : String) :
    s.committed.get? n = s.tables.get? n ∨ ∃ tx ∈ s.transactions, tx.active = true ∧
      s.committed.get? n = (tx.rollback s.tables).get? n := by
  by_cases hfree : ∀ b ∈ s.transactions, ¬ b.MayWrite n
  · exact .inl (h.locked.committed_of_free hfree)
  · push Not at hfree
    obtain ⟨b, hb, hmay⟩ := hfree
    exact .inr ⟨b, hb, hmay.1, h.locked.committed_of_mayWrite hb hmay⟩

theorem Isolated.good_committed (h : s.Isolated D first) (ht : s.committed.get? n = some t) :
    (D n).Good t := by
  rcases h.committed_cases n with heq | ⟨tx, htx, -, heq⟩ <;> rw [heq] at ht
  · exact h.under.good ht
  · exact (Transaction.under_rollback h.under (h.logged tx htx)).good ht

theorem Isolated.definition_committed (h : s.Isolated D first) (n : String) :
    (s.committed.get? n).map (·.definition) = (first.get? n).map (·.definition) := by
  rw [← h.definition n]
  rcases h.committed_cases n with heq | ⟨tx, htx, -, heq⟩ <;> rw [heq]
  exact Transaction.definition_rollback n

theorem Distinct.unique_committed (h : s.Distinct D first) (ht : s.committed.get? n = some t) :
    t.Unique := by
  rcases h.committed_cases n with heq | ⟨tx, htx, hactive, heq⟩ <;> rw [heq] at ht
  · exact h.unique n t ht
  · exact h.rollback htx hactive n t ht

/-- The tables that are committed agree as soon as their rows are the same. -/
theorem Distinct.agrees_committed (h : s.Distinct (.ofKinds ∘ kinds) first)
    (h' : s'.Distinct (.ofKinds ∘ kinds) first) (hrows : s'.committedRows n = s.committedRows n)
    (ht : s'.committed.get? n = some t) :
    ∃ t₀, s.committed.get? n = some t₀ ∧ t.Agrees (.ofKinds (kinds n)) t₀ := by
  obtain ⟨t₀, ht₀, heq⟩ := exists_of_map_eq hrows ht
  have hd := (h'.definition_committed n).trans (h.definition_committed n).symm
  rw [ht, ht₀] at hd
  have hgood : t.Typed (kinds n) := h'.good_committed ht
  have hgood₀ : t₀.Typed (kinds n) := h.good_committed ht₀
  exact ⟨t₀, ht₀, hgood.refillable.agrees_of_toList (h'.unique_committed ht) hgood₀.refillable
    (h.unique_committed ht₀) (Option.some.inj hd) heq.symm⟩

theorem Distinct.of_idle (hidle : s.transactions = []) (h : s.Isolated D first)
    (hunique : s.tables.Unique) : s.Distinct D first where
  toIsolated := h
  unique := hunique
  opened _ := ⟨∅, nofun, by simp [Remembers, hidle]⟩

theorem distinct_after (h : s.Distinct (.ofKinds ∘ kinds) first) {a : Step}
    (ha : a.OfKinds kinds first) : (s.after a).Distinct (.ofKinds ∘ kinds) first := by
  cases a with
  | begin names mode =>
    simp only [Store.after]
    cases hb : s.beginTransaction names mode with
    | ok r => exact h.begin hb
    | error e => exact h
  | write id table call =>
    refine h.writeIn id (follows_after h.toIsolated ha) fun tx {_ tx' tables'} hperform => ?_
    obtain ⟨t, t', -, -, ht, hcall, -, -, htables⟩ := Transaction.perform_ok hperform
    intro n u hu
    rw [htables] at hu
    split at hu
    · cases hu
      exact (h.under.good ht).toSound.unique_perform (h.unique table t ht) (h.ofKinds_now ha t ht).fits
        hcall
    · exact h.unique n u hu
  | commit id => exact h.commit id
  | abort id => exact h.abort id
  | drop id => exact h.drop id

/-! ### What happens to a store -/

/-- What happens to a store in a directory: a step of its transactions, or something else is put, or
nothing, where a table is staged. -/
inductive Incident where
  | step (a : Step)
  | stray (table : String) (entry : Option DirectoryEntry)

end Store

/-- Puts something, or nothing, at a path. -/
def Directory.place (d : Directory) (path : String) : Option DirectoryEntry → Directory
  | some e => d.setEntry path e
  | none => { d with entries := d.entries.erase path }

theorem Directory.alters_place {d : Directory} (h : Ordered d.entries) (path : String)
    (entry : Option DirectoryEntry) : Alters [path] d (d.place path entry) := by
  cases entry with
  | none => exact alters_erase h path
  | some e => exact alters_setEntry h path e

namespace Store
variable {kinds : String → String → ScalarKind} {first : Tables} {git : Bool} {d d' : Directory}
  {s s' : Store} {tx : Transaction} {id : Nat} {n : String} {t u : Table}

/-- The store after something happened to it. -/
def undergo (s : Store) : Incident → Store
  | .step a => s.after a
  | .stray table entry => { s with
      backing := s.backing.map fun b =>
        { b with directory := b.directory.place (Disk.stagedPath table) entry } }

def Incident.OfKinds (kinds : String → String → ScalarKind) (first : Tables) : Incident → Prop
  | .step a => a.OfKinds kinds first
  | .stray _ _ => True

instance : DecidablePred (Incident.OfKinds kinds first)
  | .step a => inferInstanceAs (Decidable (a.OfKinds kinds first))
  | .stray _ _ => inferInstanceAs (Decidable True)

/-- The table that is made of the file agrees with the table. -/
def Shows (kinds : String → ScalarKind) (d : Directory) (t : Table) : Prop :=
  ∃ u, Disk.Loaded d u ∧ t.Agrees (.ofKinds kinds) u

theorem Shows.of_alters {kinds : String → ScalarKind} {touched : List String} (h : Shows kinds d t)
    (ha : Directory.Alters touched d d') (hnot : Disk.tablePath t.name ∉ touched) :
    Shows kinds d' t := by
  obtain ⟨u, hu, hagrees⟩ := h
  refine ⟨u, hu.of_alters ha ?_, hagrees⟩
  rw [Table.name, ← hagrees.definition]
  exact hnot

theorem Shows.of_agrees {kinds : String → ScalarKind} (h : Shows kinds d t)
    (hu : u.Agrees (.ofKinds kinds) t) : Shows kinds d u := by
  obtain ⟨v, hv, hagrees⟩ := h
  exact ⟨v, hv, hu.trans hagrees⟩

/-- A table whose document is its file. -/
theorem Shows.of_live {kinds : String → ScalarKind} (ht : t.Typed kinds) (hunique : t.Unique)
    (hplain : Identifier.Plain t.name) (hlive : Disk.Live t d) (hfaithful : Row.Faithful t.toList) :
    Shows kinds d t := by
  obtain ⟨text, htext, hfile⟩ := hlive
  obtain ⟨u, hu, hagrees⟩ := ht.refillable.reload hunique
  refine ⟨u, Disk.loaded_iff.2 (.inr ?_), hagrees⟩
  rw [Table.name, ← hagrees.definition, ← Table.name]
  refine ⟨?_, text, t.toList, hfile, hfaithful text htext, hu⟩
  simp [Disk.hasTable, Directory.has, hfile, hplain.1, hplain.2]

/-- The store is in a directory, where each table that is committed has its file, and which serves
the tables that there are. -/
structure Published (kinds : String → String → ScalarKind) (git : Bool) (first : Tables)
    (s : Store) : Prop extends s.Distinct (.ofKinds ∘ kinds) first where
  plain : ∀ n t, first.get? n = some t → Identifier.Plain n
  directory : ∃ d, s.backing = some ⟨d, git⟩ ∧ d.Serves git (fun n => (first.get? n).isSome) ∧
    ∀ n t, s.committed.get? n = some t → Shows (kinds n) d t

namespace Published

/-- As long as the same rows are committed, nothing is to be written. -/
theorem congr (h : s.Published kinds git first) (h' : s'.Distinct (.ofKinds ∘ kinds) first)
    (hbacking : s'.backing = s.backing) (hrows : ∀ n, s'.committedRows n = s.committedRows n) :
    s'.Published kinds git first where
  toDistinct := h'
  plain := h.plain
  directory := by
    obtain ⟨d, hd, hserves, hshows⟩ := h.directory
    refine ⟨d, hbacking.trans hd, hserves, fun n t ht => ?_⟩
    obtain ⟨t₀, ht₀, hagrees⟩ := h.toDistinct.agrees_committed h' (hrows n) ht
    exact (hshows n t₀ ht₀).of_agrees hagrees

theorem stray (h : s.Published kinds git first) (table : String) (entry : Option DirectoryEntry) :
    (s.undergo (.stray table entry)).Published kinds git first where
  numbered := ⟨h.numbered.distinct, h.numbered.below⟩
  under := h.under
  definition := h.definition
  logged := h.logged
  apart := h.apart
  unique := h.unique
  opened := h.opened
  plain := h.plain
  directory := by
    obtain ⟨d, hd, hserves, hshows⟩ := h.directory
    have ha := Directory.alters_place hserves.ordered (Disk.stagedPath table) entry
    refine ⟨d.place (Disk.stagedPath table) entry, by simp [undergo, hd], ?_, fun n t ht => ?_⟩
    · exact Disk.serves_of_staged hserves [table] ha
    · exact (hshows n t ht).of_alters ha (by simpa using Disk.tablePath_ne_stagedPath)

/-- Every table that a transaction has written to is there under its name. -/
theorem map_name_dirty (h : s.Published kinds git first) (htx : tx ∈ s.transactions) :
    (tablesOf s.tables tx.dirty).map Table.name = tx.dirty := by
  have hall : ∀ n ∈ tx.dirty, ∃ t, s.tables.get? n = some t ∧ t.name = n := by
    intro n hn
    obtain ⟨u, hu, rfl⟩ := Transaction.mem_dirty.1 hn
    obtain ⟨-, t, ht, -⟩ := (h.logged tx htx).noted u hu
    exact ⟨t, ht, h.under.name ht⟩
  generalize tx.dirty = names at hall
  induction names with
  | nil => rfl
  | cons n rest ih =>
    obtain ⟨t, ht, hname⟩ := hall n List.mem_cons_self
    have hrest := ih fun m hm => hall m (List.mem_cons_of_mem n hm)
    rw [tablesOf, List.filterMap_cons, ht]
    simp only [List.map_cons, hname]
    exact congrArg _ hrest

/-- The tables that a transaction has written to are put into place, or one of them cannot be staged. -/
theorem flush (h : s.Published kinds git first) (htx : tx ∈ s.transactions) (message : String)
    (hserves : d.Serves git fun n => (first.get? n).isSome) :
    let dirty := tablesOf s.tables tx.dirty
    (∃ published d', Disk.flush git message dirty d = (published, .ok (), d') ∧
        d'.Serves git (fun n => (first.get? n).isSome) ∧
        Directory.Alters (dirty.flatMap Disk.paths) d d' ∧ ∀ t ∈ dirty, Disk.Live t d') ∨
      ∃ e d', Disk.flush git message dirty d = ([], .error e, d') ∧
        d'.Serves git (fun n => (first.get? n).isSome) ∧ Disk.Failed [] dirty d d' := by
  refine Disk.flush_cases hserves (fun t ht => ?_) ?_ message
  · obtain ⟨n, -, hn⟩ := List.mem_filterMap.1 ht
    obtain ⟨t₀, ht₀, -⟩ := exists_of_map_eq (h.definition n) hn
    rw [h.under.name hn]
    exact ⟨(h.plain n t₀ ht₀).2, by rw [ht₀]; rfl⟩
  · rw [h.map_name_dirty htx]
    exact (ordered_ofList _).nodup_keys

/-- A commit that was flushed. -/
theorem flushed (h : s.Published kinds git first) (htx : tx ∈ s.transactions)
    (hactive : tx.active = true)
    (hfaithful : ∀ t ∈ (s.forget tx.id).committed.values, Row.Faithful t.toList)
    (hshows : ∀ n t, s.committed.get? n = some t → Shows (kinds n) d t)
    (ha : Directory.Alters ((tablesOf s.tables tx.dirty).flatMap Disk.paths) d d')
    (hlive : ∀ t ∈ tablesOf s.tables tx.dirty, Disk.Live t d') (n : String) (t : Table)
    (ht : (s.forget tx.id).committed.get? n = some t) : Shows (kinds n) d' t := by
  have h' := h.toDistinct.forget tx.id
  have hcommitted := h.committed_commit htx hactive n
  by_cases hn : n ∈ tx.dirty
  · have hfound := ht
    rw [hcommitted.1 hn] at hfound
    obtain ⟨t₀, ht₀, -⟩ := exists_of_map_eq (h.definition n) hfound
    have hname := h.under.name hfound
    exact .of_live (h.under.good hfound) (h.unique n t hfound) (hname ▸ h.plain n t₀ ht₀)
      (hlive t (List.mem_filterMap.2 ⟨n, hn, hfound⟩)) (hfaithful t (mem_values_of_get? ht))
  · obtain ⟨t₀, ht₀, hagrees⟩ := h.toDistinct.agrees_committed h' (hcommitted.2 hn) ht
    refine ((hshows n t₀ ht₀).of_agrees hagrees).of_alters ha ?_
    rw [Disk.tablePath_mem_paths, h.map_name_dirty htx]
    obtain ⟨t₁, ht₁, heq⟩ := exists_of_map_eq (h'.definition_committed n) ht
    obtain ⟨t₂, ht₂, heq₂⟩ := exists_of_map_eq (h.definition n).symm ht₁
    have hname : t.name = n :=
      (congrArg TableDef.name (heq₂.trans heq)).symm.trans (h.under.name ht₂)
    rwa [hname]

/-- A commit that could not be flushed leaves what dropping the transaction leaves. -/
theorem committed_takenBack (htx : s.transaction? id = some tx) (hactive : tx.active = true)
    (b : Option Backing) :
    (({ s with tables := tx.rollback s.tables, backing := b } : Store).forget id).committed =
      (s.drop id).committed := by
  have htransactions := transactions_drop s id
  rw [committed, committed, htransactions, Store.drop, abort_of_active htx hactive]
  rfl

theorem commit (h : s.Published kinds git first) (id : Nat)
    (hfaithful : ∀ t ∈ (s.commit id).2.committed.values, Row.Faithful t.toList) :
    (s.commit id).2.Published kinds git first := by
  have hdistinct := h.toDistinct.commit id
  obtain ⟨d, hd, hserves, hshows⟩ := h.directory
  unfold Store.commit at hfaithful hdistinct ⊢
  cases htx : s.transaction? id with
  | none => exact h
  | some tx =>
    obtain ⟨hmem, rfl⟩ := transaction?_eq_some htx
    simp only [htx] at hfaithful hdistinct ⊢
    by_cases hactive : tx.active = true
    · by_cases hempty : tx.dirty.isEmpty = true
      · -- Nothing was written, and nothing is flushed.
        have hcommit : s.commitTransaction tx = (.ok (), s) := by
          simp [commitTransaction, hactive, hd, hempty]
        rw [hcommit] at hdistinct ⊢
        refine h.congr hdistinct rfl fun n => (h.committed_commit hmem hactive n).2 fun hn => ?_
        rw [List.isEmpty_iff.1 hempty] at hn
        cases hn
      · rcases h.flush hmem (s!"Transaction {tx.id}: write " ++ ", ".intercalate tx.dirty) hserves with
          ⟨published, d', hflush, hserves', ha, hlive⟩ | ⟨e, d', hflush, hserves', pre, t, post, -, ha, -⟩
        · have hcommit : s.commitTransaction tx =
              (.ok (), { s with backing := some ⟨d', git⟩ }) := by
            simp [commitTransaction, hactive, hd, hempty] at hflush ⊢
            rw [hflush]
          rw [hcommit] at hfaithful hdistinct ⊢
          exact ⟨hdistinct, h.plain, d', rfl, hserves',
            h.flushed hmem hactive hfaithful hshows ha hlive⟩
        · have hcommit : s.commitTransaction tx = (.error e,
              { s with tables := tx.rollback s.tables, backing := some ⟨d', git⟩ }) := by
            simp [commitTransaction, hactive, hd, hempty, Disk.writeBack, tablesOf] at hflush ⊢
            rw [hflush]
            rfl
          rw [hcommit] at hdistinct ⊢
          refine ⟨hdistinct, h.plain, d', rfl, hserves', fun n t ht => ?_⟩
          have hcommitted := committed_takenBack htx hactive (some ⟨d', git⟩)
          rw [hcommitted] at ht
          obtain ⟨t₀, ht₀, hagrees⟩ := h.toDistinct.agrees_committed (h.toDistinct.drop tx.id)
            (h.committedRows_drop tx.id n) ht
          refine ((hshows n t₀ ht₀).of_agrees hagrees).of_alters ha ?_
          exact Disk.tablePath_notMem_map_stagedPath _ _
    · have hcommit : s.commitTransaction tx = (.error .transactionInactive, s) := by
        simp [commitTransaction, hactive]
      rw [hcommit] at hdistinct ⊢
      refine h.congr hdistinct rfl fun n => h.committedRows_forget (fun b hb hid => ?_) n
      rw [List.inj_on_of_nodup_map h.numbered.distinct hb hmem hid]
      simpa using hactive

/-- Whatever happens. -/
theorem undergo (h : s.Published kinds git first) {a : Incident} (ha : a.OfKinds kinds first)
    (hfaithful : ∀ t ∈ (s.undergo a).committed.values, Row.Faithful t.toList) :
    (s.undergo a).Published kinds git first := by
  cases a with
  | stray table entry => exact h.stray table entry
  | step a =>
    have hdistinct := distinct_after h.toDistinct ha
    cases a with
    | begin names mode =>
      simp only [Store.undergo, Store.after] at hdistinct ⊢
      cases hb : s.beginTransaction names mode with
      | error e => exact h
      | ok r =>
        rw [hb] at hdistinct
        obtain ⟨-, -, hs'⟩ := beginTransaction_ok hb
        have hbacking : r.2.backing = s.backing := by rw [hs']
        exact h.congr hdistinct hbacking (h.committedRows_begin hb)
    | write id table call =>
      simp only [Store.undergo, Store.after, writeIn] at hdistinct ⊢
      cases htx : s.transaction? id with
      | none => exact h
      | some tx =>
        obtain ⟨hmem, -⟩ := transaction?_eq_some htx
        simp only [htx] at hdistinct ⊢
        split
        · next hperform =>
          rw [hperform] at hdistinct
          have hleads := Transaction.leads_perform h.under (h.logged tx hmem) (h.ofKinds_now ha) hperform
          exact h.congr hdistinct rfl (h.committedRows_leads hmem hleads)
        · exact h
    | commit id => exact h.commit id hfaithful
    | abort id => exact h.congr hdistinct (backing_abort) (h.committedRows_abort id)
    | drop id => exact h.congr hdistinct (backing_abort) (h.committedRows_drop id)

end Published

/-! ### Commits that fail -/

/-- What a commit leaves that could not be flushed. The tables of the transaction are as when it was
opened, and the others as they are. Nothing is left of what it had staged, and other files are as they
were. -/
structure TakenBack (kinds : String → String → ScalarKind) (opened : Tables) (tx : Transaction)
    (s s' : Store) : Prop where
  tables : ∀ n ∈ tx.scope,
    Option.Rel (Table.Agrees (.ofKinds (kinds n))) (s'.tables.get? n) (opened.get? n)
  others : ∀ n ∉ tx.scope, s'.tables.get? n = s.tables.get? n
  files : ∃ b b', s.backing = some b ∧ s'.backing = some b' ∧ ∃ pre n post,
    tx.dirty = pre ++ n :: post ∧
    (∀ path ∉ (pre ++ [n]).map Disk.stagedPath,
      b'.directory.entries.get? path = b.directory.entries.get? path) ∧
    ∀ m ∈ pre ++ [n], b'.directory.isFile (Disk.stagedPath m) = false

theorem Published.takenBack (h : s.Published kinds git first) {opened : Tables}
    (hopened : s.Remembers (.ofKinds ∘ kinds) id opened) (htx : s.transaction? id = some tx)
    (hactive : tx.active = true) {e : Error} (hcommit : (s.commit id).1 = .error e) :
    TakenBack kinds opened tx s (s.commit id).2 := by
  obtain ⟨d, hd, hserves, -⟩ := h.directory
  obtain ⟨hmem, rfl⟩ := transaction?_eq_some htx
  unfold Store.commit at hcommit ⊢
  simp only [htx] at hcommit ⊢
  by_cases hempty : tx.dirty.isEmpty = true
  · simp [commitTransaction, hactive, hd, hempty] at hcommit
  · rcases h.flush hmem (s!"Transaction {tx.id}: write " ++ ", ".intercalate tx.dirty) hserves with
      ⟨published, d', hflush, -⟩ | ⟨e', d', hflush, -, pre, t, post, hsplit, ha, hnone⟩
    · simp [commitTransaction, hactive, hd, hempty] at hflush hcommit
      rw [hflush] at hcommit
      cases hcommit
    · have heq : s.commitTransaction tx = (.error e',
          { s with tables := tx.rollback s.tables, backing := some ⟨d', git⟩ }) := by
        simp [commitTransaction, hactive, hd, hempty, Disk.writeBack, tablesOf] at hflush ⊢
        rw [hflush]
        rfl
      rw [heq]
      refine ⟨hopened tx hmem rfl hactive, fun n hn => ?_, _, _, hd, rfl,
        pre.map Table.name, t.name, post.map Table.name, ?_, ?_, ?_⟩
      · exact (h.logged tx hmem).isNoted.rollback_of_free hactive (fun hmay => hn hmay.2.2) s.tables
      · rw [← h.map_name_dirty hmem, hsplit, List.map_append, List.map_cons]
      · exact ha.same
      · exact hnone

/-! ### Runs -/

/-- A store that was opened in a directory, whose rows are of the kinds. -/
theorem Rests.published (h : s.Rests git d) (hplain : ∀ n t, s.tables.get? n = some t → Identifier.Plain n)
    (hrows : ∀ n t, s.tables.get? n = some t → ∀ row ∈ t.toList,
      row.OfKinds (kinds n) t.definition.columns)
    (hfaithful : ∀ t ∈ s.committed.values, Row.Faithful t.toList) :
    s.Published kinds git s.tables := by
  have htyped {n : String} {t : Table} (ht : s.tables.get? n = some t) :=
    (h.made ht).typed (hrows n t ht)
  have hsettled : s.Settled kinds := ⟨h.idle, fun ht => h.name ht, fun ht => (htyped ht).1⟩
  have hcommitted : s.committed = s.tables := by rw [committed, h.idle, List.foldl_nil]
  refine ⟨.of_idle h.idle hsettled.isolated fun n t ht => (htyped ht).2, hplain, d, h.backing,
    ⟨h.prepared.ordered, h.prepared.folder, fun n hn => ?_, h.prepared.history⟩, fun n t ht => ?_⟩
  · obtain ⟨t, ht⟩ := Option.isSome_iff_exists.1 hn
    have hname := h.name ht
    rw [← hname]
    rcases h.file ht with hloaded | hlive
    · exact hloaded.ne_folder (hname ▸ hplain n t ht)
    · exact hlive.ne_folder
  · rw [hcommitted] at ht
    rcases h.file ht with hloaded | hlive
    · exact ⟨t, hloaded, .refl (htyped ht).1⟩
    · refine .of_live (htyped ht).1 (htyped ht).2 (h.name ht ▸ hplain n t ht) hlive ?_
      exact hfaithful t (hcommitted ▸ mem_values_of_get? ht)

theorem Published.foldl (h : s.Published kinds git first) {incidents : List Incident}
    (hkinds : ∀ a ∈ incidents, a.OfKinds kinds first)
    (hfaithful : ∀ before, before <+: incidents →
      ∀ t ∈ (before.foldl Store.undergo s).committed.values, Row.Faithful t.toList) :
    (incidents.foldl Store.undergo s).Published kinds git first := by
  induction incidents generalizing s with
  | nil => exact h
  | cons a rest ih =>
    rw [List.forall_mem_cons] at hkinds
    refine ih (h.undergo hkinds.1 (hfaithful [a] ⟨rest, rfl⟩)) hkinds.2 fun before hbefore => ?_
    exact hfaithful (a :: before) ((List.cons_prefix_cons).2 ⟨rfl, hbefore⟩)

/-- As long as it is active, a transaction can be taken back to where it was opened. -/
theorem Published.remembers (h : s.Published kinds git first) {incidents : List Incident}
    (hkinds : ∀ a ∈ incidents, a.OfKinds kinds first) {opened : Tables} (hid : id < s.nextId)
    (hopened : s.Remembers (.ofKinds ∘ kinds) id opened) :
    (incidents.foldl Store.undergo s).Remembers (.ofKinds ∘ kinds) id opened := by
  have hisolated := h.toIsolated
  clear h
  induction incidents generalizing s with
  | nil => exact hopened
  | cons a rest ih =>
    rw [List.forall_mem_cons] at hkinds
    have hfollows : s.Follows (.ofKinds ∘ kinds) first (s.undergo a) := by
      cases a with
      | step a => exact follows_after hisolated hkinds.1
      | stray table entry =>
        exact hisolated.follows_fewer rfl rfl (List.Sublist.refl _)
    exact ih hkinds.2 (Nat.lt_of_lt_of_le hid hfollows.nextId) (hfollows.remembers hid hopened)
      hfollows.isolated

/-- Whatever is done with a store in a directory, and wherever a table cannot be staged: the file of
each table is that of the table that is committed, made of its rows again they agree. A commit that
fails at one of its tables takes back what the transaction did since it was opened, and leaves none of
the files that it staged. -/
theorem committed_published {config : Config} {path : String} {steps : List UpgradeStep}
    {d₀ : Directory} (hd₀ : Ordered d₀.entries) (hstorage : config.storage = .directory path git)
    {s₀ : Store} (hopen : (openWith config steps d₀).result = .ok s₀)
    (hplain : ∀ n t, s₀.tables.get? n = some t → Identifier.Plain n)
    (hrows : ∀ n t, s₀.tables.get? n = some t → ∀ row ∈ t.toList,
      row.OfKinds (kinds n) t.definition.columns)
    {incidents : List Incident} (hkinds : ∀ a ∈ incidents, a.OfKinds kinds s₀.tables)
    (hfaithful : ∀ before, before <+: incidents →
      ∀ t ∈ (before.foldl undergo s₀).committed.values, Row.Faithful t.toList) :
    let last := incidents.foldl undergo s₀
    (∃ b, last.backing = some b ∧ ∀ n t, last.committed.get? n = some t →
      ∃ u, (Disk.loadTable t.definition).run b.directory = .ok u b.directory ∧
        t.Agrees (.ofKinds (kinds n)) u) ∧
    ∀ before names mode during id s₁, incidents = before ++ .step (.begin names mode) :: during →
      (before.foldl undergo s₀).beginTransaction names mode = .ok (id, s₁) →
      ∀ tx e, last.transaction? id = some tx → tx.active = true → (last.commit id).1 = .error e →
        TakenBack kinds (before.foldl undergo s₀).tables tx last (last.commit id).2 := by
  obtain ⟨d, hrests⟩ : ∃ d, s₀.Rests git d := by
    unfold openWith at hopen
    split at hopen
    · cases hopen
    · simp only [hstorage] at hopen
      exact openDirectory_rests hd₀ hplain hopen
  have hstart := hrests.published hplain hrows (hfaithful [] List.nil_prefix)
  have hlast := hstart.foldl hkinds hfaithful
  refine ⟨?_, fun before names mode during id s₁ hsplit hb tx e htx hactive hcommit => ?_⟩
  · obtain ⟨d, hd, -, hshows⟩ := hlast.directory
    refine ⟨⟨d, git⟩, hd, fun n t ht => ?_⟩
    obtain ⟨u, hu, hagrees⟩ := hshows n t ht
    exact ⟨u, hagrees.definition ▸ hu, hagrees⟩
  · subst hsplit
    have hkindsBefore : ∀ a ∈ before, a.OfKinds kinds s₀.tables :=
      fun a ha => hkinds a (List.mem_append_left _ ha)
    have hkindsDuring : ∀ a ∈ during, a.OfKinds kinds s₀.tables :=
      fun a ha => hkinds a (List.mem_append_right _ (List.mem_cons_of_mem _ ha))
    have hbefore := hstart.foldl hkindsBefore fun more hmore =>
      hfaithful more (hmore.trans (List.prefix_append _ _))
    have hbegun : (before.foldl undergo s₀).undergo (.step (.begin names mode)) = s₁ := by
      simp [undergo, after, hb, Except.toOption]
    have hnext := hbefore.undergo (a := .step (.begin names mode)) trivial <| by
      have := hfaithful (before ++ [.step (.begin names mode)]) ⟨during, by simp⟩
      simpa using this
    rw [hbegun] at hnext
    refine hlast.takenBack ?_ htx hactive hcommit
    have hremembers := hbefore.remembers_begin hb
    have hid : id < s₁.nextId := by
      obtain ⟨-, rfl, rfl⟩ := beginTransaction_ok hb
      exact Nat.lt_succ_self _
    rw [List.foldl_append, List.foldl_cons, hbegun]
    exact hnext.remembers hkindsDuring hid hremembers

/-! ### Prices in a directory -/

/-- The store of bids and prices that is opened in an empty directory. -/
def ledger : Opening :=
  openWith (.directory "prices" "data") (["bid", "price"].map fun n => .createTable (byAmount n)) {}

/-- Adds the price of "4.4", and puts a folder where prices are staged. -/
def obstructed : List Incident := pricing.map .step ++ [.stray "price" (some .folder)]

/-- Adds a bid and writes the price again. -/
def bidding : List Incident :=
  [.step (.write 2 "bid" (.add (price 43 1))),
    .step (.write 2 "price" (.put (price 4400000000000000 15)))]

/-- Adds the price of "4.4", writes it with fifteen places, and aborts. -/
def rewritten : List Step :=
  pricing ++
    [.begin ["price"] .readWrite, .write 2 "price" (.put (price 4400000000000000 15)), .abort 2]

/-- Adds two amounts, deletes both under the number that is equal to them, and aborts. -/
def mistaken : List Step :=
  counting ++ .begin ["price"] .readWrite :: merging.map (fun c => .write 2 c.1 c.2) ++ [.abort 2]

/-- The commit of the second transaction stages the bids and fails at the prices. -/
theorem committed_published_obstructed :
    ∃ s₀ tx e, ledger.result = .ok s₀ ∧
      let begun := .step (.begin ["bid", "price"] .readWrite)
      let last := (obstructed ++ begun :: bidding).foldl undergo s₀
      last.transaction? 2 = some tx ∧ tx.dirty = ["bid", "price"] ∧
        pricesAt last.tables (.float ⟨0x401199999999999A⟩) = 0 ∧
        (last.commit 2).1 = .error e ∧
        TakenBack (fun _ _ => .decimal) (obstructed.foldl undergo s₀).tables tx last
          (last.commit 2).2 ∧
        ∃ b, last.backing = some b ∧ ∀ n t, last.committed.get? n = some t →
          ∃ u, (Disk.loadTable t.definition).run b.directory = .ok u b.directory ∧
            t.Agrees (.ofKinds fun _ => .decimal) u := by
  have hruns : ledger.result.toOption.any fun s₀ =>
      let incidents := obstructed ++ .step (.begin ["bid", "price"] .readWrite) :: bidding
      let last := incidents.foldl undergo s₀
      decide ((∀ e ∈ s₀.tables.entries, Identifier.Plain e.1 ∧
          ∀ row ∈ e.2.toList, Row.OfKinds (fun _ => .decimal) e.2.definition.columns row) ∧
        (∀ a ∈ incidents, a.OfKinds (fun _ _ => .decimal) s₀.tables) ∧
        (∀ before ∈ incidents.inits, ∀ t ∈ (before.foldl undergo s₀).committed.values,
          Row.Faithful t.toList) ∧
        ((obstructed.foldl undergo s₀).beginTransaction ["bid", "price"] .readWrite).toOption.map
          (·.1) = some 2 ∧
        (last.transaction? 2).map (fun tx => (tx.dirty, tx.active)) =
          some (["bid", "price"], true) ∧
        pricesAt last.tables (.float ⟨0x401199999999999A⟩) = 0 ∧
        (last.commit 2).1.toOption = none) := by
    decide +kernel
  obtain ⟨s₀, hopen, hall⟩ := (Option.any_eq_true _ _).1 hruns
  obtain ⟨htables, hkinds, hfaithful, hbegin, htx, hprice, hfail⟩ := of_decide_eq_true hall
  obtain ⟨tx, htx, heq⟩ := Option.map_eq_some_iff.1 htx
  obtain ⟨hdirty, hactive⟩ := Prod.mk.inj heq
  obtain ⟨⟨_, s₁⟩, hb, rfl⟩ := Option.map_eq_some_iff.1 hbegin
  obtain ⟨e, he⟩ := Except.toOption_eq_none.1 hfail
  have hopened := Except.toOption_eq_some.1 hopen
  have htable {n : String} {t : Table} (ht : s₀.tables.get? n = some t) :
      Identifier.Plain n ∧ ∀ row ∈ t.toList, row.OfKinds (fun _ => .decimal) t.definition.columns :=
    htables (n, t) (mem_entries_of_get? ht)
  have hstorage : (Config.directory "prices" "data").storage = .directory "data" true := rfl
  obtain ⟨hfiles, hback⟩ := committed_published .nil hstorage hopened (fun n t ht => (htable ht).1)
    (fun n t ht => (htable ht).2) hkinds
    fun before hbefore => hfaithful before ((List.mem_inits _ _).2 hbefore)
  exact ⟨s₀, tx, e, hopened, htx, hdirty, hprice, he,
    hback obstructed _ _ _ _ s₁ rfl (Except.toOption_eq_some.1 hb) tx e htx hactive he, hfiles⟩

/-- A table that is committed, and what is made of its file. -/
def reloaded? (s : Store) (n : String) : Option (Table × Table) := do
  let b ← s.backing
  let t ← s.committed.get? n
  let u ← (Disk.loadTable t.definition).run' b.directory
  return (t, u)

/-- The form of a key can be seen: the floating-point number that is nearest to "4.4" does not find
the price in the table that is committed, and finds it in what is made of the file. And rows that are
deleted under a key of another kind need not all be there again, where the file has them all. -/
theorem committed_published_inexact :
    ∃ s₀, ledger.result = .ok s₀ ∧
      (let last := (rewritten.map Incident.step).foldl undergo s₀
       (∀ a ∈ rewritten, a.OfKinds (fun _ _ => .decimal) s₀.tables) ∧
         (reloaded? last "price").map (fun p =>
           ((p.1.get? ⟨[.float ⟨0x401199999999999A⟩]⟩).isSome,
             (p.2.get? ⟨[.float ⟨0x401199999999999A⟩]⟩).isSome)) = some (false, true)) ∧
      let last := (mistaken.map Incident.step).foldl undergo s₀
      (∀ a ∈ counting, a.OfKinds (fun _ _ => .int) s₀.tables) ∧
        (reloaded? last "price").map (fun p => (p.1.size, p.2.size)) = some (1, 2) := by
  have hruns : ledger.result.toOption.any fun s₀ => decide (
      ((∀ a ∈ rewritten, a.OfKinds (fun _ _ => .decimal) s₀.tables) ∧
        (reloaded? ((rewritten.map Incident.step).foldl undergo s₀) "price").map (fun p =>
          ((p.1.get? ⟨[.float ⟨0x401199999999999A⟩]⟩).isSome,
            (p.2.get? ⟨[.float ⟨0x401199999999999A⟩]⟩).isSome)) = some (false, true)) ∧
      (∀ a ∈ counting, a.OfKinds (fun _ _ => .int) s₀.tables) ∧
        (reloaded? ((mistaken.map Incident.step).foldl undergo s₀) "price").map
          (fun p => (p.1.size, p.2.size)) = some (1, 2)) := by
    decide +kernel
  obtain ⟨s₀, hopen, hall⟩ := (Option.any_eq_true _ _).1 hruns
  exact ⟨s₀, Except.toOption_eq_some.1 hopen, of_decide_eq_true hall⟩

end Store

end RelationalStore

import RelationalStore.Proofs.PairedRequests
import RelationalStore.Proofs.PairedStores

/- The same answers of two clients. The stores of two clients are paired, and the directory of the
   second one keeps what is committed in the first one (`Client.Paired`). An operation that is run
   in a transaction of both goes on from twins, so it gives the same result and leaves such clients
   (`Client.Paired.run`); what comes before and after it, the beginning of a transaction and its
   end, are steps of paired stores. So every request gives the same answer in both, as long as the
   rows that it commits can be stored (`Client.Paired.ask`). -/
namespace RelationalStore
open SortedMap Read

/-! ### The order of tables -/

/-- Writes leave the tables in the order of their names. -/
theorem Schema.Governs.ordered {s : Schema} {κ : String → String → NumberClass}
    {J : Tables → Transaction → Prop} (hg : s.Governs κ J) :
    s.Governs κ fun tables tx => J tables tx ∧ Ordered tables where
  apt := hg.apt
  admits := hg.admits
  holds h := hg.holds h.1
  upholds := by
    refine ⟨fun h => hg.upholds.stored h.1, ?_, ?_, ?_⟩
    · intro tables tx h e he row hrow key tx' tables' hadd
      obtain ⟨t, hwrote, -⟩ := Transaction.add_ok hadd
      exact ⟨hg.upholds.add h.1 he hrow hadd, hwrote.tables ▸ h.2.insert⟩
    · intro tables tx h e he row hrow key tx' tables' hput
      obtain ⟨t, hwrote, -⟩ := Transaction.put_ok hput
      exact ⟨hg.upholds.put h.1 he hrow hput, hwrote.tables ▸ h.2.insert⟩
    · intro tables tx h e he row hrow old tx' tables' hdelete
      refine ⟨hg.upholds.delete h.1 he hrow hdelete, ?_⟩
      obtain ⟨t, -, -, ⟨-, -, rfl⟩ | ⟨-, hwrote⟩⟩ := Transaction.delete_ok hdelete
      · exact h.2
      · exact hwrote.tables ▸ h.2.insert

theorem Transaction.ordered_rollback (tx : Transaction) {tables : Tables} (h : Ordered tables) :
    Ordered (tx.rollback tables) := by
  refine List.foldlRecOn tx.undo undoOne h fun tables h u _ => ?_
  unfold undoOne
  split
  · exact h.insert
  · exact h

namespace Store
variable {a : Store} {id : Nat}

theorem ordered_abort (h : Ordered a.tables) : Ordered (a.abort id).tables := by
  unfold Store.abort
  split
  · next tx _ =>
    simp only [Transaction.abort]
    split
    · exact tx.ordered_rollback h
    · exact h
  · exact h

/-- In memory a commit writes nothing and takes nothing back. -/
theorem tables_commit_of_memory (h : a.backing = none) : (a.commit id).2.tables = a.tables := by
  unfold Store.commit
  split
  · next tx _ =>
    simp only [commitTransaction, h]
    split <;> rfl
  · rfl

end Store

/-- Tables that a store of the schema may begin with. -/
structure Schema.Founds (s : Schema) (κ : String → String → NumberClass) (first : Tables) : Prop
    extends s.Apt where
  holds : s.Holds κ first
  ordered : Ordered first
  plain : ∀ n t, first.get? n = some t → Identifier.Plain n

/-- What a transaction may write in a store that began with them. -/
theorem Schema.Founds.governs_leads {s : Schema} {κ : String → String → NumberClass}
    {first tables : Tables} (hs : s.Founds κ first) (tx : Transaction)
    (hd : ∀ n, (tables.get? n).map (·.definition) = (first.get? n).map (·.definition)) :
    s.Governs κ fun tables' tx' => tx.Leads (s.keeping κ) tables tx' tables' :=
  hs.governs hs.holds hd

namespace Client

/-- Clients of a schema, the first one in memory and the second one in a directory that keeps what is
committed in the first one. Their stores began with the definitions of the tables `first`. -/
structure Paired (s : Schema) (κ : String → String → NumberClass) (first : Tables) (git : Bool)
    (m : StoreMeta) (i j : Nat) (c d : Client) : Prop where
  schema : c.schema = s
  schema' : d.schema = s
  supply : d.supply = c.supply
  stores : c.store.Paired (s.keeping κ) i j d.store
  isolated : c.store.Isolated (s.keeping κ) first
  isolated' : d.store.Isolated (s.keeping κ) first
  ordered : Ordered c.store.tables
  persists : Store.Persists git m c.store d.store

namespace Paired
variable {s : Schema} {κ : String → String → NumberClass} {first : Tables} {git : Bool} {m : StoreMeta}
  {i j : Nat} {c d : Client} {a b : Store} {α : Type}

/-- Each of the two goes on to another store. -/
theorem withStore (h : Paired s κ first git m i j c d) (hstores : a.Paired (s.keeping κ) i j b)
    (ha : c.store.Follows (s.keeping κ) first a) (hb : d.store.Follows (s.keeping κ) first b)
    (hordered : Ordered a.tables) (hpersists : Store.Persists git m a b) :
    Paired s κ first git m i j (c.withStore a) (d.withStore b) :=
  ⟨h.schema, h.schema', h.supply, hstores, ha.isolated, hb.isolated, hordered, hpersists⟩

theorem begin (h : Paired s κ first git m i j c d) (names : List String) (mode : TransactionMode) :
    Match (fun r r' => (∃ k, r.1 = i + k ∧ r'.1 = j + k) ∧
        Paired s κ first git m i j (c.withStore r.2) (d.withStore r'.2))
      (c.store.beginTransaction names mode) (d.store.beginTransaction names mode) := by
  have hstores := h.stores.begin names mode
  cases hb : c.store.beginTransaction names mode <;> cases hb' : d.store.beginTransaction names mode <;>
    rw [hb, hb'] at hstores
  · exact hstores
  · exact hstores.elim
  · exact hstores.elim
  · next r r' =>
    obtain ⟨hid, hstores⟩ := hstores
    refine ⟨hid, h.withStore hstores (h.isolated.follows_begin hb) (h.isolated'.follows_begin hb') ?_ ?_⟩
    · obtain ⟨-, -, hstore⟩ := Store.beginTransaction_ok hb
      rw [hstore]
      exact h.ordered
    · refine h.persists.congr ?_ ?_ (h.isolated.committedRows_begin hb)
      · obtain ⟨-, -, hstore⟩ := Store.beginTransaction_ok hb
        rw [hstore]
      · obtain ⟨-, -, hstore⟩ := Store.beginTransaction_ok hb'
        rw [hstore]

theorem abort (h : Paired s κ first git m i j c d) (k : Nat) : Paired s κ first git m i j
    (c.withStore (c.store.abort (i + k))) (d.withStore (d.store.abort (j + k))) :=
  h.withStore (h.stores.abort h.isolated k) (h.isolated.follows_abort _) (h.isolated'.follows_abort _)
    (Store.ordered_abort h.ordered)
    (h.persists.congr Store.backing_abort Store.backing_abort (h.isolated.committedRows_abort _))

theorem drop (h : Paired s κ first git m i j c d) (k : Nat) : Paired s κ first git m i j
    (c.withStore (c.store.drop (i + k))) (d.withStore (d.store.drop (j + k))) :=
  h.withStore (h.stores.drop h.isolated k) (h.isolated.follows_drop _) (h.isolated'.follows_drop _)
    (Store.ordered_abort h.ordered)
    (h.persists.congr Store.backing_abort Store.backing_abort (h.isolated.committedRows_drop _))

theorem plain (hs : s.Founds κ first) (h : Paired s κ first git m i j c d) (n : String) (t : Table)
    (ht : c.store.tables.get? n = some t) : Identifier.Plain n := by
  obtain ⟨t₀, ht₀, -⟩ := exists_of_map_eq (h.isolated.definition n) ht
  exact hs.plain n t₀ ht₀

theorem commit (hs : s.Founds κ first) (h : Paired s κ first git m i j c d) (k : Nat)
    (hstorable : ∀ n t, (c.store.commit (i + k)).2.committed.get? n = some t → Row.Storable t.toList) :
    (c.store.commit (i + k)).1 = (d.store.commit (j + k)).1 ∧ Paired s κ first git m i j
      (c.withStore (c.store.commit (i + k)).2) (d.withStore (d.store.commit (j + k)).2) := by
  obtain ⟨heq, hstores, hpersists⟩ := h.stores.commit h.isolated (h.plain hs) h.persists k hstorable
  refine ⟨heq, h.withStore hstores (h.isolated.follows_commit _) (h.isolated'.follows_commit _) ?_
    hpersists⟩
  rw [Store.tables_commit_of_memory h.persists.memory]
  exact h.ordered

/-! ### Requests -/

section
variable (hs : s.Founds κ first) {e : Entity} (he : s.entity? e.name = some e) {r : Request α}
  (hr : r.Offered)
include hs he hr

/-- All that a request does to its tables is to write in its transaction. -/
theorem onlyWrites : OnlyWrites (s.keeping κ) first (r.operation s e) := fun tx tables hd => by
  have hg := hs.governs_leads tx hd
  exact hr.upholds hs.resolved hg.admits hg.upholds he

/-- An operation that is run in both. -/
theorem run (h : Paired s κ first git m i j c d) {k : Nat} {tx ux : Transaction}
    (htx : c.store.transaction? (i + k) = some tx) (hux : d.store.transaction? (j + k) = some ux) :
    (d.run ux (r.operation s e)).1 = (c.run tx (r.operation s e)).1 ∧ Paired s κ first git m i j
      (c.run tx (r.operation s e)).2 (d.run ux (r.operation s e)).2 := by
  have hget := h.stores.transaction? k
  rw [htx, hux] at hget
  cases hget with | some htu =>
  obtain ⟨htxmem, -⟩ := Store.transaction?_eq_some htx
  obtain ⟨huxmem, -⟩ := Store.transaction?_eq_some hux
  have hg := (hs.governs_leads tx h.isolated.definition).ordered
  have hmirrors := hr.mirrors hg he ⟨c.store.tables, tx, c.supply, [], []⟩
    ⟨d.store.tables, ux, d.supply, [], []⟩
    ⟨⟨.refl h.isolated.under (h.isolated.logged tx htxmem), h.ordered⟩, h.stores.tables, htu.toMatches,
      h.supply, rfl, rfl⟩
  have hright := onlyWrites hs he hr ux d.store.tables h.isolated'.definition
    ⟨d.store.tables, ux, d.supply, [], []⟩
    (.refl h.isolated'.under (h.isolated'.logged ux huxmem))
  have hafter {w w' : Work} (hw : Work.Twin s κ
      (fun tables' tx' => tx.Leads (s.keeping κ) c.store.tables tx' tables' ∧ Ordered tables') w w')
      (hw' : ux.Leads (s.keeping κ) d.store.tables w'.transaction w'.tables) :
      Paired s κ first git m i j
        { c with store := { c.store.setTransaction w.transaction with tables := w.tables },
                 supply := w.supply }
        { d with store := { d.store.setTransaction w'.transaction with tables := w'.tables },
                 supply := w'.supply } := by
    have hleads := hw.invariant.1
    obtain ⟨k', hid, hid'⟩ := htu.number
    have htwin : Transaction.Twin i j w.transaction w'.transaction :=
      ⟨hw.transaction, k', hleads.id.trans hid, hw'.id.trans hid'⟩
    exact ⟨h.schema, h.schema', hw.supply, h.stores.setTransaction htwin hw.tables,
      (h.isolated.follows_leads htxmem hleads).isolated, (h.isolated'.follows_leads huxmem hw').isolated,
      hw.invariant.2, h.persists.congr rfl rfl (h.isolated.committedRows_leads htxmem hleads)⟩
  rw [Client.run, Client.run]
  cases hrun : (r.operation s e).run ⟨c.store.tables, tx, c.supply, [], []⟩ <;>
    cases hrun' : (r.operation s e).run ⟨d.store.tables, ux, d.supply, [], []⟩ <;>
    rw [hrun, hrun'] at hmirrors <;> rw [hrun'] at hright
  · obtain ⟨rfl, hw⟩ := hmirrors
    exact ⟨congrArg (fun changes => Except.ok (_, changes)) hw.changes, hafter hw hright.1⟩
  · exact hmirrors.elim
  · exact hmirrors.elim
  · obtain ⟨rfl, hw⟩ := hmirrors
    exact ⟨rfl, hafter hw hright.1⟩

/-- A request in a transaction that is given. -/
theorem runIn (h : Paired s κ first git m i j c d) (k : Nat) :
    (d.runIn (j + k) (r.operation s e)).result = (c.runIn (i + k) (r.operation s e)).result ∧
      Paired s κ first git m i j (c.runIn (i + k) (r.operation s e)).client
        (d.runIn (j + k) (r.operation s e)).client := by
  have hget := h.stores.transaction? k
  rw [Client.runIn, Client.runIn]
  cases htx : c.store.transaction? (i + k) with
  | none =>
    rw [eq_none_of_rel hget htx]
    exact ⟨rfl, h⟩
  | some tx =>
    obtain ⟨ux, hux, -⟩ := exists_of_rel hget htx
    obtain ⟨hresult, hpaired⟩ := h.run hs he hr htx hux
    simp only [hux]
    generalize c.run tx (r.operation s e) = ran at hresult hpaired ⊢
    generalize d.run ux (r.operation s e) = ran' at hresult hpaired ⊢
    obtain ⟨outcome, c'⟩ := ran
    obtain ⟨outcome', d'⟩ := ran'
    obtain rfl : outcome' = outcome := hresult
    cases outcome' with
    | ok r => exact ⟨rfl, hpaired⟩
    | error e => exact ⟨rfl, hpaired.abort k⟩

/-- A request in a transaction of its own. -/
theorem runAlone (h : Paired s κ first git m i j c d) (names : List String) (mode : TransactionMode)
    (hstorable : ∀ n t,
      (c.runAlone names mode (r.operation s e)).client.store.committed.get? n = some t →
        Row.Storable t.toList) :
    (d.runAlone names mode (r.operation s e)).result =
        (c.runAlone names mode (r.operation s e)).result ∧
      Paired s κ first git m i j (c.runAlone names mode (r.operation s e)).client
        (d.runAlone names mode (r.operation s e)).client := by
  have hbegin := h.begin names mode
  rw [Client.runAlone] at hstorable
  rw [Client.runAlone, Client.runAlone]
  cases hb : c.store.beginTransaction names mode <;> cases hb' : d.store.beginTransaction names mode <;>
    rw [hb, hb'] at hbegin <;> rw [hb] at hstorable
  · obtain rfl := hbegin
    exact ⟨rfl, h⟩
  · exact hbegin.elim
  · exact hbegin.elim
  · next begun begun' =>
    obtain ⟨id, store⟩ := begun
    obtain ⟨id', store'⟩ := begun'
    obtain ⟨⟨k, hid, hid'⟩, hopened⟩ := hbegin
    obtain rfl : id = i + k := hid
    obtain rfl : id' = j + k := hid'
    have htx := h.isolated.numbered.transaction?_begin hb
    have hux := h.isolated'.numbered.transaction?_begin hb'
    have hopened : Paired s κ first git m i j { c with store } { d with store := store' } := hopened
    obtain ⟨hresult, hpaired⟩ := hopened.run hs he hr htx hux
    simp only [htx, hux] at hstorable ⊢
    generalize Client.run { c with store } _ (r.operation s e) = ran at hresult hpaired hstorable ⊢
    generalize Client.run { d with store := store' } _ (r.operation s e) = ran' at hresult hpaired ⊢
    obtain ⟨outcome, c'⟩ := ran
    obtain ⟨outcome', d'⟩ := ran'
    obtain rfl : outcome' = outcome := hresult
    cases outcome' with
    | error e => exact ⟨rfl, hpaired.drop k⟩
    | ok r =>
      have hcommit := hpaired.commit hs k
      simp only at hstorable hcommit ⊢
      cases hc : (c'.store.commit (i + k)).1 <;> rw [hc] at hstorable hcommit <;>
        obtain ⟨heq, hpaired⟩ := hcommit hstorable <;> rw [← heq] <;> exact ⟨rfl, hpaired⟩

end

/-- A request, in the transaction of that number since the stores were opened or in one of its own. -/
theorem ask (hs : s.Founds κ first) {r : Request α} (hr : r.Offered)
    (h : Paired s κ first git m i j c d) (entity : String) (tx : Option Nat)
    (hstorable : ∀ n t, (c.ask entity r (tx.map (i + ·))).client.store.committed.get? n = some t →
      Row.Storable t.toList) :
    (d.ask entity r (tx.map (j + ·))).result = (c.ask entity r (tx.map (i + ·))).result ∧
      Paired s κ first git m i j (c.ask entity r (tx.map (i + ·))).client
        (d.ask entity r (tx.map (j + ·))).client := by
  rw [Client.ask] at hstorable
  rw [Client.ask, Client.ask]
  simp only [h.schema, h.schema'] at hstorable ⊢
  cases hrequire : s.require entity with
  | error fault => exact ⟨rfl, h⟩
  | ok e =>
    have hentity := Option.elim_ok_eq_ok.1 hrequire
    have he : s.entity? e.name = some e := by rwa [hs.resolved.name hentity]
    simp only [hrequire] at hstorable
    cases tx with
    | some k => exact h.runIn hs he hr k
    | none => exact h.runAlone hs he hr _ _ hstorable

end Paired

end Client

end RelationalStore

import RelationalStore.Proofs.DeletionRequests
import RelationalStore.Proofs.WiderWrites

/- Requests that are put one after another (`Client.askAll`) run each in a transaction of its own,
   over the tables that it needs, or all of them in one that is given. While a transaction over
   every table is open, a second client does in it what the first one does without it
   (`Client.Supplied`): it has the same tables, and every request that succeeds in the first client
   gives the same in the second one, because an operation only asks its transaction for tables and
   permission (`Client.Supplied.ask`). So a series that succeeds in many transactions succeeds in
   one, with the same answers, tables and events (`Client.askAll_supplied`). -/
namespace RelationalStore
open SortedMap

namespace Client

/-- A request that is put to an entity. -/
structure Call : Type 1 where
  {α : Type}
  entity : String
  request : Request α

/-- What a series of requests gives, who hears of what, and the client after it. -/
structure Series : Type 1 where
  answers : List ((α : Type) × α)
  deliveries : List Delivery
  client : Client

/-- Puts requests one after another, each in the transaction that is given or in one of its own. The
first error ends the series. -/
def askAll (c : Client) (tx : Option Nat) : List Call → Except Error Series
  | [] => .ok ⟨[], [], c⟩
  | call :: rest =>
    let o := c.ask call.entity call.request tx
    match o.result with
    | .error e => .error e
    | .ok a => (o.client.askAll tx rest).map fun later =>
      { later with
        answers := ⟨_, a⟩ :: later.answers
        deliveries := o.deliveries ++ later.deliveries }

/-- The first request of a series that succeeds, and the rest of it. -/
theorem askAll_cons {c : Client} {tx : Option Nat} {call : Call} {rest : List Call} {series : Series} :
    c.askAll tx (call :: rest) = .ok series ↔
      ∃ a later, (c.ask call.entity call.request tx).result = .ok a ∧
        (c.ask call.entity call.request tx).client.askAll tx rest = .ok later ∧
        series = { later with
          answers := ⟨_, a⟩ :: later.answers
          deliveries := (c.ask call.entity call.request tx).deliveries ++ later.deliveries } := by
  simp only [askAll]
  cases (c.ask call.entity call.request tx).result with
  | error e => simp
  | ok a =>
    cases (c.ask call.entity call.request tx).client.askAll tx rest with
    | error e => simp [Except.map]
    | ok later => simp [Except.map, eq_comm]

/-! ### One request -/

variable {α : Type} {c d : Client} {id : Nat}

/-- The second client has the tables of the first one, and in it the transaction `id` is open, which
may write to all of them. -/
structure Supplied (id : Nat) (c d : Client) : Prop where
  schema : d.schema = c.schema
  notifiers : d.notifiers = c.notifiers
  tables : d.store.tables = c.store.tables
  supply : d.supply = c.supply
  memory : d.store.backing = none
  numbered : d.store.Numbered
  wide : ∃ tx, d.store.transaction? id = some tx ∧ tx.Wide d.store.tables

/-- What an operation gives in some transaction of the first client it gives in that of the second
one. -/
theorem Supplied.runIn {c' : Client} {op : Operation α} {tx : Transaction} {a : α} {w : Work}
    (h : c.Supplied id d) (hop : op.Widens id)
    (hrun : op.run ⟨c.store.tables, tx, c.supply, [], []⟩ = .ok a w) (hleft : c.Left w c') :
    (d.runIn id op).result = .ok a ∧ (d.runIn id op).deliveries = c.deliveries w.changes ∧
      c'.Supplied id (d.runIn id op).client := by
  obtain ⟨ux, hux, hwide⟩ := h.wide
  obtain ⟨hmem, hid⟩ := Store.transaction?_eq_some hux
  have hwider : Work.Wider id ⟨c.store.tables, tx, c.supply, [], []⟩
      ⟨d.store.tables, ux, d.supply, [], []⟩ :=
    ⟨h.tables, h.supply, rfl, rfl, hid, hwide⟩
  have hgoes := hop _ _ hwider
  rw [hrun] at hgoes
  obtain ⟨w', hrun', hw'⟩ := hgoes
  let d' : Client :=
    { d with
      store := { d.store.setTransaction w'.transaction with tables := w'.tables }
      supply := w'.supply }
  have hin : d.runIn id op = ⟨.ok a, d', d'.deliveries w'.changes⟩ := by
    unfold Client.runIn Client.run
    simp only [hux, hrun']
    rfl
  rw [hin]
  refine ⟨rfl, ?_, ?_⟩
  · show d.deliveries w'.changes = c.deliveries w.changes
    rw [hw'.changes, Client.deliveries, Client.deliveries, h.notifiers]
  · have hnumbered : d'.store.Numbered := h.numbered.of_ids (Store.ids_setTransaction _) rfl
    have hfound : d'.store.transaction? id = some w'.transaction := by
      have hsame : w'.transaction.id = ux.id := hw'.number.trans hid.symm
      have hset := h.numbered.transaction?_setTransaction hmem hsame w'.tables
      rw [hid] at hset
      exact hset
    refine ⟨h.schema.trans hleft.schema.symm, h.notifiers.trans hleft.notifiers.symm, ?_, ?_, h.memory,
      hnumbered, w'.transaction, hfound, hw'.wide⟩
    · exact hw'.tables.trans hleft.tables.symm
    · exact hw'.supply.trans hleft.supply.symm

/-- One request: what it gives by itself it gives in the transaction. -/
theorem Supplied.ask {entity : String} {r : Request α} {a : α} (h : c.Supplied id d) (hr : r.Offered)
    (hask : (c.ask entity r none).result = .ok a) :
    (d.ask entity r (some id)).result = .ok a ∧
      (d.ask entity r (some id)).deliveries = (c.ask entity r none).deliveries ∧
      (c.ask entity r none).client.Supplied id (d.ask entity r (some id)).client := by
  unfold Client.ask at hask ⊢
  rw [h.schema]
  cases hrequire : c.schema.require entity with
  | error e =>
    rw [hrequire] at hask
    cases hask
  | ok e =>
    simp only [hrequire] at hask ⊢
    obtain ⟨tx, w, -, hrun, hdeliveries, hleft⟩ := runAlone_ok hask
    obtain ⟨hresult, hheard, hsupplied⟩ := h.runIn (hr.widens c.schema e) hrun hleft
    exact ⟨hresult, hheard.trans hdeliveries.symm, hsupplied⟩

/-! ### A series of requests -/

/-- A whole series, by induction on its requests. -/
theorem Supplied.askAll {calls : List Call} {series : Series} (h : c.Supplied id d)
    (hoffered : ∀ call ∈ calls, call.request.Offered) (halone : c.askAll none calls = .ok series) :
    ∃ given, d.askAll (some id) calls = .ok given ∧ given.answers = series.answers ∧
      given.deliveries = series.deliveries ∧ series.client.Supplied id given.client := by
  induction calls generalizing c d series with
  | nil =>
    cases halone
    exact ⟨_, rfl, rfl, rfl, h⟩
  | cons call rest ih =>
    rw [List.forall_mem_cons] at hoffered
    obtain ⟨a, later, hask, hlater, rfl⟩ := askAll_cons.1 halone
    obtain ⟨hresult, hheard, hnext⟩ := h.ask hoffered.1 hask
    obtain ⟨given, hgiven, hanswers, hdeliveries, hlast⟩ := ih hnext hoffered.2 hlater
    refine ⟨_, askAll_cons.2 ⟨a, given, hresult, hgiven, rfl⟩, ?_, ?_, hlast⟩
    · exact congrArg (_ :: ·) hanswers
    · show _ ++ given.deliveries = _ ++ later.deliveries
      rw [hheard, hdeliveries]

/-- Between transactions one over all tables can be begun. -/
theorem exists_supplied (hnumbered : c.store.Numbered) (hmemory : c.store.backing = none)
    (hidle : ∀ tx ∈ c.store.transactions, tx.active = false) {names : List String}
    (hnames : ∀ n, n ∈ names ↔ c.store.tables.contains n) :
    ∃ id store, c.store.beginTransaction names .readWrite = .ok (id, store) ∧
      c.Supplied id (c.withStore store) := by
  have hacquire : c.store.acquire .readWrite (SortedSet.ofList names).keys = .ok () := by
    refine Store.acquire_eq_ok_iff.2 fun n hn => ⟨?_, ?_⟩
    · have hthere := (hnames n).1 (mem_keys_set.1 hn)
      rwa [SortedMap.get?, Option.isSome_map]
    · refine List.any_eq_false.2 fun tx htx => ?_
      simp [Transaction.blocks, hidle tx htx]
  obtain ⟨store, hb⟩ : ∃ store,
      c.store.beginTransaction names .readWrite = .ok (c.store.nextId, store) := by
    rw [Store.beginTransaction, hacquire]
    exact ⟨_, rfl⟩
  have hfound := hnumbered.transaction?_begin hb
  have hbegun := hnumbered.begin hb
  obtain ⟨-, -, rfl⟩ := Store.beginTransaction_ok hb
  refine ⟨_, _, hb, rfl, rfl, rfl, rfl, hmemory, hbegun, _, hfound, rfl, rfl, fun n hn => ?_⟩
  refine mem_keys_set.2 ((hnames n).2 ?_)
  rwa [SortedMap.get?, Option.isSome_map] at hn

/-- In memory a transaction that is still active is committed. -/
theorem Supplied.commit (h : c.Supplied id d) :
    ∃ store, d.store.commit id = (.ok (), store) ∧ store.tables = c.store.tables := by
  obtain ⟨tx, htx, hwide⟩ := h.wide
  have hcommit : d.store.commit id = (.ok (), d.store.forget id) := by
    simp [Store.commit, htx, Store.commitTransaction, hwide.active, h.memory]
  exact ⟨_, hcommit, h.tables⟩

/-- Whatever was done before with a client in memory, when no transaction is open: a series of
requests each of which succeeds by itself succeeds in one transaction over all tables, and so does the
commit of that transaction, with the same answers, the same tables in the end, and the same events for
the same listeners in the same order. The clock and the new tokens are the same, too. -/
theorem askAll_supplied {s : Schema} {c : Client} (hc : c.Reached s) (hmemory : c.store.backing = none)
    (hidle : ∀ tx ∈ c.store.transactions, tx.active = false) {names : List String}
    (hnames : ∀ n, n ∈ names ↔ c.store.tables.contains n) {calls : List Call}
    (hoffered : ∀ call ∈ calls, call.request.Offered) {alone : Series}
    (halone : c.askAll none calls = .ok alone) :
    ∃ id store given store', c.store.beginTransaction names .readWrite = .ok (id, store) ∧
      (c.withStore store).askAll (some id) calls = .ok given ∧
      given.client.store.commit id = (.ok (), store') ∧ given.answers = alone.answers ∧
      store'.tables = alone.client.store.tables ∧ given.deliveries = alone.deliveries ∧
      given.client.supply = alone.client.supply := by
  obtain ⟨id, store, hb, hsupplied⟩ := exists_supplied hc.numbered hmemory hidle hnames
  obtain ⟨given, hgiven, hanswers, hdeliveries, hlast⟩ := hsupplied.askAll hoffered halone
  obtain ⟨store', hcommit, htables⟩ := hlast.commit
  exact ⟨id, store, given, store', hb, hgiven, hcommit, hanswers, htables, hdeliveries, hlast.supply⟩

/-- An offer of a price, which is counted and taken back. -/
def trade : List Call :=
  [⟨"price", .create (.ofFields [("amount", .string "1.50")])⟩,
    ⟨"offer", .create (.ofFields [("amount", .string "1.5")])⟩, ⟨"offer", .count {}⟩,
    ⟨"offer", .deleteMany {}⟩]

/-- In a market where someone listens, three of the requests are heard of. -/
theorem askAll_supplied_market : ∃ (c : Client) (alone : Series), c.Reached c.schema ∧
    c.store.backing = none ∧ (∀ tx ∈ c.store.transactions, tx.active = false) ∧
      (∀ n, n ∈ ["offer", "price"] ↔ c.store.tables.contains n) ∧
      (∀ call ∈ trade, call.request.Offered) ∧ c.askAll none trade = .ok alone ∧
      alone.answers.length = 4 ∧ alone.deliveries.length = 3 ∧
      ∃ id store given store',
        c.store.beginTransaction ["offer", "price"] .readWrite = .ok (id, store) ∧
        (c.withStore store).askAll (some id) trade = .ok given ∧
        given.client.store.commit id = (.ok (), store') ∧ given.answers = alone.answers ∧
        store'.tables = alone.client.store.tables ∧ given.deliveries = alone.deliveries ∧
        given.client.supply = alone.client.supply := by
  let listening (c₀ : Client) : Client :=
    [Action.subscribe "price" [.create] "buyer", .subscribe "offer" [.create, .delete] "seller"].foldl
      after c₀
  let Trades (c : Client) : Prop := c.store.backing.isNone ∧ c.store.transactions.isEmpty ∧
    c.store.tables.keys = ["offer", "price"] ∧
    (c.store.tables.entries.Pairwise fun a b => compare a.1 b.1 = .lt) ∧
    (c.askAll none trade).toOption.any fun series =>
      series.answers.length = 4 ∧ series.deliveries.length = 3
  have hruns : (openMemory EntityDef.market).toOption.any fun c₀ => Trades (listening c₀) := by
    decide +kernel
  obtain ⟨c₀, -, hopened, -, htrades⟩ := exists_openMemory hruns
  obtain ⟨hmemory, hnone, hkeys, hordered, hseries⟩ := htrades
  obtain ⟨alone, halone, hcounts⟩ := (Option.any_eq_true _ _).1 hseries
  obtain ⟨hanswers, hdeliveries⟩ := of_decide_eq_true hcounts
  have halone := Except.toOption_eq_some.1 halone
  have hreached : (listening c₀).Reached c₀.schema := ⟨c₀, hopened, _, rfl⟩
  have hidle : ∀ tx ∈ (listening c₀).store.transactions, tx.active = false := by
    rw [List.isEmpty_iff.1 hnone]
    simp
  have hnames : ∀ n, n ∈ ["offer", "price"] ↔ (listening c₀).store.tables.contains n := by
    intro n
    rw [← hkeys, Ordered.mem_keys_iff ⟨hordered, fun _ _ => trivial⟩, SortedMap.get?,
      Option.isSome_map]
    rfl
  have hoffered : ∀ call ∈ trade, call.request.Offered := by
    have hcreate (q : Query) : (Request.create q).Offered := ⟨q, .inl .create⟩
    have hcount : (Request.count {}).Offered := ⟨{}, .inr .count⟩
    have hdelete : (Request.deleteMany {}).Offered := ⟨{}, .inl .deleteMany⟩
    simp [trade, hcreate, hcount, hdelete]
  have hschema : (listening c₀).schema = c₀.schema := schema_foldl c₀ _
  refine ⟨listening c₀, alone, hschema ▸ hreached, Option.isNone_iff_eq_none.1 hmemory, hidle, hnames,
    hoffered, halone, hanswers, hdeliveries, ?_⟩
  exact askAll_supplied hreached (Option.isNone_iff_eq_none.1 hmemory) hidle hnames hoffered halone

end Client

end RelationalStore

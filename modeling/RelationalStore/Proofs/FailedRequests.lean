import RelationalStore.Proofs.Isolation
import RelationalStore.Proofs.RequestWrites
import RelationalStore.Proofs.SchemaTables

/- A request that fails leaves no trace. The transaction that it ran in is rolled back, its own one
   as well as one that was supplied, and the rollback leads back to the tables from when the
   transaction was opened. Tables outside the transaction are not touched, and nobody hears of
   anything. Tables that are put back hold the same; only a key may now be written in another way
   (`Table.Same`). -/
namespace RelationalStore
open SortedMap

namespace Client
variable {D : String → Table.Discipline} {first opened : Tables} {c : Client}
  {tx : Transaction} {id : Nat} {names : List String} {mode : TransactionMode} {α : Type}
  {op : Operation α}

/-- Whatever transaction the operation runs in, all it does is to write in it. -/
def OnlyWrites (D : String → Table.Discipline) (first : Tables) (op : Operation α) : Prop :=
  ∀ (tx : Transaction) (tables : Tables),
    (∀ n, (tables.get? n).map (·.definition) = (first.get? n).map (·.definition)) →
    Operation.Upholds (fun tables' tx' => tx.Leads D tables tx' tables') op fun _ => True

/-! ### Steps -/

section
variable {outcome : Except Error (α × List Change)} {c' : Client}

/-- An operation that is run leads somewhere, whether it fails or not. -/
theorem run_leads (hop : OnlyWrites D first op) (h : c.store.Isolated D first)
    (htx : tx ∈ c.store.transactions) (hrun : c.run tx op = (outcome, c')) :
    ∃ tx' tables', tx.Leads D c.store.tables tx' tables' ∧
      c'.store = { c.store.setTransaction tx' with tables := tables' } := by
  have hleads := hop tx c.store.tables h.definition ⟨c.store.tables, tx, c.supply, [], []⟩
    (.refl h.under (h.logged tx htx))
  unfold run at hrun
  simp only at hrun
  split at hrun
  · next w heq =>
    rw [heq] at hleads
    cases hrun
    exact ⟨w.transaction, w.tables, hleads.1, rfl⟩
  · next w heq =>
    rw [heq] at hleads
    cases hrun
    exact ⟨w.transaction, w.tables, hleads.1, rfl⟩

theorem follows_run (hop : OnlyWrites D first op) (h : c.store.Isolated D first)
    (htx : c.store.transaction? id = some tx) (hrun : c.run tx op = (outcome, c')) :
    c.store.Follows D first c'.store := by
  have hmem := (Store.transaction?_eq_some htx).1
  obtain ⟨tx', tables', hleads, heq⟩ := run_leads hop h hmem hrun
  rw [heq]
  exact h.follows_leads hmem hleads

end

theorem follows_runIn (hop : OnlyWrites D first op) (h : c.store.Isolated D first) (id : Nat) :
    c.store.Follows D first (c.runIn id op).client.store := by
  have hruns := c.runsIn id op
  generalize c.runIn id op = o at hruns ⊢
  cases hruns with
  | missing => exact .refl h
  | failed htx hrun =>
    have hnext := follows_run hop h htx hrun
    exact hnext.trans (hnext.isolated.follows_abort id)
  | done htx hrun => exact follows_run hop h htx hrun

theorem follows_runAlone (hop : OnlyWrites D first op) (h : c.store.Isolated D first)
    (names : List String) (mode : TransactionMode) :
    c.store.Follows D first (c.runAlone names mode op).client.store := by
  have hruns := c.runsAlone names mode op
  generalize c.runAlone names mode op = o at hruns ⊢
  have hnext {id : Nat} {store : Store} {tx : Transaction}
      {outcome : Except Error (α × List Change)} {c' : Client}
      (hb : c.store.beginTransaction names mode = .ok (id, store))
      (htx : store.transaction? id = some tx) (hrun : (c.withStore store).run tx op = (outcome, c')) :
      c.store.Follows D first c'.store := by
    have hbegun := h.follows_begin hb
    exact hbegun.trans (follows_run (c := c.withStore store) hop hbegun.isolated htx hrun)
  cases hruns with
  | refused => exact .refl h
  | missing hb => exact h.follows_begin hb
  | failed hb htx hrun =>
    have hnext := hnext hb htx hrun
    exact hnext.trans (hnext.isolated.follows_drop _)
  | uncommitted hb htx hrun =>
    have hnext := hnext hb htx hrun
    exact hnext.trans (hnext.isolated.follows_commit _)
  | done hb htx hrun =>
    have hnext := hnext hb htx hrun
    exact hnext.trans (hnext.isolated.follows_commit _)

/-! ### What a failed request leaves -/

/-- In a transaction that was supplied: it is inactive, its tables are those it was opened over, and
no other table is touched. -/
theorem runIn_error (hop : OnlyWrites D first op) (h : c.store.Isolated D first)
    (hr : c.store.Remembers D id opened) (htx : c.store.transaction? id = some tx)
    (hactive : tx.active = true) {e : Error} (he : (c.runIn id op).result = .error e) :
    (∃ tx', (c.runIn id op).client.store.transaction? id = some tx' ∧ tx'.active = false) ∧
      (∀ n ∈ tx.scope, Option.Rel (Table.Agrees (D n))
        ((c.runIn id op).client.store.tables.get? n) (opened.get? n)) ∧
      (∀ n, n ∉ tx.scope → (c.runIn id op).client.store.tables.get? n = c.store.tables.get? n) ∧
      (c.runIn id op).deliveries = [] := by
  have hruns := c.runsIn id op
  generalize c.runIn id op = o at hruns he ⊢
  cases hruns with
  | missing hnone => cases hnone.symm.trans htx
  | done => cases he
  | @failed tx₁ _ c' htx₁ hrun =>
    cases htx₁.symm.trans htx
    obtain ⟨hmem, rfl⟩ := Store.transaction?_eq_some htx
    obtain ⟨tx', tables', hleads, hstore⟩ := run_leads hop h hmem hrun
    -- The abort finds what the operation left of the transaction.
    have hfound : c'.store.transaction? tx.id = some tx' := by
      rw [hstore]
      exact h.numbered.transaction?_setTransaction hmem hleads.id tables'
    have hlive : tx'.active = true := hleads.live.trans hactive
    have htables : (c'.store.abort tx.id).tables = tx'.rollback tables' := by
      rw [Store.abort_of_active hfound hlive, hstore]
    refine ⟨⟨{ tx' with active := false, undo := [] }, ?_, rfl⟩, fun n hn => ?_, fun n hn => ?_, rfl⟩
    · have hnumbered := (h.follows_leads hmem hleads).isolated.numbered
      rw [← hstore] at hnumbered
      show (c'.store.abort tx.id).transaction? tx.id = _
      rw [Store.abort_of_active hfound hlive, ← hleads.id]
      refine hnumbered.transaction?_setTransaction (Store.transaction?_eq_some hfound).1 ?_ _
      rfl
    · show Option.Rel _ ((c'.store.abort tx.id).tables.get? n) _
      rw [htables]
      exact Transaction.agrees_trans (hleads.back n) (hr tx hmem rfl hactive n hn)
    · -- Outside the scope nothing was written, so there is nothing to be taken back.
      show (c'.store.abort tx.id).tables.get? n = _
      rw [htables, Transaction.rollback_of_not_noted fun u hu heq => hn ?_]
      · exact hleads.outside n fun hmay => hn hmay.2.2
      · rw [← heq, ← hleads.scope]
        exact (hleads.logged.noted u hu).1

/-- An operation that was run in a transaction that was just begun can be taken back: what a rollback
leads to then is what was there before the transaction. -/
theorem run_begun (hop : OnlyWrites D first op) (h : c.store.Isolated D first) {store : Store}
    (hb : c.store.beginTransaction names mode = .ok (id, store))
    (htx : store.transaction? id = some tx) {outcome : Except Error (α × List Change)} {c' : Client}
    (hrun : (c.withStore store).run tx op = (outcome, c')) :
    ∃ tx', c'.store.transaction? id = some tx' ∧ tx'.active = true ∧
      ∀ n, Option.Rel (Table.Agrees (D n)) ((tx'.rollback c'.store.tables).get? n)
        (c.store.tables.get? n) := by
  have hbegun := h.follows_begin hb
  have hfresh := h.numbered.transaction?_begin hb
  rw [htx] at hfresh
  cases hfresh
  obtain ⟨hmem, hid⟩ := Store.transaction?_eq_some htx
  obtain ⟨tx', tables', hleads, hstore⟩ :=
    run_leads (c := c.withStore store) hop hbegun.isolated hmem hrun
  refine ⟨tx', ?_, hleads.live, fun n => ?_⟩
  · rw [hstore, ← hid]
    exact hbegun.isolated.numbered.transaction?_setTransaction hmem hleads.id tables'
  · have htables : store.tables = c.store.tables := by
      rw [(Store.beginTransaction_ok hb).2.2]
    rw [← htables, hstore]
    exact hleads.back n

/-- In a transaction of its own: every table is as before. -/
theorem runAlone_error (hop : OnlyWrites D first op) (h : c.store.Isolated D first) {e : Error}
    (he : (c.runAlone names mode op).result = .error e) :
    (∀ n, Option.Rel (Table.Agrees (D n))
      ((c.runAlone names mode op).client.store.tables.get? n) (c.store.tables.get? n)) ∧
      (c.runAlone names mode op).deliveries = [] := by
  have hsame (n : String) :
      Option.Rel (Table.Agrees (D n)) (c.store.tables.get? n) (c.store.tables.get? n) := by
    cases ht : c.store.tables.get? n with
    | none => exact .none
    | some t => exact .some (.refl (h.under.good ht))
  have hruns := c.runsAlone names mode op
  generalize c.runAlone names mode op = o at hruns he ⊢
  cases hruns with
  | refused => exact ⟨hsame, rfl⟩
  | missing hb htx => cases htx.symm.trans (h.numbered.transaction?_begin hb)
  | done => cases he
  | @failed id _ _ _ c' hb htx hrun =>
    obtain ⟨tx', hfound, hlive, hback⟩ := run_begun hop h hb htx hrun
    refine ⟨fun n => ?_, rfl⟩
    have hdropped : (c'.store.drop id).tables = tx'.rollback c'.store.tables := by
      rw [Store.drop, Store.forget, Store.abort_of_active hfound hlive]
    show Option.Rel _ ((c'.store.drop id).tables.get? n) _
    rw [hdropped]
    exact hback n
  | @uncommitted id _ _ _ _ c' _ hb htx hrun hcommit =>
    obtain ⟨tx', hfound, hlive, hback⟩ := run_begun hop h hb htx hrun
    refine ⟨fun n => ?_, rfl⟩
    show Option.Rel _ ((c'.store.commit id).2.tables.get? n) _
    simp only [Store.commit, hfound] at hcommit ⊢
    rcases c'.store.commitTransaction_tables tx' with ⟨-, hok | hinactive⟩ | ⟨hrolled, -⟩
    · cases hok.symm.trans hcommit
    · cases hlive.symm.trans hinactive
    · simp only [Store.forget, hrolled]
      exact hback n

/-! ### Runs -/

/-- The requests are those that there are, and rows that are written past them have in each column
numbers of its class. -/
def Action.Regular (κ : String → String → NumberClass) (first : Tables) : Action → Prop
  | .ask _ r _ => r.Offered
  | .add _ table row => row.Within (κ table)
  | .put _ table row => row.Within (κ table)
  | .delete _ table key => ∀ t, first.get? table = some t →
      ∀ p ∈ t.definition.keyPath.zip key.parts, p.2.within (κ table p.1)
  | _ => True

section
variable {s : Schema} (hs : s.Resolved) (hkinds : s.KeysOfKinds) (hfirst : s.Holds κ first)
include hs hkinds hfirst

theorem onlyWrites_offered {e : Entity} (he : s.entity? e.name = some e) {r : Request α}
    (hr : r.Offered) : OnlyWrites (.within ∘ κ) first (r.operation s e) :=
  fun _ _ hd =>
    hr.upholds hs (Schema.admits_within hs hkinds hfirst.classes) (Schema.upholds_leads hfirst hd) he

theorem follows_after (hschema : c.schema = s) (h : c.store.Isolated (.within ∘ κ) first) {a : Action}
    (ha : a.Regular κ first) : c.store.Follows (.within ∘ κ) first (c.after a).store := by
  cases a with
  | ask entity r tx =>
    simp only [after, ask]
    cases hrequire : c.schema.require entity with
    | error e => exact .refl h
    | ok e =>
      have hentity := Option.elim_ok_eq_ok.1 hrequire
      rw [hschema] at hentity
      have hop := onlyWrites_offered hs hkinds hfirst
        (by rw [hs.name hentity]; exact hentity) (e := e) (r := r) ha
      rw [← hschema] at hop
      cases tx with
      | some id => exact follows_runIn hop h id
      | none => exact follows_runAlone hop h _ _
  | begin names mode =>
    simp only [after]
    split
    · next hb => exact h.follows_begin hb
    · exact .refl h
  | commit id => exact h.follows_commit id
  | abort id => exact h.follows_abort id
  | drop id => exact h.follows_drop id
  | add id table row =>
    exact h.follows_writeIn id fun tx hl _ _ _ hf =>
      Transaction.leads_add h.under hl (fun _ _ => TableDef.suits_own ha) hf
  | put id table row =>
    exact h.follows_writeIn id fun tx hl _ _ _ hf =>
      Transaction.leads_put h.under hl (fun _ _ => TableDef.suits_own ha) hf
  | delete id table key =>
    refine h.follows_writeIn id fun tx hl _ _ _ hf =>
      Transaction.leads_delete h.under hl (fun t ht hlen =>
        TableDef.suits_none (Key.fits_of_zip hlen ?_)) hf
    obtain ⟨t₀, ht₀, heq⟩ := exists_of_map_eq (h.definition table) ht
    rw [← heq]
    exact ha t₀ ht₀
  | subscribe entity kinds listener =>
    rw [(after_subscribe c entity kinds listener).1]
    exact .refl h
  | unsubscribe entity id =>
    rw [(after_unsubscribe c entity id).1]
    exact .refl h

theorem follows_foldl (hschema : c.schema = s) (h : c.store.Isolated (.within ∘ κ) first)
    {actions : List Action} (hactions : ∀ a ∈ actions, a.Regular κ first) :
    c.store.Follows (.within ∘ κ) first (actions.foldl after c).store := by
  induction actions generalizing c with
  | nil => exact .refl h
  | cons a rest ih =>
    have hstep := follows_after hs hkinds hfirst hschema h (hactions a List.mem_cons_self)
    refine hstep.trans (ih ((schema_after c a).trans hschema) hstep.isolated fun b hb => ?_)
    exact hactions b (List.mem_cons_of_mem a hb)

end

theorem isolated_of_opened {s : Schema} (hopened : c.Opened s)
    (hholds : s.Holds κ c.store.tables) : c.store.Isolated (.within ∘ κ) c.store.tables where
  numbered := hopened.numbered
  under := Tables.proper_iff.1 hholds.proper
  definition _ := rfl
  logged := by simp [hopened.transactions]
  apart := by simp [Store.Apart, hopened.transactions]

/-- Whatever was done with a client of the schema: its tables are still what the schema says. -/
theorem holds_foldl {s : Schema} (hs : s.Resolved) (hkinds : s.KeysOfKinds) (hopened : c.Opened s)
    (hholds : s.Holds κ c.store.tables) {actions : List Action}
    (hactions : ∀ a ∈ actions, a.Regular κ c.store.tables) :
    (actions.foldl after c).schema = s ∧ s.Holds κ (actions.foldl after c).store.tables := by
  have hisolated := (follows_foldl hs hkinds hholds hopened.schema (isolated_of_opened hopened hholds)
    hactions).isolated
  refine ⟨(schema_foldl c actions).trans hopened.schema, hholds.classes,
    Tables.proper_iff.2 hisolated.under, ?_⟩
  intro e t he ht
  obtain ⟨t₀, ht₀, heq⟩ := exists_of_map_eq (hisolated.definition e.name) ht
  rw [← heq]
  exact hholds.definition e t₀ he ht₀

end Client

/-- Under each name the same table, or none. -/
def Tables.Same (a b : Tables) : Prop := ∀ n, Option.Rel Table.Same (a.get? n) (b.get? n)

theorem Table.same_of_agrees {D : Table.Discipline} {x y : Option Table}
    (h : Option.Rel (Table.Agrees D) x y) : Option.Rel Table.Same x y :=
  rel_imp h fun _ _ h => h.same

/-- Whatever was done with a client before: a request to write that fails leaves the tables as they
were before it, or, in a transaction that was begun at any time before, the tables of the
transaction as they were when it was begun, and no other table touched. Such a transaction is not
active any more, and no listener hears of anything. -/
theorem Client.ask_error_restores {defs : List EntityDef} {s : Schema}
    (hs : Schema.ofDefs defs = .ok s) (hkinds : s.KeysOfKinds) {c₀ : Client} (hc₀ : c₀.Opened s)
    {κ : String → String → NumberClass} (hholds : s.Holds κ c₀.store.tables)
    {before : List Action} (hbefore : ∀ a ∈ before, a.Regular κ c₀.store.tables) {entity : String}
    (hentity : (s.entity? entity).isSome) {q : Query} {α : Type} {r : Request α} (hr : r.Writes q) :
    let c := before.foldl after c₀
    (∀ e, (c.ask entity r none).result = .error e →
      Tables.Same (c.ask entity r none).client.store.tables c.store.tables ∧
        (c.ask entity r none).deliveries = []) ∧
    ∀ names mode id store, c.store.beginTransaction names mode = .ok (id, store) →
      ∀ since : List Action, (∀ a ∈ since, a.Regular κ c₀.store.tables) →
        let d := since.foldl after (c.withStore store)
        ∀ tx, d.store.transaction? id = some tx → tx.active = true →
          ∀ e, (d.ask entity r (some id)).result = .error e →
            let left := (d.ask entity r (some id)).client.store
            (∃ tx', left.transaction? id = some tx' ∧ tx'.active = false) ∧
              (∀ n ∈ tx.scope, Option.Rel Table.Same (left.tables.get? n) (c.store.tables.get? n)) ∧
              (∀ n, n ∉ tx.scope → left.tables.get? n = d.store.tables.get? n) ∧
              (d.ask entity r (some id)).deliveries = [] := by
  have hresolved := Schema.Resolved.ofDefs hs
  intro c
  have hschema : c.schema = s := (schema_foldl c₀ before).trans hc₀.schema
  have hisolated : c.store.Isolated (.within ∘ κ) c₀.store.tables :=
    (follows_foldl hresolved hkinds hholds hc₀.schema (isolated_of_opened hc₀ hholds)
      hbefore).isolated
  obtain ⟨e₀, he₀⟩ := Option.isSome_iff_exists.1 hentity
  have hop : OnlyWrites (.within ∘ κ) c₀.store.tables (r.operation s e₀) :=
    onlyWrites_offered hresolved hkinds hholds (by rw [hresolved.name he₀, he₀]) ⟨q, .inl hr⟩
  have hrequire : s.require entity = .ok e₀ := Option.elim_ok_eq_ok.2 he₀
  refine ⟨fun e he => ?_, ?_⟩
  · simp only [ask, hschema, hrequire] at he ⊢
    obtain ⟨hsame, hquiet⟩ := runAlone_error hop hisolated he
    exact ⟨fun n => Table.same_of_agrees (hsame n), hquiet⟩
  · intro names mode id store hb since hsince d tx htx hactive e he
    have hbegun := hisolated.follows_begin hb
    have hsteps := follows_foldl (c := c.withStore store) hresolved hkinds hholds hschema
      hbegun.isolated hsince
    have hd : d.schema = s := (schema_foldl _ since).trans hschema
    have hid : id < store.nextId := by
      obtain ⟨-, rfl, rfl⟩ := Store.beginTransaction_ok hb
      exact Nat.lt_succ_self _
    have hremembers := hsteps.remembers hid (hisolated.remembers_begin hb)
    simp only [ask, hd, hrequire] at he ⊢
    obtain ⟨hended, hscope, houtside, hquiet⟩ :=
      runIn_error hop hsteps.isolated hremembers htx hactive he
    exact ⟨hended, fun n hn => Table.same_of_agrees (hscope n hn), houtside, hquiet⟩

/-! ### Clients in memory -/

/-- A row with the values. -/
def Query.ofFields (fields : List (String × Json)) : Query :=
  { data := some (.one ⟨fields.map fun p => (p.1, .literal p.2)⟩) }

namespace Client

/-- A client that keeps nothing but in memory, where the tables are empty. -/
def openMemory (defs : List EntityDef) : Except Error Client := do
  (openWith (← Schema.ofDefs defs) { name := "memory" } ⟨0, 1⟩ {}).result

/-- The keys of a table as they are written. -/
def keyTexts (c : Client) (table : String) : List String :=
  (c.store.tables.get? table).toList.flatMap fun t => t.rows.entries.map (·.1.text)

theorem exists_openMemory {defs : List EntityDef} {P : Client → Prop} [DecidablePred P]
    (hP : (openMemory defs).toOption.any (P ·)) : ∃ c₀ : Client,
    Schema.ofDefs defs = .ok c₀.schema ∧ c₀.Opened c₀.schema ∧
      c₀.schema.Holds c₀.schema.classes c₀.store.tables ∧ P c₀ := by
  obtain ⟨c₀, hopened, hP⟩ := (Option.any_eq_true _ _).1 hP
  obtain ⟨s, hs, hc₀⟩ := Except.bind_eq_ok.1 (Except.toOption_eq_some.1 hopened)
  have hopened : c₀.Opened s := ⟨_, _, _, hc₀⟩
  have hholds := holds_openMemory (Schema.Resolved.ofDefs hs) rfl hc₀
  obtain rfl := hopened.schema
  exact ⟨c₀, hs, hopened, hholds, of_decide_eq_true hP⟩

end Client

/-! ### A market -/

/-- Prices, and offers of which each has the amount of a price. -/
def EntityDef.market : List EntityDef :=
  [{ name := "price", fields := [{ name := "amount", kind := .decimal, id := true }],
     relations := [.one "offer" "offer"] },
   { name := "offer", fields := [{ name := "amount", kind := .decimal, id := true }],
     relations := [.owning "price" "price" ["amount"] ["amount"]] }]

/-- Gives the offer of "1.5" the price that is equal to it. Nothing is called "color", so it fails
when the row is written already. -/
def Query.relinking : Query :=
  let equal := Filter.whereEquals {} "amount" (.string "1.5")
  { filter := some equal
    data := some (.one ⟨[("price", .relation { connect := [equal] })]⟩)
    select := some [("color", .flag true)] }

namespace Client

/-- A price and an offer whose amounts are equal but not written alike. -/
def pricing : List Action :=
  [.ask "price" (.create (.ofFields [("amount", .string "1.50")])) none,
   .ask "offer" (.create (.ofFields [("amount", .string "1.5")])) none]

/-- Two prices that have the same nearest floating-point number. -/
def closePrices : List Action :=
  [.ask "price" (.create (.ofFields [("amount", .string "1")])) none,
   .ask "price" (.create (.ofFields [("amount", .string "1.0000000000000000000000001")])) none]

/-- The tables are not exactly as before. A key can be written in another way afterwards; tables
outside the transaction keep what others wrote in them since; and a number of another kind, put past
the engine, can take the place of two keys, of which only one comes back. -/
theorem ask_error_inexact : ∃ c₀ : Client,
    Schema.ofDefs EntityDef.market = .ok c₀.schema ∧ c₀.Opened c₀.schema ∧
      c₀.schema.Holds c₀.schema.classes c₀.store.tables ∧ c₀.schema.KeysOfKinds ∧
      (let c := pricing.foldl after c₀
       let failed := c.ask "offer" (.update .relinking) none
       failed.result.isOk = false ∧ failed.client.keyTexts "offer" ≠ c.keyTexts "offer") ∧
      (let d := [.begin ["offer"] .readWrite,
         .ask "price" (.create (.ofFields [("amount", .string "1.50")])) none].foldl after c₀
       let failed := d.ask "offer" (.create {}) (some 1)
       failed.result.isOk = false ∧ failed.client.keyTexts "price" ≠ c₀.keyTexts "price") ∧
      (let c := closePrices.foldl after c₀
       let d := [.begin ["price"] .readWrite,
         .put 3 "price" (SortedMap.ofList [("amount", .float (.ofInt 1))])].foldl after c
       let failed := d.ask "price" (.create {}) (some 3)
       failed.result.isOk = false ∧
         (failed.client.keyTexts "price").length < (c.keyTexts "price").length) :=
  exists_openMemory (by decide +kernel)

/-- A link that is made and taken back, alone and after another write of the same transaction. -/
theorem ask_error_restores_market : ∃ c₀ : Client,
    Schema.ofDefs EntityDef.market = .ok c₀.schema ∧ c₀.Opened c₀.schema ∧
      c₀.schema.Holds c₀.schema.classes c₀.store.tables ∧ c₀.schema.KeysOfKinds ∧
      let c := pricing.foldl after c₀
      let alone := c.ask "offer" (.update .relinking) none
      alone.result.isOk = false ∧ Tables.Same alone.client.store.tables c.store.tables ∧
        alone.deliveries = [] ∧
        ∃ id store, c.store.beginTransaction ["offer", "price"] .readWrite = .ok (id, store) ∧
          let d := (c.withStore store).after
            (.ask "price" (.create (.ofFields [("amount", .string "2")])) (some id))
          let joined := d.ask "offer" (.update .relinking) (some id)
          joined.result.isOk = false ∧ d.keyTexts "price" = ["\"1.50\"", "\"2\""] ∧
            Option.Rel Table.Same (joined.client.store.tables.get? "price")
              (c.store.tables.get? "price") := by
  have hruns : (openMemory EntityDef.market).toOption.any fun c₀ =>
      let c := pricing.foldl after c₀
      c₀.schema.KeysOfKinds ∧ (c₀.schema.entity? "offer").isSome ∧
        (c.ask "offer" (.update .relinking) none).result.isOk = false ∧
        (c.store.beginTransaction ["offer", "price"] .readWrite).toOption.any fun (id, store) =>
          let d := (c.withStore store).after
            (.ask "price" (.create (.ofFields [("amount", .string "2")])) (some id))
          (d.store.transaction? id).any (fun tx => tx.active ∧ "price" ∈ tx.scope) ∧
            (d.ask "offer" (.update .relinking) (some id)).result.isOk = false ∧
              d.keyTexts "price" = ["\"1.50\"", "\"2\""] := by
    decide +kernel
  obtain ⟨c₀, hs, hc₀, hholds, hkinds, hentity, halone, hbegun⟩ := exists_openMemory hruns
  obtain ⟨⟨id, store⟩, hb, hd⟩ := (Option.any_eq_true _ _).1 hbegun
  obtain ⟨hlive, hjoined, hkeys⟩ := of_decide_eq_true hd
  obtain ⟨tx, htx, hlive⟩ := (Option.any_eq_true _ _).1 hlive
  obtain ⟨hactive, hscope⟩ := of_decide_eq_true hlive
  have hregular : ∀ a ∈ pricing, a.Regular c₀.schema.classes c₀.store.tables := by
    intro a ha
    obtain rfl | rfl : a = _ ∨ a = _ := by simpa [pricing] using ha
    · exact ⟨_, .inl .create⟩
    · exact ⟨_, .inl .create⟩
  obtain ⟨hrestored, hundone⟩ := ask_error_restores hs hkinds hc₀ hholds hregular hentity
    (Request.Writes.update (q := .relinking))
  obtain ⟨e, he⟩ := Except.isOk_eq_false.1 halone
  obtain ⟨hsame, hquiet⟩ := hrestored e he
  have hbegin := Except.toOption_eq_some.1 hb
  obtain ⟨e', he'⟩ := Except.isOk_eq_false.1 hjoined
  have hback := hundone _ _ id store hbegin
    [.ask "price" (.create (.ofFields [("amount", .string "2")])) (some id)]
    (by simpa using ⟨_, .inl .create⟩) tx htx hactive e' he'
  exact ⟨c₀, hs, hc₀, hholds, hkinds, halone, hsame, hquiet, id, store, hbegin, hjoined, hkeys,
    hback.2.1 "price" hscope⟩

end Client

end RelationalStore

import RelationalStore.Proofs.DeletionRequests
import RelationalStore.Proofs.DraftedRows

/- What a request to create leaves, for data of the row's own fields: one row more in the table of
   the entity and nothing else changed, or, where no row can be made of the data, the tables as they
   were. Neither needs the tables to be in order. The new row is put where the search for its key
   ended, and there it is found. -/
namespace RelationalStore
open SortedMap Read Operation

/-- Under a key that is not found an entry is put in between the others. -/
theorem SortedMap.insertEntry_of_absent {κ ν : Type} [Ord κ] {k : κ} (v : ν)
    {entries : List (κ × ν)} (h : entryAt? k entries = none) : ∃ before after,
      entries = before ++ after ∧ insertEntry k v entries = before ++ (k, v) :: after := by
  induction entries with
  | nil => exact ⟨[], [], rfl, rfl⟩
  | cons entry rest ih =>
    rw [entryAt?] at h
    rw [insertEntry]
    split at h
    · exact ⟨[], entry :: rest, rfl, rfl⟩
    · cases h
    · obtain ⟨before, after, rfl, hinsert⟩ := ih h
      exact ⟨entry :: before, after, rfl, by simp [hinsert]⟩

/-- The table of that name has one row more, which is found under its key; nothing else has changed. -/
def Tables.Gains (T : Tables) (n : String) (row : Row) (T' : Tables) : Prop :=
  ∃ t t' before after, T.get? n = some t ∧ T'.get? n = some t' ∧
    t.rows.entries = before ++ after ∧ t'.rows.entries = before ++ (t.keyOf row, row) :: after ∧
    t'.definition = t.definition ∧ t'.get? (t'.keyOf row) = some row ∧
    ∀ m, m ≠ n → T'.get? m = T.get? m

namespace Transaction
variable {tx tx' : Transaction} {T T' : Tables} {n : String} {row : Row} {key : Key}

theorem gains_of_add (h : tx.add T n row = .ok (key, tx', T')) : T.Gains n row T' := by
  obtain ⟨t, ht, h⟩ := Except.bind_eq_ok.1 h
  obtain ⟨⟨k, next⟩, hadd, h⟩ := Except.bind_eq_ok.1 h
  cases h
  obtain ⟨rfl, -, hfree, -, rfl⟩ := Table.add_ok hadd
  have habsent : entryAt? (t.keyOf row) t.rows.entries = none := by
    simpa [Table.get?, SortedMap.get?] using hfree
  obtain ⟨before, after, hentries, hinsert⟩ := insertEntry_of_absent row habsent
  refine ⟨t, t.store (t.keyOf row) row, before, after, (tableToWrite_ok ht).2, get?_insert_self _ _ _,
    hentries, hinsert, rfl, get?_insert_self _ _ _, fun m hm => get?_insert_of_ne (Ne.symm hm)⟩

end Transaction

/-! ### The request -/

namespace Operation
variable {s : Schema} {e : Entity} {data : WriteData} {q : Query}

/-- The row that is stored is a draft of the data. What no row can be made of fails on the way to its
draft, where nothing is written yet. -/
theorem create_gains (hs : s.Resolved) (he : s.entity? e.name = some e)
    (hdata : q.data = some (.one data)) (hplain : data.writesRelations = false) (w₀ : Work) :
    Triple (· = w₀) ((Request.create q).operation s e)
      (fun _ w => ∃ row, e.Drafts w₀.tables w₀.supply data row ∧
        w₀.tables.Gains e.name row w.tables)
      fun _ w => e.Refuses data → w₀.Since w := by
  have hsame {P : Prop} {w : Work} (h : w = w₀ ∧ P) : e.Refuses data → w₀.Since w :=
    fun _ => ⟨_, h.1⟩
  have hrequire : requireData q = .ok data := by rw [requireData, hdata]
  refine Triple.bind (R := fun d w => w = w₀ ∧ d = data) (Triple.ofExcept fun w hw => ?_)
    fun d => Triple.of_eq fun w hw => ?_
  · rw [hrequire]
    exact .ok ⟨hw, rfl⟩
  obtain ⟨rfl, rfl⟩ := hw
  refine Triple.bind (Triple.mono (Keeps.ofExcept (I := (· = w)) .any) (fun _ h => h)
    (fun _ _ h => h) fun _ _ => hsame) fun _ => ?_
  rw [create_of_plain hplain, bind_assoc]
  refine Triple.bind (Triple.mono (draft_drafts hs he hplain w) (fun _ h => h.1) (fun _ _ h => h)
    fun _ _ h _ => h.1) fun row => Triple.of_eq fun w₁ hdraft => ?_
  obtain ⟨⟨supply, -, rfl⟩, hdrafts⟩ := hdraft
  -- There is a draft, so the data are not refused, whatever fails now.
  have hrest (key : Key) : Keeps (fun w' => w.tables.Gains e.name row w'.tables)
      (reread s e key >>= fun row => look s fun v => v.record e q row) (fun _ => True)
      fun _ => True :=
    Keeps.andThen ((keeps_reread _ e key).mono (fun _ h => h) fun _ _ => trivial) fun _ =>
      Keeps.look fun _ _ => .any
  have hstored : Triple (fun w' => w'.tables = w.tables)
      (addRow e row >>= fun key => reread s e key >>= fun row => look s fun v => v.record e q row)
      (fun _ w' => w.tables.Gains e.name row w'.tables) fun _ _ => True :=
    Triple.bind (attempts_addRow fun _ _ _ _ hadd => Transaction.gains_of_add hadd).leaves
      fun key => Triple.mono (hrest key) (fun _ h => h) (fun _ _ h => h.1) fun _ _ _ => trivial
  rw [bind_assoc]
  refine Triple.mono hstored (fun w' hw' => by rw [hw']) (fun _ w' h => ⟨row, hdrafts, h⟩)
    fun _ _ _ hrefuses => absurd hrefuses hdrafts.not_refuses

end Operation

namespace Client
variable {c : Client} {α : Type}

/-- An operation that always fails, with nothing changed but the supply, leaves the tables as they
were; a transaction that was given is taken back. -/
theorem tables_of_failure (hnumbered : c.store.Numbered) {entity : String} {e : Entity}
    (he : c.schema.entity? entity = some e) {r : Request α}
    (hop : ∀ t, Triple (· = ⟨c.store.tables, t, c.supply, [], []⟩) (r.operation c.schema e)
      (fun _ _ => False) fun _ w => Work.Since ⟨c.store.tables, t, c.supply, [], []⟩ w)
    (tx : Option Nat) :
    (∃ err, (c.ask entity r tx).result = .error err) ∧
      (c.ask entity r tx).client.store.tables =
        (tx.elim c.store c.store.abort).tables := by
  -- Each way to run it gives back the store that it was run in.
  have hrun (d : Client) (htables : d.store.tables = c.store.tables) (hsupply : d.supply = c.supply)
      (hd : d.store.Numbered) {t : Transaction} (ht : t ∈ d.store.transactions) :
      ∃ err supply, d.run t (r.operation c.schema e) = (.error err, { d with supply }) := by
    have h := hop t _ rfl
    unfold run
    rw [htables, hsupply]
    cases hr : (r.operation c.schema e).run ⟨c.store.tables, t, c.supply, [], []⟩ with
    | ok a w =>
      rw [hr] at h
      exact h.elim
    | error err w =>
      rw [hr] at h
      obtain ⟨supply, rfl⟩ := h
      have hself : d.store.setTransaction t = d.store :=
        congrArg (fun ts => { d.store with transactions := ts }) (hd.setTransaction_self ht)
      refine ⟨err, supply, ?_⟩
      simp only [hself, ← htables]
  have hrequire : c.schema.require entity = .ok e := Option.elim_ok_eq_ok.2 he
  cases tx with
  | some id =>
    simp only [ask, hrequire, Option.elim]
    have hruns := c.runsIn id (r.operation c.schema e)
    generalize c.runIn id (r.operation c.schema e) = o at hruns ⊢
    cases hruns with
    | missing htx => exact ⟨⟨_, rfl⟩, by simp [Store.abort, htx]⟩
    | failed htx h =>
      obtain ⟨err, supply, h'⟩ := hrun c rfl rfl hnumbered (Store.transaction?_eq_some htx).1
      obtain ⟨-, rfl⟩ := Prod.mk.inj (h.symm.trans h')
      exact ⟨⟨_, rfl⟩, rfl⟩
    | done htx h =>
      obtain ⟨err, supply, h'⟩ := hrun c rfl rfl hnumbered (Store.transaction?_eq_some htx).1
      cases h.symm.trans h'
  | none =>
    simp only [ask, hrequire, Option.elim]
    generalize c.schema.neededTables e r.query r.access = names
    generalize (if r.access.writes then TransactionMode.readWrite else .readOnly) = mode
    have hbegun {id : Nat} {store : Store}
        (hb : c.store.beginTransaction names mode = .ok (id, store)) :
        store.tables = c.store.tables := by
      rw [(Store.beginTransaction_ok hb).2.2]
    have hrunAlone {id : Nat} {store : Store} {t : Transaction}
        (hb : c.store.beginTransaction names mode = .ok (id, store))
        (htx : store.transaction? id = some t) := hrun (c.withStore store) (hbegun hb) rfl
      (hnumbered.begin hb) (Store.transaction?_eq_some htx).1
    have hruns := c.runsAlone names mode (r.operation c.schema e)
    generalize c.runAlone names mode (r.operation c.schema e) = o at hruns ⊢
    cases hruns with
    | refused hb => exact ⟨⟨_, rfl⟩, rfl⟩
    | missing hb htx => exact ⟨⟨_, rfl⟩, hbegun hb⟩
    | @failed id store _ _ _ hb htx h =>
      obtain ⟨err, supply, h'⟩ := hrunAlone hb htx
      obtain ⟨-, rfl⟩ := Prod.mk.inj (h.symm.trans h')
      refine ⟨⟨_, rfl⟩, ?_⟩
      -- Nothing was written, so there is nothing to take back.
      have habort := Store.abort_of_active (hnumbered.transaction?_begin hb) rfl
      have hdrop : (store.abort id).tables = store.tables := by
        rw [habort]
        rfl
      exact hdrop.trans (hbegun hb)
    | uncommitted hb htx h =>
      obtain ⟨err, supply, h'⟩ := hrunAlone hb htx
      cases h.symm.trans h'
    | done hb htx h =>
      obtain ⟨err, supply, h'⟩ := hrunAlone hb htx
      cases h.symm.trans h'

/-- A request to create, with data of the row's own fields, that is answered has stored one row: the
draft of the data, which is found under its key. Every other row of every table is as it was. With
data that no row can be made of the request fails, and nothing is stored. -/
theorem ask_create_gains {defs : List EntityDef} {s : Schema} (hs : Schema.ofDefs defs = .ok s)
    (hc : c.Reached s) {entity : String} {e : Entity} (he : s.entity? entity = some e) {q : Query}
    {data : WriteData} (hdata : q.data = some (.one data)) (hplain : data.writesRelations = false)
    (tx : Option Nat) :
    let left := c.ask entity (.create q) tx
    (∀ record, left.result = .ok record → ∃ row, e.Drafts c.store.tables c.supply data row ∧
      c.store.tables.Gains entity row left.client.store.tables) ∧
    (e.Refuses data → (∃ err, left.result = .error err) ∧
      left.client.store.tables = (tx.elim c.store c.store.abort).tables) := by
  have hresolved := Schema.Resolved.ofDefs hs
  have hschema : c.schema = s := hc.schema
  obtain rfl := hresolved.name he
  intro left
  constructor
  · intro record hrecord
    obtain ⟨e', t, w, he', hrun, htables⟩ := ask_ok hrecord
    rw [hschema] at he' hrun
    cases he.symm.trans he'
    rw [htables]
    exact Triple.of_run hrun (Operation.create_gains hresolved he hdata hplain _)
  · intro hrefuses
    refine tables_of_failure hc.numbered (by rw [hschema, he]) (fun t => ?_) tx
    rw [hschema]
    refine Triple.mono (Operation.create_gains hresolved he hdata hplain _) (fun _ h => h)
      (fun _ w h => ?_) fun _ w h => h hrefuses
    obtain ⟨row, hdrafts, -⟩ := h
    exact hdrafts.not_refuses hrefuses

end Client

/-! ### A diary -/

/-- Numbered entries. -/
def EntityDef.diary : List EntityDef :=
  [{ name := "entry",
     fields := [{ name := "id", kind := .int, id := true, default := some .autoIncrement },
       { name := "title", kind := .string, required := true },
       { name := "tags", kind := .string, list := true },
       { name := "editedAt", kind := .datetime, updatedAt := true }] }]

namespace Client

/-- An entry has a title, tags if they are given, and no color. -/
def entry (title : String) (more : List (String × Json)) : Request Record :=
  .create (.ofFields (("title", .string title) :: more))

/-- The next entry gets the next number. One with a color is refused. -/
theorem ask_create_gains_diary : ∃ (c : Client) (e : Entity),
    Schema.ofDefs EntityDef.diary = .ok c.schema ∧ c.Reached c.schema ∧
      c.schema.entity? "entry" = some e ∧ c.keyTexts "entry" = ["1"] ∧
      (∃ row, e.Drafts c.store.tables c.supply ⟨[("title", .literal (.string "Tuesday"))]⟩ row ∧
        c.store.tables.Gains "entry" row
          (c.ask "entry" (entry "Tuesday" []) none).client.store.tables) ∧
      (c.ask "entry" (entry "Tuesday" []) none).client.keyTexts "entry" = ["1", "2"] ∧
      (c.ask "entry" (entry "Tuesday" [("color", .string "red")]) none).client.store.tables =
        c.store.tables := by
  have hruns : (openMemory EntityDef.diary).toOption.any fun c₀ =>
      let c := c₀.after (.ask "entry" (entry "Monday" []) none)
      let left := c.ask "entry" (entry "Tuesday" []) none
      c.keyTexts "entry" = ["1"] ∧ left.result.toOption.isSome ∧
        left.client.keyTexts "entry" = ["1", "2"] ∧
        (c.schema.entity? "entry").any fun e => (e.field? "color").isNone := by
    decide +kernel
  obtain ⟨c₀, hs, hc₀, -, hbefore, hdone, hafter, hnames⟩ := exists_openMemory hruns
  let c := c₀.after (.ask "entry" (entry "Monday" []) none)
  have hschema : c.schema = c₀.schema := schema_after c₀ _
  have hreached : c.Reached c.schema := by
    rw [hschema]
    exact ⟨c₀, hc₀, [.ask "entry" (entry "Monday" []) none], rfl⟩
  rw [← hschema] at hs
  obtain ⟨e, he, hcolor⟩ := (Option.any_eq_true _ _).1 hnames
  obtain ⟨record, hrecord⟩ := Option.isSome_iff_exists.1 hdone
  have hgains := ask_create_gains hs hreached he (q := .ofFields [("title", .string "Tuesday")])
    rfl rfl none
  have hrefused := ask_create_gains hs hreached he
    (q := .ofFields [("title", .string "Tuesday"), ("color", .string "red")]) rfl rfl none
  refine ⟨c, e, hs, hreached, he, hbefore, hgains.1 record (Except.toOption_eq_some.1 hrecord),
    hafter, (hrefused.2 ?_).2⟩
  have hwrite : ("color", .literal (.string "red")) ∈
      [("title", FieldWrite.literal (.string "Tuesday")), ("color", .literal (.string "red"))] := by simp
  exact .unknown hwrite (Option.isNone_iff_eq_none.1 hcolor)

end Client

end RelationalStore

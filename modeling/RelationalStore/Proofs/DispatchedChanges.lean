import RelationalStore.Proofs.RecordedDeletions

/- What listeners hear of a request that writes. A request that is answered has noted one change for
   each row that it wrote, in order, and none that it did not write (`Client.ask_recorded`): its
   undo log has an entry for each of them, and replaying the changes on the primary keys of before
   gives those of after. Each listener hears of the changes it has subscribed to, once for each of
   its subscriptions and in the same order. -/
namespace RelationalStore

/-! ### Listeners -/

namespace Client

/-- How often a listener hears of a change: once for each of its subscriptions to changes of that
kind of the entity. -/
def hearings (c : Client) (listener : String) (change : Change) : Nat :=
  ((c.notifiers.get? change.entity).elim [] (·.subscriptions)).countP fun subscription =>
    subscription.listener == listener && subscription.kinds.contains change.kind

theorem heard_change (n : Notifier) (listener : String) (change : Change) :
    ((n.deliveries change).filter (·.listener == listener)).map (·.change) =
      List.replicate (n.subscriptions.countP fun subscription =>
        subscription.listener == listener && subscription.kinds.contains change.kind) change := by
  rw [Notifier.deliveries, List.filter_map, List.map_map, List.filter_filter, List.countP_eq_length_filter]
  exact List.map_const'

/-- What a listener hears of some changes. -/
theorem heard_eq (c : Client) (listener : String) (changes : List Change) :
    ((c.deliveries changes).filter (·.listener == listener)).map (·.change) =
      changes.flatMap fun change => List.replicate (c.hearings listener change) change := by
  induction changes with
  | nil => rfl
  | cons change rest ih =>
    rw [List.flatMap_cons, ← ih, deliveries, List.flatMap_cons, List.filter_append, List.map_append]
    refine congrArg (· ++ _) ?_
    rw [hearings]
    cases c.notifiers.get? change.entity with
    | none => rfl
    | some n => exact heard_change n listener change

end Client

/-! ### Requests -/

/-- A request that writes, put to a client in whose tables the numbers of primary keys are of the
classes of their fields: if it is answered, its operation has noted one change for each of its writes,
for a row that was not there one of a new row, for a row that was replaced one of an update, and for a
row that went one of a deletion; the keys in the end are those that replaying the changes gives; and
these are the changes that listeners hear of. -/
theorem Client.ask_recorded {defs : List EntityDef} {s : Schema} (hs : Schema.ofDefs defs = .ok s)
    (halone : s.KeysAlone) {c : Client} (hc : c.schema = s) (hsorted : s.KeysInOrder c.store.tables)
    {q : Query} {α : Type} {r : Request α} (hr : r.Writes q) (entity : String) (tx : Option Nat)
    {a : α} (ha : (c.ask entity r tx).result = .ok a) :
    ∃ e t w, s.entity? entity = some e ∧
      (r.operation s e).run ⟨c.store.tables, t, c.supply, [], []⟩ = .ok a w ∧
      (c.ask entity r tx).client.store.tables = w.tables ∧
      t.Records c.store.tables w.changes w.transaction w.tables ∧
      w.transaction.undo.map (fun u => (u.table, u.key)) =
        (w.changes.map fun change => (change.entity, change.key)).reverse ++
          t.undo.map (fun u => (u.table, u.key)) ∧
      w.tables.primaryKeys = w.changes.foldl Change.replay c.store.tables.primaryKeys ∧
      ∀ listener,
        ((c.ask entity r tx).deliveries.filter (·.listener == listener)).map (·.change) =
          w.changes.flatMap fun change =>
            List.replicate ((c.ask entity r tx).client.hearings listener change) change := by
  have hresolved := Schema.Resolved.ofDefs hs
  obtain ⟨e, t, w, he, hrun, hdeliveries, hleft⟩ := ask_answered ha
  rw [hc] at he hrun
  obtain rfl := hresolved.name he
  let l : Ledger := ⟨s, c.store.tables, t, hresolved, halone⟩
  have hopened : l.Stands ∅ ∅ ⟨c.store.tables, t, c.supply, [], []⟩ :=
    ⟨.opened hsorted c.supply, Set.empty_subset _, by simp⟩
  have hkeeps := hr.carries (l := l) he _ hopened
  rw [hrun] at hkeeps
  obtain ⟨⟨⟨-, hrecords, hreplayed⟩, -, -⟩, -⟩ := hkeeps
  refine ⟨e, t, w, he, hrun, hleft.tables, hrecords, hrecords.undo, hreplayed, fun listener => ?_⟩
  rw [hdeliveries, heard_eq]
  simp only [hearings, hleft.notifiers]

/-! ### Items -/

/-- Items with a number and a note. -/
def EntityDef.items : List EntityDef :=
  [{ name := "item",
     fields := [{ name := "id", kind := .int, id := true }, { name := "note", kind := .string }] }]

namespace Client

/-- The primary keys of the rows of a table as they are written. -/
def rowKeyTexts (c : Client) (table : String) : List String :=
  (c.store.tables.get? table).toList.flatMap fun t => t.toList.map fun row => (t.keyOf row).text

/-- Three items with numbers of three kinds, of which two are put past the engine, and a listener. -/
def disorder : List Action :=
  [.ask "item" (.create (.ofFields [("id", .int 18014398509481985)])) none,
   .begin ["item"] .readWrite,
   .put 2 "item" (SortedMap.ofList [("id", .bigint 18014398509481986)]),
   .put 2 "item" (SortedMap.ofList [("id", .decimal (.ofInt 18014398509481984))]),
   .commit 2,
   .subscribe "item" [.create, .update, .delete] "all"]

theorem mem_rowKeyTexts {c : Client} {table text : String} :
    text ∈ c.rowKeyTexts table ↔
      ∃ key, (table, key) ∈ c.store.tables.primaryKeys ∧ key.text = text := by
  simp only [rowKeyTexts, List.mem_flatMap, Option.mem_toList, List.mem_map, Tables.primaryKeys,
    Set.mem_ofPred_eq]
  constructor
  · intro htext
    obtain ⟨t, ht, row, hrow, htext⟩ := htext
    exact ⟨t.keyOf row, ⟨t, ht, row, hrow, rfl⟩, htext⟩
  · intro hkey
    obtain ⟨_, ⟨t, ht, row, hrow, rfl⟩, htext⟩ := hkey
    exact ⟨t, ht, row, hrow, htext⟩

/-- Where numbers of different kinds are keys, the row that an update is put in place of need not be the
one that was read: item 18014398509481984 has gone, and the one listener has heard of an update only. -/
theorem ask_recorded_misses : ∃ c₀ : Client,
    Schema.ofDefs EntityDef.items = .ok c₀.schema ∧ c₀.Opened c₀.schema ∧ c₀.schema.KeysAlone ∧
      let c := disorder.foldl after c₀
      let left := c.ask "item" (.update { Query.ofFields [("note", .string "x")] with
        filter := (Query.ofId 18014398509481986).filter }) none
      left.result.isOk = true ∧ left.deliveries.map (·.change.kind) = [.update] ∧
        left.client.store.tables.primaryKeys ≠
          (left.deliveries.map (·.change)).foldl Change.replay c.store.tables.primaryKeys := by
  have hruns : (openMemory EntityDef.items).toOption.any fun c₀ =>
      let c := disorder.foldl after c₀
      let left := c.ask "item" (.update { Query.ofFields [("note", .string "x")] with
        filter := (Query.ofId 18014398509481986).filter }) none
      c₀.schema.KeysAlone ∧ left.result.isOk = true ∧
        left.deliveries.map (·.change.kind) = [.update] ∧
          "\"18014398509481984\"" ∈ c.rowKeyTexts "item" ∧
            "\"18014398509481984\"" ∉ left.client.rowKeyTexts "item" := by
    decide +kernel
  obtain ⟨c₀, hs, hc₀, -, halone, hdone, hkinds, hbefore, hafter⟩ := exists_openMemory hruns
  refine ⟨c₀, hs, hc₀, halone, hdone, hkinds, fun heq => hafter ?_⟩
  obtain ⟨key, hkey, htext⟩ := mem_rowKeyTexts.1 hbefore
  refine mem_rowKeyTexts.2 ⟨key, ?_, htext⟩
  obtain ⟨delivery, hdelivery, hkind⟩ := List.map_eq_singleton_iff.1 hkinds
  rw [heq, hdelivery]
  simpa [Change.replay, hkind] using hkey

/-- Friends who have written a letter, and one who hears of the persons that go. -/
def farewell : List Action := befriend ++ [.subscribe "person" [.delete] "left"]

theorem regular_farewell (c : Client) : ∀ a ∈ farewell, a.Regular c.schema.classes c.store.tables := by
  intro a ha
  obtain rfl | rfl | rfl | rfl | rfl : a = _ ∨ a = _ ∨ a = _ ∨ a = _ ∨ a = _ := by
    simpa [farewell, befriend] using ha
  · exact ⟨_, .inl .create⟩
  · exact ⟨_, .inl .create⟩
  · exact ⟨_, .inl .update⟩
  · exact ⟨_, .inl .create⟩
  · trivial

/-- The deletion of a person who is a friend of a friend is heard of in the order of the writes: the
letter has no author any more, and the two friends have gone. -/
theorem ask_recorded_befriended : ∃ c₀ : Client,
    Schema.ofDefs EntityDef.circle = .ok c₀.schema ∧ c₀.schema.KeysAlone ∧
      let c := farewell.foldl after c₀
      let left := c.ask "person" (.delete (.ofId 1)) none
      left.deliveries.map (fun d : Delivery => (d.change.kind, d.change.key.text)) =
          [(ChangeKind.delete, "2"), (ChangeKind.delete, "1")] ∧
        ∃ changes : List Change,
          left.client.store.tables.primaryKeys =
            changes.foldl Change.replay c.store.tables.primaryKeys ∧
          (left.deliveries.filter (·.listener == "left")).map (·.change) =
            changes.flatMap fun change => List.replicate (left.client.hearings "left" change) change := by
  have hruns : (openMemory EntityDef.circle).toOption.any fun c₀ =>
      let c := farewell.foldl after c₀
      let left := c.ask "person" (.delete (.ofId 1)) none
      c₀.schema.KeysAlone ∧ c₀.schema.KeysOfKinds ∧ left.result.toOption.isSome ∧
        left.deliveries.map (fun d : Delivery => (d.change.kind, d.change.key.text)) =
          [(ChangeKind.delete, "2"), (ChangeKind.delete, "1")] := by
    decide +kernel
  obtain ⟨c₀, hs, hc₀, hholds, halone, hkinds, hdone, hheard⟩ := exists_openMemory hruns
  obtain ⟨a, ha⟩ := Option.isSome_iff_exists.1 hdone
  obtain ⟨hschema, hnow⟩ :=
    holds_foldl (Schema.Resolved.ofDefs hs) hkinds hc₀ hholds (regular_farewell c₀)
  obtain ⟨e, t, w, -, -, htables, -, -, hreplayed, hlisteners⟩ :=
    ask_recorded hs halone hschema hnow.keysInOrder .delete "person" none (Except.toOption_eq_some.1 ha)
  refine ⟨c₀, hs, halone, hheard, w.changes, ?_, hlisteners "left"⟩
  rw [htables, hreplayed]

end Client

end RelationalStore

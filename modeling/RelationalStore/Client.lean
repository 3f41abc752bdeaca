import RelationalStore.Engine.Request
import RelationalStore.Store

/- A client: a schema, the store of its tables, and a notifier for each entity. A request runs in a
   transaction that is given, or in one of its own over the tables that it needs. If it fails the
   transaction is aborted, in either case. Listeners hear of the changes when the request is done,
   or after the commit where the transaction is the request's own. -/
namespace RelationalStore

structure Client where
  schema : Schema
  store : Store
  /-- The notifier of each entity. -/
  notifiers : SortedMap String Notifier
  supply : Supply

/-- What comes of a request: its answer, the client after it, and who hears of what. -/
structure Outcome (α : Type) where
  result : Except Error α
  client : Client
  deliveries : List Delivery := []

namespace Client

/-- A client of a store without entities. -/
def ofStore (store : Store) (supply : Supply) : Client := ⟨⟨∅⟩, store, ∅, supply⟩

/-- What is left of opening a client: the client or the reason that there is none, and the
directory. -/
structure Opening where
  result : Except Error Client
  directory : Directory

/-- Opens the store that a configuration describes, with one table for each entity. -/
def openWith (schema : Schema) (c : Config) (supply : Supply) (d : Directory) : Opening :=
  let steps := schema.entities.values.map fun e => .createTable e.tableDef
  let opening := Store.openWith c steps d
  { result := opening.result.map fun store =>
      ⟨schema, store, schema.entities.mapValues fun _ => {}, supply⟩,
    directory := opening.directory }

/-! ### Notifications -/

/-- Subscribes to changes of an entity. -/
def subscribe (c : Client) (entity : String) (kinds : List ChangeKind) (listener : String) :
    Except Error (Nat × Client) := do
  discard (c.schema.require entity)
  let (id, n) := ((c.notifiers.get? entity).getD {}).subscribe kinds listener
  return (id, { c with notifiers := c.notifiers.insert entity n })

/-- Ends a subscription to changes of an entity; false if there is none of that number. -/
def unsubscribe (c : Client) (entity : String) (id : Nat) : Except Error (Bool × Client) := do
  discard (c.schema.require entity)
  let (found, n) := ((c.notifiers.get? entity).getD {}).unsubscribe id
  return (found, { c with notifiers := c.notifiers.insert entity n })

/-- Who hears of some changes. -/
def deliveries (c : Client) (changes : List Change) : List Delivery :=
  changes.flatMap fun change =>
    (c.notifiers.get? change.entity).elim [] (·.deliveries change)

/-! ### Requests -/

/-- Runs an operation in an open transaction. The store has what the operation wrote, whether it
fails or not. -/
def run {α : Type} (c : Client) (tx : Transaction) (op : Operation α) :
    Except Error (α × List Change) × Client :=
  let after (w : Work) : Client :=
    { c with store := { c.store.setTransaction w.transaction with tables := w.tables },
             supply := w.supply }
  match op.run ⟨c.store.tables, tx, c.supply, [], []⟩ with
  | .ok a w => (.ok (a, w.changes), after w)
  | .error e w => (.error e, after w)

/-- Runs an operation in a transaction that is given; one that fails aborts it. -/
def runIn {α : Type} (c : Client) (id : Nat) (op : Operation α) : Outcome α :=
  match c.store.transaction? id with
  | none => ⟨.error .transactionInactive, c, []⟩
  | some tx =>
    match c.run tx op with
    | (.ok (a, changes), c) => ⟨.ok a, c, c.deliveries changes⟩
    | (.error e, c) => ⟨.error e, { c with store := c.store.abort id }, []⟩

/-- Runs an operation in a transaction of its own over some tables. -/
def runAlone {α : Type} (c : Client) (tables : List String) (mode : TransactionMode)
    (op : Operation α) : Outcome α :=
  match c.store.beginTransaction tables mode with
  | .error e => ⟨.error e, c, []⟩
  | .ok (id, store) =>
    let opened := { c with store }
    match store.transaction? id with
    | none => ⟨.error .transactionInactive, opened, []⟩
    | some tx =>
      match opened.run tx op with
      | (.error e, c) => ⟨.error e, { c with store := c.store.drop id }, []⟩
      | (.ok (a, changes), c) =>
        let (committed, store) := c.store.commit id
        let c := { c with store }
        match committed with
        | .ok _ => ⟨.ok a, c, c.deliveries changes⟩
        | .error e => ⟨.error e, c, []⟩

/-- Puts a request to an entity, in a transaction that is given or in one of its own. -/
def ask {α : Type} (c : Client) (entity : String) (r : Request α) (tx : Option Nat) : Outcome α :=
  match c.schema.require entity with
  | .error e => ⟨.error e, c, []⟩
  | .ok e =>
    let op := r.operation c.schema e
    match tx with
    | some id => c.runIn id op
    | none =>
      let mode := if r.access.writes then .readWrite else .readOnly
      c.runAlone (c.schema.neededTables e r.query r.access) mode op

/-- The tables that a request of an entity needs. -/
def neededTables (c : Client) (entity : String) (q : Query) (access : Access) :
    Except Error (List String) := do
  return c.schema.neededTables (← c.schema.require entity) q access

end Client

end RelationalStore

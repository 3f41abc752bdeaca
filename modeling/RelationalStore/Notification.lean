import RelationalStore.Value

/- Notifications of changes. Each entity has a notifier, which keeps the subscriptions to its
   changes under numbers from 1 on. A change is delivered to every subscription to its kind, in the
   order in which they were made. -/
namespace RelationalStore

/-- What happened to a row. -/
inductive ChangeKind where
  | create
  | update
  | delete
  deriving DecidableEq, Inhabited

namespace ChangeKind

def name : ChangeKind → String
  | .create => "create"
  | .update => "update"
  | .delete => "delete"

def ofName? (name : String) : Option ChangeKind := [create, update, delete].find? (·.name == name)

end ChangeKind

/-- A change of one row. -/
structure Change where
  entity : String
  kind : ChangeKind
  key : Key

/-- A listener and the kinds of changes that it hears of. -/
structure Subscription where
  id : Nat
  kinds : List ChangeKind
  listener : String

/-- A change that a listener hears of. -/
structure Delivery where
  listener : String
  change : Change

/-- The subscriptions to the changes of one entity. -/
structure Notifier where
  nextId : Nat := 1
  subscriptions : List Subscription := []
  deriving Inhabited

namespace Notifier

/-- Adds a subscription and gives its number. -/
def subscribe (n : Notifier) (kinds : List ChangeKind) (listener : String) : Nat × Notifier :=
  (n.nextId,
    { nextId := n.nextId + 1, subscriptions := n.subscriptions ++ [⟨n.nextId, kinds, listener⟩] })

/-- Removes a subscription; false if there is none of that number. -/
def unsubscribe (n : Notifier) (id : Nat) : Bool × Notifier :=
  (n.subscriptions.any (·.id == id),
    { n with subscriptions := n.subscriptions.filter (·.id != id) })

/-- Who hears of a change. -/
def deliveries (n : Notifier) (change : Change) : List Delivery :=
  (n.subscriptions.filter (·.kinds.contains change.kind)).map (⟨·.listener, change⟩)

end Notifier

end RelationalStore

import RelationalStore.Engine.View
import RelationalStore.Notification
import RelationalStore.Supply

/- Operations that change rows. An operation works on the tables in one transaction, draws new
   values from a supply, and keeps a list of the changes it made. One that fails keeps what it had
   done by then; aborting its transaction takes that back. -/
namespace RelationalStore

/-- What an operation works on. -/
structure Work where
  tables : Tables
  transaction : Transaction
  supply : Supply
  /-- The changes, in the order in which they were made. -/
  changes : List Change := []
  /-- The rows whose deletion has begun. -/
  deleting : List (String × Key) := []

/-- An operation, or a part of one. -/
abbrev Operation (α : Type) := EStateM Error Work α

namespace Operation

/-- A reading of the tables as they are now. -/
def look {α : Type} (s : Schema) (reading : View → Read α) : Operation α := do
  let w ← get
  MonadExcept.ofExcept (reading ⟨s, w.tables, w.transaction⟩)

/-- Notes a change of a row. -/
def note (e : Entity) (kind : ChangeKind) (key : Key) : Operation Unit :=
  modify fun w => { w with changes := w.changes ++ [⟨e.name, kind, key⟩] }

/-- Makes the outcome of a write the state of the work. -/
def settle {α : Type} (outcome : Except Error (α × Transaction × Tables)) : Operation α := do
  let (a, transaction, tables) ← MonadExcept.ofExcept outcome
  modify fun w => { w with transaction, tables }
  return a

/-- Adds a row. -/
def addRow (e : Entity) (row : Row) : Operation Key := do
  let w ← get
  let key ← settle (w.transaction.add w.tables e.name row)
  note e .create key
  return key

/-- Puts a row in place of the one with its key, if there is one. -/
def putRow (e : Entity) (row : Row) : Operation Key := do
  let w ← get
  settle (w.transaction.put w.tables e.name row)

/-- Puts a row whose key is that of a row there was. -/
def changeRow (e : Entity) (row : Row) : Operation Unit := do
  note e .update (← putRow e row)

/-- Deletes the row under a key. -/
def deleteRow (e : Entity) (key : Key) : Operation Unit := do
  let w ← get
  discard (settle (w.transaction.delete w.tables e.name key))
  note e .delete key

/-- Notes that the deletion of a row begins; false if it had begun before. -/
def beginDelete (e : Entity) (key : Key) : Operation Bool := do
  let w ← get
  if w.deleting.any fun (name, k) => name == e.name && k.equiv key then return false
  else
    set { w with deleting := (e.name, key) :: w.deleting }
    return true

/-- The current time. -/
def now : Operation DateTime := do
  let w ← get
  let (time, supply) := w.supply.now
  set { w with supply }
  return time

/-- A fresh token. -/
def token : Operation Nat := do
  let w ← get
  let (n, supply) := w.supply.token
  set { w with supply }
  return n

end Operation

end RelationalStore

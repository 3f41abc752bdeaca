import RelationalStore.Table

/- Transactions over a fixed set of tables. Writes go into the tables at once and are noted in an
   undo log; aborting replays the log backwards. An open transaction locks its tables: readers share
   a table, a writer excludes everyone else. Whether a lock is free follows from the open
   transactions alone. -/
namespace RelationalStore

inductive TransactionMode where
  | readOnly
  | readWrite
  deriving DecidableEq, Inhabited

/-- The state that one key of a table had before a write. -/
structure Undo where
  table : String
  key : Key
  previous : Option Row

structure Transaction where
  id : Nat
  mode : TransactionMode
  /-- The names of its tables in increasing order. -/
  scope : List String
  active : Bool := true
  /-- What its writes replaced, the latest first. -/
  undo : List Undo := []

namespace Transaction

/-- The tables it has written to, in the order of their names. -/
def dirty (tx : Transaction) : List String := (SortedSet.ofList (tx.undo.map (·.table))).keys

/-- Whether it holds a lock that keeps a transaction of the given mode from a table. -/
def blocks (tx : Transaction) (mode : TransactionMode) (table : String) : Bool :=
  tx.active && tx.scope.contains table && (tx.mode == .readWrite || mode == .readWrite)

/-- The table of that name, as the transaction sees it. -/
def table (tx : Transaction) (tables : Tables) (name : String) : Except Error Table :=
  if !tx.active then .error .transactionInactive
  else if tx.scope.contains name then
    (tables.get? name).elim (.error (.tableNotInScope name)) .ok
  else .error (.tableNotInScope name)

/-- As `table`, for a write. -/
def tableToWrite (tx : Transaction) (tables : Tables) (name : String) : Except Error Table := do
  let t ← tx.table tables name
  if tx.mode = .readWrite then return t else throw (.readOnlyTransaction name)

def note (tx : Transaction) (u : Undo) : Transaction := { tx with undo := u :: tx.undo }

/-- Adds a row to a table. -/
def add (tx : Transaction) (tables : Tables) (name : String) (row : Row) :
    Except Error (Key × Transaction × Tables) := do
  let t ← tx.tableToWrite tables name
  let (key, next) ← t.add row
  return (key, tx.note ⟨t.name, key, none⟩, tables.insert name next)

/-- Puts a row into a table. -/
def put (tx : Transaction) (tables : Tables) (name : String) (row : Row) :
    Except Error (Key × Transaction × Tables) := do
  let t ← tx.tableToWrite tables name
  let previous := t.get? (t.keyOf row)
  let (key, next) ← t.put row
  return (key, tx.note ⟨t.name, key, previous⟩, tables.insert name next)

/-- Deletes the row under a key from a table; without such a row nothing is noted. -/
def delete (tx : Transaction) (tables : Tables) (name : String) (key : Key) :
    Except Error (Option Row × Transaction × Tables) := do
  let t ← tx.tableToWrite tables name
  match t.delete key with
  | (none, _) => return (none, tx, tables)
  | (some row, next) =>
    return (some row, tx.note ⟨t.name, key, some row⟩, tables.insert name next)

/-- Takes one write back. -/
def undoOne (tables : Tables) (u : Undo) : Tables :=
  match tables.get? u.table with
  | some t => tables.insert u.table (t.restore u.key u.previous)
  | none => tables

/-- The tables without the transaction's writes. -/
def rollback (tx : Transaction) (tables : Tables) : Tables := tx.undo.foldl undoOne tables

/-- Takes every write back and releases the locks; an inactive transaction stays as it is. -/
def abort (tx : Transaction) (tables : Tables) : Transaction × Tables :=
  if tx.active then ({ tx with active := false, undo := [] }, tx.rollback tables)
  else (tx, tables)

end Transaction

end RelationalStore

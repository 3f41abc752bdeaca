import RelationalStore.Table.Definition
import RelationalStore.Error

/- A table: its rows by primary key, and its indexes. An index holds, for each value of its fields,
   the set of the keys of the rows with that value; a row with a null among the fields has no entry,
   so a unique index constrains only rows whose fields are all present. `add`, `put` and `delete`
   keep rows and indexes in step; `restore` puts an earlier state of one key back. -/
namespace RelationalStore

/-- An index: the keys of the rows with each value. -/
structure Index where
  definition : IndexDef
  entries : SortedMap Key (SortedSet Key)

namespace Index

def ofDef (d : IndexDef) : Index := ⟨d, ∅⟩

/-- The value of the index's fields in a row, if none of them is null. -/
def valueOf? (i : Index) (row : Row) : Option Key :=
  let value := Key.ofRow i.definition.fields row
  if value.hasNull then none else some value

/-- The keys of the rows with the given value. -/
def keysAt (i : Index) (value : Key) : List Key := (i.entries.get? value).elim [] (·.keys)

/-- Enters a row under its key. -/
def enter (i : Index) (key : Key) (row : Row) : Index :=
  match i.valueOf? row with
  | none => i
  | some value =>
    let keys := (i.entries.get? value).getD ∅
    { i with entries := i.entries.insert value (SortedSet.add keys key) }

/-- Takes a row's entry out; a value without keys has no entry. -/
def withdraw (i : Index) (key : Key) (row : Row) : Index :=
  match i.valueOf? row with
  | none => i
  | some value =>
    match i.entries.get? value with
    | none => i
    | some keys =>
      let keys := keys.erase key
      { i with
        entries := if keys.isEmpty then i.entries.erase value else i.entries.insert value keys }

/-- Whether a unique index has the row's value under another key. -/
def isTaken (i : Index) (key : Key) (row : Row) : Bool :=
  i.definition.unique &&
    (i.valueOf? row).any fun value => (i.keysAt value).any fun owner => !owner.equiv key

end Index

structure Table where
  definition : TableDef
  rows : SortedMap Key Row
  indexes : List Index

namespace Table

/-- The table without rows. -/
def ofDef (d : TableDef) : Table := ⟨d, ∅, d.indexes.map Index.ofDef⟩

def name (t : Table) : String := t.definition.name

def size (t : Table) : Nat := t.rows.size

/-- The primary key of a row. -/
def keyOf (t : Table) (row : Row) : Key := Key.ofRow t.definition.keyPath row

def get? (t : Table) (key : Key) : Option Row := t.rows.get? key

/-- The rows in the order of their keys. -/
def toList (t : Table) : List Row := t.rows.values

def lastKey? (t : Table) : Option Key := t.rows.lastKey?

/-- The name of the first index over exactly these fields. -/
def indexFor? (t : Table) (fields : List String) : Option String :=
  (t.indexes.find? (·.definition.fields == fields)).map (·.definition.name)

/-- The rows with a value in the first index of that name, in the order of their keys. -/
def lookup (t : Table) (index : String) (value : Key) : Except Error (List Row) :=
  match t.indexes.find? (·.definition.name == index) with
  | some i => .ok ((i.keysAt value).filterMap t.get?)
  | none => .error (.indexNotFound t.name index)

/-- The key of a row that is to be stored; no part of it may be null. -/
def requireKey (t : Table) (row : Row) : Except Error Key :=
  let key := t.keyOf row
  if key.hasNull then
    .error (.invalidValue t.name (",".intercalate t.definition.keyPath) .nullKey)
  else .ok key

/-- Fails for the first unique index that has the row's value under another key. -/
def checkUnique (t : Table) (key : Key) (row : Row) : Except Error Unit :=
  match t.indexes.find? (·.isTaken key row) with
  | some i => .error (.uniqueViolation t.name i.definition.fields)
  | none => .ok ()

/-- Stores a row under a key that has none. -/
def store (t : Table) (key : Key) (row : Row) : Table :=
  { t with rows := t.rows.insert key row, indexes := t.indexes.map (·.enter key row) }

/-- Takes the row under a key out, if there is one. -/
def remove (t : Table) (key : Key) : Table :=
  match t.get? key with
  | some old =>
    { t with rows := t.rows.erase key, indexes := t.indexes.map (·.withdraw key old) }
  | none => t

/-- Stores a new row. -/
def add (t : Table) (row : Row) : Except Error (Key × Table) := do
  let key ← t.requireKey row
  if t.rows.contains key then
    throw (.uniqueViolation t.name t.definition.keyPath)
  t.checkUnique key row
  return (key, t.store key row)

/-- Stores a row, in place of the one with its key if there is one. -/
def put (t : Table) (row : Row) : Except Error (Key × Table) := do
  let key ← t.requireKey row
  t.checkUnique key row
  return (key, (t.remove key).store key row)

/-- Removes the row under a key and gives it back. -/
def delete (t : Table) (key : Key) : Option Row × Table := (t.get? key, t.remove key)

/-- Makes `previous` the row under a key again, without any check. -/
def restore (t : Table) (key : Key) (previous : Option Row) : Table :=
  match previous with
  | some row => (t.remove key).store key row
  | none => t.remove key

/-- The table with the given rows, added one by one. -/
def ofRows (d : TableDef) (rows : List Row) : Except Error Table :=
  rows.foldlM (fun t row => (t.add row).map (·.2)) (ofDef d)

end Table

/-- The tables of a store, by name. -/
abbrev Tables := SortedMap String Table

end RelationalStore

import RelationalStore.Table

/- Declaring the tables of a store. A table that is declared again with another definition has its
   rows stored anew under it. Each declaration works on the tables in place: one that fails leaves
   what it had done by then. -/
namespace RelationalStore

/-- The tables during an upgrade, and whether any of them changed. -/
structure Upgrade where
  tables : Tables := ∅
  changed : Bool := false

namespace Upgrade

/-- A declaration, or several in a row. -/
abbrev Action (α : Type) := EStateM Error Upgrade α

def hasTable (u : Upgrade) (name : String) : Bool := u.tables.contains name

/-- Puts a new or changed table in. -/
def setChanged (t : Table) : Action Unit :=
  modify fun u => { tables := u.tables.insert t.name t, changed := true }

/-- Declares a table. The rows of a table with another definition are taken out before they are
stored anew. -/
def createTable (d : TableDef) : Action Unit := do
  match Identifier.checkEntity d.name with
  | .ok _ => pure ()
  | .error e => throw (.identifier e)
  match (← get).tables.get? d.name with
  | none => setChanged (Table.ofDef d)
  | some existing =>
    if existing.definition = d then pure ()
    else
      modify fun u => { u with tables := u.tables.erase d.name }
      match Table.ofRows d existing.toList with
      | .ok t => setChanged t
      | .error e => throw e

/-- Adds an index to a table, unless it has one of that name. -/
def createIndex (table : String) (i : IndexDef) : Action Unit := do
  match (← get).tables.get? table with
  | none => throw (.tableNotFound table)
  | some existing =>
    let d := existing.definition
    if d.indexes.any (·.name == i.name) then pure ()
    else createTable { d with indexes := d.indexes ++ [i] }

end Upgrade

/-- One step of an upgrade. -/
inductive UpgradeStep where
  | createTable (definition : TableDef)
  | createIndex (table : String) (definition : IndexDef)
  /-- Asks whether a table is declared. -/
  | hasTable (name : String)
  /-- A step whose document cannot be read. -/
  | malformed

/-- What an upgrade reports: the version it starts from, and the answers to its questions. -/
inductive UpgradeReport where
  | started (oldVersion : Nat)
  | table (name : String) (declared : Bool)

namespace UpgradeStep

def run : UpgradeStep → Upgrade.Action (List UpgradeReport)
  | .createTable d => do
    Upgrade.createTable d
    return []
  | .createIndex table i => do
    Upgrade.createIndex table i
    return []
  | .hasTable name => return [.table name ((← get).hasTable name)]
  | .malformed => throw (.storage .malformedDocument)

/-- Runs the steps in order up to the first that fails; `reports` are those made before. -/
def runAll (u : Upgrade) (reports : List UpgradeReport) :
    List UpgradeStep → Except Error Upgrade × List UpgradeReport
  | [] => (.ok u, reports)
  | step :: rest =>
    match step.run.run u with
    | .ok more u => runAll u (reports ++ more) rest
    | .error e _ => (.error e, reports)

/-- Reads a step: `create_table`, `create_index` with its `table`, or `has_table`. Definitions are
read strictly. -/
def ofJson (j : Json) : UpgradeStep :=
  match j.get? "create_table", j.get? "create_index", j.get? "has_table" with
  | some d, _, _ => (TableDef.ofJson? .strict d).elim .malformed .createTable
  | none, some d, _ =>
    match IndexDef.ofJson? .strict d, (j.get? "table").bind Json.string? with
    | some i, some table => .createIndex table i
    | _, _ => .malformed
  | none, none, some name => name.string?.elim .malformed .hasTable
  | none, none, none => .malformed

end UpgradeStep

end RelationalStore

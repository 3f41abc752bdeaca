import RelationalStore.Directory
import RelationalStore.Table
import RelationalStore.Value.Stored

/- The files of a store: a description of its tables, and one document of rows for each table.
   Changed tables are staged next to the live files first and put into place only when all of them
   are staged. -/
namespace RelationalStore

/-- The description of a store: its name, version and tables. -/
structure StoreMeta where
  name : String
  version : Nat
  tables : List TableDef

namespace StoreMeta

def indexJson (i : IndexDef) : Json :=
  .object [("name", .string i.name), ("fields", .array (i.fields.map .string)),
    ("unique", .bool i.unique)]

def tableJson (t : TableDef) : Json :=
  .object [("name", .string t.name), ("key_path", .array (t.keyPath.map .string)),
    ("indexes", .array (t.indexes.map indexJson))]

def toJson (m : StoreMeta) : Json :=
  .object [("name", .string m.name), ("version", .int m.version),
    ("tables", .array (m.tables.map tableJson))]

def ofJson? (j : Json) : Option StoreMeta := do
  let r : Reading := .loose
  let j ← r.part? ["name", "version", "tables"] j
  let name ← j.required? "name" r.text?
  let version ← j.required? "version" fun v =>
    v.natural?.bind fun n => if n < Nat.pow 2 32 then some n else none
  let tables ← j.optional? "tables" (·.arrayOf? (TableDef.ofJson? r)) []
  return { name, version, tables }

end StoreMeta

namespace Disk

def metaPath : String := ".relkv/store.yaml"

def tablePath (name : String) : String := "tables/" ++ name ++ ".json"

def stagedPath (name : String) : String := "tables/" ++ name ++ ".json.tmp"

/-- Makes the folders of a store, and its history if one is kept. -/
def prepare (git : Bool) : Directory.Action Unit := do
  Directory.makeFolder ".relkv"
  Directory.makeFolder "tables"
  if git then modify (Directory.startHistory "Initialize relkv store")

/-- The description of the store, if it was ever described. -/
def readMeta : Directory.Action (Option StoreMeta) := do
  if (← get).has metaPath then
    let text ← Directory.read metaPath
    match (Json.read? text).bind StoreMeta.ofJson? with
    | some m => return some m
    | none => throw (.storage .malformedDocument)
  else return none

def writeMeta (m : StoreMeta) : Directory.Action Unit :=
  Directory.write metaPath m.toJson.pretty

/-- Whether there is a file for a table of that name. Only what is directly in the folder of the
tables counts, and a file needs a name before its extension. -/
def hasTable (d : Directory) (name : String) : Bool :=
  !name.isEmpty && !name.toList.contains '/' && d.has (tablePath name)

/-- The table of a definition with the rows of its file; without a file it is empty. -/
def loadTable (d : TableDef) : Directory.Action Table := do
  if hasTable (← get) d.name then
    let text ← Directory.read (tablePath d.name)
    match Row.ofDocumentText? text with
    | none => throw (.storage .malformedDocument)
    | some rows =>
      match Table.ofRows d rows with
      | .ok t => return t
      | .error e => throw e
  else return Table.ofDef d

/-- Every table of a description; of two definitions of one name the later one stands. -/
def loadTables (m : StoreMeta) : Directory.Action Tables := do
  let definitions := (SortedMap.ofList (m.tables.map fun d => (d.name, d))).values
  let tables ← definitions.mapM loadTable
  return SortedMap.ofList (tables.map fun t => (t.name, t))

/-- Writes the rows of a table next to its live file. -/
def stage (t : Table) : Directory.Action Unit :=
  match Row.documentText? t.toList with
  | some text => Directory.write (stagedPath t.name) text
  | none => throw (.storage .unwritable)

/-- Puts the staged file of a table into place. -/
def publish (name : String) : Directory.Action Unit :=
  Directory.rename (stagedPath name) (tablePath name)

def writeTable (t : Table) : Directory.Action Unit := do
  stage t
  publish t.name

/-- Removes the staged files of some tables. -/
def discard (names : List String) (d : Directory) : Directory :=
  names.foldl (fun d name => d.removeFile (stagedPath name)) d

/-- Records the changes of the files, if a history is kept. -/
def record (git : Bool) (message : String) : Directory.Action Unit :=
  if git then Directory.commit message else pure ()

/-- Stages the tables in order. If one cannot be staged, none stays staged; `staged` are those
staged before. -/
def stageAll (staged : List String) : List Table → Directory.Action Unit
  | [] => pure ()
  | t :: rest => do
    try stage t
    catch e =>
      modify (discard (t.name :: staged))
      throw e
    stageAll (t.name :: staged) rest

/-- Publishes the staged files of the tables in order, up to the first that cannot be put into
place, and gives those that were published. -/
def publishAll (published : List String) :
    List Table → Directory → List String × Except Error Unit × Directory
  | [], d => (published, .ok (), d)
  | t :: rest, d =>
    match (publish t.name).run d with
    | .ok _ d => publishAll (published ++ [t.name]) rest d
    | .error e d => (published, .error e, d)

/-- Makes the changed tables permanent: stages them, publishes them and records the change. On
failure gives the tables that were published by then. -/
def flush (git : Bool) (message : String) (changed : List Table) (d : Directory) :
    List String × Except Error Unit × Directory :=
  match (stageAll [] changed).run d with
  | .error e d => ([], .error e, d)
  | .ok _ d =>
    match publishAll [] changed d with
    | (published, .error e, d) => (published, .error e, d)
    | (published, .ok _, d) =>
      match (record git message).run d with
      | .ok _ d => (published, .ok (), d)
      | .error e d => (published, .error e, d)

/-- Writes tables back that a failed commit had published; one that cannot be written is left. -/
def writeBack (tables : List Table) (d : Directory) : Directory :=
  tables.foldl (fun d t =>
    match (writeTable t).run d with
    | .ok _ d => d
    | .error _ d => d) d

end Disk

end RelationalStore

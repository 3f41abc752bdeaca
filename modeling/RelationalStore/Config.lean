import RelationalStore.Error
import RelationalStore.Json.Document

/- How a store is opened: its name, the version of its tables, where they are kept, and who signs
   the history of a directory. -/
namespace RelationalStore

/-- Where the tables are kept. -/
inductive Storage where
  | memory
  | directory (path : String) (git : Bool)
  deriving DecidableEq

/-- The author of the history of a directory. -/
structure Author where
  name : String := "relkv"
  email : String := "relkv@localhost"
  deriving DecidableEq

structure Config where
  name : String
  version : Nat := 1
  storage : Storage := .memory
  author : Author := {}
  deriving DecidableEq

namespace Storage

/-- Reads the members `type`, `path` and `git`, or the same as an array. -/
def ofJson? (j : Json) : Option Storage :=
  match j with
  | .array [.string "memory"] => some .memory
  | .array [.string "directory", .string path] => some (.directory path true)
  | .array [.string "directory", .string path, .bool git] => some (.directory path git)
  | .object _ =>
    match j.get? "type" with
    | some (.string "memory") => some .memory
    | some (.string "directory") => do
      let path ← j.required? "path" Json.string?
      let git ← j.optional? "git" Json.bool? true
      return .directory path git
    | _ => none
  | _ => none

end Storage

namespace Author

def ofJson? (j : Json) : Option Author := do
  let name ← j.required? "name" Json.scalarText?
  let email ← j.required? "email" Json.scalarText?
  return { name, email }

end Author

namespace Config

/-- Tables that live as long as the store is open. -/
def memory (name : String) : Config := { name }

/-- Tables in the files of a directory, with a history. -/
def directory (name path : String) : Config := { name, storage := .directory path true }

def withVersion (c : Config) (version : Nat) : Config := { c with version }

/-- Keeps no history. -/
def withoutGit (c : Config) : Config :=
  match c.storage with
  | .directory path _ => { c with storage := .directory path false }
  | .memory => c

/-- A version has 32 bits. -/
def versionOf? (j : Json) : Option Nat :=
  j.natural?.bind fun n => if n < Nat.pow 2 32 then some n else none

def ofDocument? (j : Json) : Option Config := do
  let name ← j.required? "name" Json.scalarText?
  let version ← j.optional? "version" versionOf? 1
  let storage ← j.optional? "storage" Storage.ofJson? .memory
  let author ← j.optional? "author" Author.ofJson? {}
  return { name, version, storage, author }

/-- The configuration of a document; the name of a store is that of an entity. -/
def ofJson (j : Json) : Except Error Config :=
  match j.document? ofDocument? with
  | none => .error (.storage .malformedDocument)
  | some c =>
    match Identifier.checkEntity c.name with
    | .ok _ => .ok c
    | .error e => .error (.identifier e)

/-- The configuration in a file; there may be no such file. -/
def load (file : Option Json) : Except Error Config :=
  match file with
  | some j => ofJson j
  | none => .error (.storage .unreadable)

end Config

end RelationalStore

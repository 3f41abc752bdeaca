import RelationalStore.Error

/- A directory as a value: files and folders by path, and an optional history of commits. A commit
   records the contents of all files; a directory has changes when its files differ from the last
   commit. Folders are not recorded. -/
namespace RelationalStore

/-- What is at a path. -/
inductive DirectoryEntry where
  | file (text : String)
  | folder
  deriving DecidableEq, Inhabited

/-- The commits of a directory: how many, the first line of the last message, and the files it
recorded. -/
structure History where
  commits : Nat
  head : String
  recorded : SortedMap String String

/-- Files and folders by path, the parts of a path separated by slashes. -/
structure Directory where
  entries : SortedMap String DirectoryEntry := ∅
  history : Option History := none

namespace Directory

/-- A step that changes a directory. A step that fails keeps what it changed before. -/
abbrev Action (α : Type) := EStateM Error Directory α

/-- The names of which a path consists. -/
def parts (path : String) : List String := (path.toList.splitOn '/').map String.ofList

/-- The folder that a path is in; the empty path is the directory itself. -/
def parent (path : String) : String := "/".intercalate (parts path).dropLast

def isFolder (d : Directory) (path : String) : Bool :=
  path.isEmpty || d.entries.get? path == some .folder

def isFile (d : Directory) (path : String) : Bool :=
  match d.entries.get? path with
  | some (.file _) => true
  | _ => false

/-- Whether there is anything at a path. -/
def has (d : Directory) (path : String) : Bool := (d.entries.get? path).isSome

/-- The files with their contents. -/
def files (d : Directory) : SortedMap String String :=
  ⟨d.entries.toList.filterMap fun
    | (path, .file text) => some (path, text)
    | (_, .folder) => none⟩

/-- The names of the entries of a folder, in increasing order. -/
def names (d : Directory) (folder : String) : List String :=
  d.entries.keys.filterMap fun path =>
    if parent path = folder then (parts path).getLast? else none

def setEntry (d : Directory) (path : String) (e : DirectoryEntry) : Directory :=
  { d with entries := d.entries.insert path e }

/-- Writes a file, given that its folder exists and that it is no folder itself. -/
def write (path text : String) : Action Unit := do
  let d ← get
  if d.isFolder (parent path) && !d.isFolder path then
    set (d.setEntry path (.file text))
  else throw (.storage .unwritable)

/-- The contents of a file. -/
def read (path : String) : Action String := do
  match (← get).entries.get? path with
  | some (.file text) => return text
  | _ => throw (.storage .unreadable)

/-- Makes a folder unless it is there; a file must not be in its place. -/
def makeFolder (path : String) : Action Unit := do
  let d ← get
  if d.isFile path then throw (.storage .unwritable) else set (d.setEntry path .folder)

/-- Moves a file into the place of another. -/
def rename (source target : String) : Action Unit := do
  let text ← read source
  write target text
  modify fun d => { d with entries := d.entries.erase source }

/-- Removes a file, or a folder with all that is in it. The history is in the folder `.git`. -/
def remove (d : Directory) (path : String) : Directory :=
  { entries := d.entries.filter fun p _ => !(p == path || p.startsWith (path ++ "/")),
    history := if path = ".git" then none else d.history }

/-- Removes a file if there is one. -/
def removeFile (d : Directory) (path : String) : Directory :=
  if d.isFile path then { d with entries := d.entries.erase path } else d

/-- Whether the files differ from the last commit. -/
def hasChanges (d : Directory) (h : History) : Bool := d.files.toList != h.recorded.toList

/-- Records the files under a message, given that they changed. -/
def commit (message : String) : Action Unit := do
  let d ← get
  match d.history with
  | none => throw (.storage .unreadable)
  | some h =>
    if d.hasChanges h then
      set { d with history := some ⟨h.commits + 1, message, d.files⟩ }

/-- Starts a history with an empty first commit, unless there is one. -/
def startHistory (message : String) (d : Directory) : Directory :=
  match d.history with
  | some _ => d
  | none => { d with history := some ⟨1, message, ∅⟩ }

end Directory

end RelationalStore

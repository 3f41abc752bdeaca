import RelationalStore.Config
import RelationalStore.Store.Disk
import RelationalStore.Store.Upgrade
import RelationalStore.Transaction

/- A store: its tables, the transactions that are open over them, and the directory it is kept in,
   if any. Opening runs the upgrade when the requested version is newer than the stored one. A
   transaction is committed by letting its writes stand and, in a directory, flushing the tables it
   changed; a commit that cannot be flushed takes its writes back. -/
namespace RelationalStore

/-- The directory of a store, and whether it keeps a history. -/
structure Backing where
  directory : Directory
  git : Bool

structure Store where
  name : String
  version : Nat
  tables : Tables
  /-- The transactions that were opened and neither committed nor dropped. -/
  transactions : List Transaction := []
  nextId : Nat := 1
  backing : Option Backing := none

namespace Store

/-! ### Opening -/

/-- What is left of opening a store: the store or the reason that it stays closed, the directory,
and what the upgrade reported. -/
structure Opening where
  result : Except Error Store
  directory : Directory
  reports : List UpgradeReport

/-- The tables of a fresh or older store after the upgrade, written to its directory. -/
def upgradeDirectory (c : Config) (git : Bool) (u : Upgrade) : Directory.Action Tables := do
  Disk.writeMeta ⟨c.name, c.version, u.tables.values.map (·.definition)⟩
  if u.changed then
    u.tables.values.forM Disk.writeTable
  Disk.record git s!"Upgrade store '{c.name}' to version {c.version}"
  return u.tables

/-- The description and the tables that a directory holds. -/
def loadDirectory (git : Bool) : Directory.Action (Option StoreMeta × Tables) := do
  Disk.prepare git
  match ← Disk.readMeta with
  | some m => return (some m, ← Disk.loadTables m)
  | none => return (none, ∅)

def openMemory (c : Config) (steps : List UpgradeStep) (d : Directory) : Opening :=
  let (upgraded, reports) := UpgradeStep.runAll {} [.started 0] steps
  { result := upgraded.map fun u => { name := c.name, version := c.version, tables := u.tables },
    directory := d, reports }

/-- Opens the store in a directory. A store of the requested version is taken as it is, and one
of a newer version is refused. -/
def openDirectory (c : Config) (git : Bool) (steps : List UpgradeStep) (d : Directory) : Opening :=
  let opened (tables : Tables) (d : Directory) (reports : List UpgradeReport) : Opening :=
    { result := .ok { name := c.name, version := c.version, tables, backing := some ⟨d, git⟩ },
      directory := d, reports }
  match (loadDirectory git).run d with
  | .error e d => ⟨.error e, d, []⟩
  | .ok (description, tables) d =>
    let oldVersion := description.elim 0 (·.version)
    if c.version < oldVersion then
      ⟨.error (.storage (.newerVersion c.name oldVersion c.version)), d, []⟩
    else if description.isSome && oldVersion == c.version then opened tables d []
    else
      let (upgraded, reports) :=
        UpgradeStep.runAll { tables } [.started oldVersion] steps
      match upgraded with
      | .error e => ⟨.error e, d, reports⟩
      | .ok u =>
        match (upgradeDirectory c git u).run d with
        | .error e d => ⟨.error e, d, reports⟩
        | .ok tables d => opened tables d reports

/-- Opens the store that a configuration describes; `d` is the directory that it may name. -/
def openWith (c : Config) (steps : List UpgradeStep) (d : Directory) : Opening :=
  match Identifier.checkEntity c.name with
  | .error e => ⟨.error (.identifier e), d, []⟩
  | .ok _ =>
    match c.storage with
    | .memory => openMemory c steps d
    | .directory _ git => openDirectory c git steps d

/-! ### Transactions -/

def transaction? (s : Store) (id : Nat) : Option Transaction := s.transactions.find? (·.id == id)

/-- Whether an open transaction keeps one of the given mode from a table. -/
def isBlocked (s : Store) (mode : TransactionMode) (table : String) : Bool :=
  s.transactions.any (·.blocks mode table)

/-- Takes the locks in the order of the table names, up to the first that cannot be had. -/
def acquire (s : Store) (mode : TransactionMode) : List String → Except Error Unit
  | [] => .ok ()
  | table :: rest => do
    if !s.tables.contains table then throw (.tableNotFound table)
    if s.isBlocked mode table then throw (.wouldBlock table)
    s.acquire mode rest

/-- Opens a transaction over some tables. -/
def beginTransaction (s : Store) (tables : List String) (mode : TransactionMode) :
    Except Error (Nat × Store) := do
  let scope := (SortedSet.ofList tables).keys
  s.acquire mode scope
  let tx : Transaction := { id := s.nextId, mode, scope }
  return (s.nextId, { s with transactions := s.transactions ++ [tx], nextId := s.nextId + 1 })

/-- Replaces a transaction by its next state. -/
def setTransaction (s : Store) (tx : Transaction) : Store :=
  { s with transactions := s.transactions.map fun t => if t.id == tx.id then tx else t }

/-- Forgets a transaction. -/
def forget (s : Store) (id : Nat) : Store :=
  { s with transactions := s.transactions.filter (·.id != id) }

/-- Takes back what a transaction wrote and releases its locks; it stays, inactive. -/
def abort (s : Store) (id : Nat) : Store :=
  match s.transaction? id with
  | some tx =>
    let (tx, tables) := tx.abort s.tables
    { s.setTransaction tx with tables }
  | none => s

/-- Aborts a transaction and forgets it. -/
def drop (s : Store) (id : Nat) : Store := (s.abort id).forget id

/-- The rows of every table, read in a transaction of their own. -/
def dump (s : Store) : Except Error (SortedMap String (List Row)) × Store :=
  match s.beginTransaction s.tables.keys .readOnly with
  | .error e => (.error e, s)
  | .ok (id, s) => (.ok (s.tables.mapValues Table.toList), s.drop id)

/-- Reads a table in a transaction. -/
def readIn {α : Type} (s : Store) (id : Nat) (table : String) (f : Table → Except Error α) :
    Except Error α := do
  match s.transaction? id with
  | some tx => f (← tx.table s.tables table)
  | none => throw .transactionInactive

/-- Writes in a transaction; a write that fails changes nothing. -/
def writeIn {α : Type} (s : Store) (id : Nat)
    (f : Transaction → Tables → Except Error (α × Transaction × Tables)) :
    Except Error α × Store :=
  match s.transaction? id with
  | none => (.error .transactionInactive, s)
  | some tx =>
    match f tx s.tables with
    | .ok (a, tx, tables) => (.ok a, { s.setTransaction tx with tables })
    | .error e => (.error e, s)

/-- The tables of the given names. -/
def tablesOf (tables : Tables) (names : List String) : List Table := names.filterMap tables.get?

/-- Makes the writes of a transaction permanent. If they cannot be flushed they are taken back,
and files that were put into place are written again. -/
def commitTransaction (s : Store) (tx : Transaction) : Except Error Unit × Store :=
  if !tx.active then (.error .transactionInactive, s)
  else
    match s.backing with
    | none => (.ok (), s)
    | some b =>
      if tx.dirty.isEmpty then (.ok (), s)
      else
        let message := s!"Transaction {tx.id}: write " ++ ", ".intercalate tx.dirty
        match Disk.flush b.git message (tablesOf s.tables tx.dirty) b.directory with
        | (_, .ok _, d) => (.ok (), { s with backing := some { b with directory := d } })
        | (published, .error e, d) =>
          let tables := tx.rollback s.tables
          let d := Disk.writeBack (tablesOf tables published) d
          (.error e, { s with tables, backing := some { b with directory := d } })

/-- Commits a transaction; whatever comes of it, the transaction is over. -/
def commit (s : Store) (id : Nat) : Except Error Unit × Store :=
  match s.transaction? id with
  | some tx =>
    let (result, s) := s.commitTransaction tx
    (result, s.forget id)
  | none => (.error .transactionInactive, s)

end Store

end RelationalStore

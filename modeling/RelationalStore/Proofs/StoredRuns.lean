import RelationalStore.Proofs.StorableRows
import RelationalStore.Proofs.PairedClients

/- Programs over a store that is closed and opened again. A program puts requests to a client, has
   transactions of its own, and closes the store and opens it again at the same version
   (`Client.Move`). In memory closing means nothing; a directory is read again (`Client.reopen`).
   Every move leads from paired clients to paired clients and gives the same answer
   (`Client.Session.Paired.move`), and so does a run, by induction on its moves. So a program that
   starts in an empty directory has the same outcome as in memory, whenever what it commits can be
   stored (`Client.outcome_directory`). -/
namespace RelationalStore
open SortedMap Read

theorem Tables.Paired.refl {D : String → Table.Discipline} {a : Tables} (h : Tables.Under D a)
    (hordered : Ordered a) : a.Paired D a :=
  List.forall₂_same.2 fun _ he => ⟨rfl, .refl (h.good (hordered.get?_eq_some_iff.2 he))⟩

theorem Tables.Paired.rows_eq {D : String → Table.Discipline} {a b : Tables} (h : a.Paired D b) :
    a.mapValues Table.toList = b.mapValues Table.toList := by
  obtain ⟨xs⟩ := a
  obtain ⟨ys⟩ := b
  change List.Forall₂ _ xs ys at h
  rw [mapValues, mapValues, SortedMap.mk.injEq]
  induction h with
  | nil => rfl
  | cons hxy _ ih =>
    rw [List.map_cons, List.map_cons, ih, hxy.1, hxy.2.toList_eq]

namespace Client

/-! ### Programs -/

/-- What a program does. It tells a transaction by how many were begun before it since the store was
opened, those of single requests included. -/
inductive Move : Type 1 where
  | ask {α : Type} (entity : String) (request : Request α) (tx : Option Nat)
  | begin (tables : List String) (mode : TransactionMode)
  | commit (tx : Nat)
  | abort (tx : Nat)
  | drop (tx : Nat)
  | reopen

/-- The client after its store was closed and opened again. One in memory stays open. -/
def reopen (c : Client) (config : Config) : Except Error Client :=
  match c.store.backing with
  | none => .ok c
  | some b => (openWith c.schema config c.supply b.directory).result

/-- What a move gives back. -/
abbrev Answer : Type 1 := (α : Type) × Except Error α

/-- A client since it was opened. -/
structure Session where
  client : Client
  /-- The number that the first transaction has or will have. -/
  base : Nat

namespace Session

/-- The session that begins when the client was opened. -/
def start (c : Client) : Session := ⟨c, c.store.nextId⟩

def withStore (x : Session) (store : Store) : Session := { x with client := x.client.withStore store }

/-- One move: its answer and the session after it. If the store cannot be opened again, there is
none. -/
def move (config : Config) (x : Session) : Move → Except Error (Answer × Session)
  | .ask entity r tx =>
    let outcome := x.client.ask entity r (tx.map (x.base + ·))
    .ok (⟨_, outcome.result⟩, { x with client := outcome.client })
  | .begin tables mode =>
    match x.client.store.beginTransaction tables mode with
    | .ok (id, store) => .ok (⟨Nat, .ok (id - x.base)⟩, x.withStore store)
    | .error e => .ok (⟨Nat, .error e⟩, x)
  | .commit tx =>
    let (result, store) := x.client.store.commit (x.base + tx)
    .ok (⟨Unit, result⟩, x.withStore store)
  | .abort tx => .ok (⟨Unit, .ok ()⟩, x.withStore (x.client.store.abort (x.base + tx)))
  | .drop tx => .ok (⟨Unit, .ok ()⟩, x.withStore (x.client.store.drop (x.base + tx)))
  | .reopen => (x.client.reopen config).map fun c => (⟨Unit, .ok ()⟩, start c)

/-- The answers of a program and what it leaves. -/
def run (config : Config) (x : Session) : List Move → Except Error (List Answer × Session)
  | [] => .ok ([], x)
  | move :: rest => do
    let (answer, next) ← x.move config move
    let (answers, last) ← next.run config rest
    return (answer :: answers, last)

end Session

/-- The answers of a program that starts in an empty store, and the rows at its end. -/
def outcome (s : Schema) (config : Config) (supply : Supply) (program : List Move) :
    Except Error (List Answer × SortedMap String (List Row)) :=
  match (openWith s config supply {}).result with
  | .error e => .error e
  | .ok c => ((Session.start c).run config program).map fun r =>
      (r.1, r.2.client.store.tables.mapValues Table.toList)

/-! ### Opening and opening again -/

section
variable {s : Schema} {κ : String → String → NumberClass} {first : Tables} {git : Bool} {m : StoreMeta}
  {i j : Nat} {c d : Client} {config : Config} {path : String}

/-- What the description of a store says does not change. -/
theorem Paired.definitions (hs : s.Founds κ first) (h : Paired s κ first git m i j c d) :
    c.store.tables.values.map (·.definition) = first.values.map (·.definition) :=
  map_values_eq h.ordered hs.ordered h.isolated.definition

/-- Between transactions the store can be closed and opened again. -/
theorem Paired.reopen (hs : s.Founds κ first) (h : Paired s κ first git m i j c d)
    (hidle : ∀ tx ∈ c.store.transactions, tx.active = false) (hunique : c.store.tables.Unique)
    (hstorage : config.storage = .directory path git)
    (hname : Identifier.checkEntity config.name = .ok ())
    (hm : m = ⟨config.name, config.version, first.values.map (·.definition)⟩)
    (hversion : config.version < Nat.pow 2 32) :
    ∃ d', d.reopen config = .ok d' ∧ Paired s κ first git m c.store.nextId d'.store.nextId c d' := by
  obtain ⟨directory, hbacking, hretains⟩ := h.persists.directory
  have hcommitted (n : String) : c.store.committed.get? n = c.store.tables.get? n :=
    h.isolated.locked.committed_of_free fun tx htx hmay => by
      have hlive := hmay.1
      rw [hidle tx htx] at hlive
      cases hlive
  have hretains' := hretains.congr fun n => (hcommitted n).symm
  subst hm
  obtain ⟨directory', loaded, hopen, hpaired, hkept⟩ :=
    Store.openDirectory_kept h.isolated.under h.ordered (h.plain hs) hunique hretains'
      (h.definitions hs).symm hversion rfl (s.entities.values.map fun e => .createTable e.tableDef)
      (c := config)
  let store : Store := ⟨config.name, config.version, loaded, [], 1, some ⟨directory', git⟩⟩
  refine ⟨⟨s, store, s.entities.mapValues fun _ => {}, d.supply⟩, ?_, ?_⟩
  · rw [Client.reopen, hbacking]
    simp only [h.schema', Client.openWith, Store.openWith, hname, hstorage, hopen]
    rfl
  · refine ⟨h.schema, rfl, h.supply, ⟨hpaired, ⟨0, rfl, rfl⟩, c.store.transactions, [], ?_, ?_, .nil⟩,
      h.isolated, ?_, h.ordered, h.persists.memory, directory', rfl, ?_⟩
    · exact (List.append_nil _).symm
    · exact fun tx htx => ⟨h.isolated.numbered.below tx htx, hidle tx htx⟩
    · exact .of_idle rfl (hpaired.under h.isolated.under) fun n =>
        (hpaired.definition n).trans (h.isolated.definition n)
    · exact hkept.congr hcommitted

end

/-! ### Runs -/

/-- The requests are those that there are. -/
def Move.Offered : Move → Prop
  | .ask _ r _ => r.Offered
  | _ => True

namespace Session

/-- The store is closed between transactions. -/
def Permits (x : Session) : Move → Prop
  | .reopen => ∀ tx ∈ x.client.store.transactions, tx.active = false
  | _ => True

/-- What is committed can be stored. -/
def Storable (x : Session) : Prop :=
  ∀ t ∈ x.client.store.committed.values, Row.Storable t.toList

/-- The program closes the store between transactions, and commits what can be stored. -/
def Allows (config : Config) (x : Session) : List Move → Prop
  | [] => True
  | move :: rest => x.Permits move ∧
      ∀ r ∈ (x.move config move).toOption, r.2.Storable ∧ r.2.Allows config rest

section
variable (config : Config) (x : Session)

instance (move : Move) : Decidable (x.Permits move) :=
  match move with
  | .reopen => inferInstanceAs (Decidable (∀ tx ∈ x.client.store.transactions, tx.active = false))
  | .ask _ _ _ | .begin _ _ | .commit _ | .abort _ | .drop _ => .isTrue trivial

instance : Decidable x.Storable :=
  inferInstanceAs (Decidable (∀ t ∈ x.client.store.committed.values, Row.Storable t.toList))

def decidableAllows : (x : Session) → (program : List Move) → Decidable (x.Allows config program)
  | _, [] => .isTrue trivial
  | x, move :: rest =>
    have (next : Session) : Decidable (next.Allows config rest) := decidableAllows next rest
    inferInstanceAs (Decidable (x.Permits move ∧
      ∀ r ∈ (x.move config move).toOption, r.2.Storable ∧ r.2.Allows config rest))

instance (program : List Move) : Decidable (x.Allows config program) :=
  decidableAllows config x program

end

variable {s : Schema} {κ : String → String → NumberClass} {first : Tables} {git : Bool} {m : StoreMeta}
  {x y : Session} {config : Config} {path : String}

/-- Sessions with paired clients. Of the rows in memory no two share a value of a unique index. -/
structure Paired (s : Schema) (κ : String → String → NumberClass) (first : Tables) (git : Bool)
    (m : StoreMeta) (x y : Session) : Prop where
  clients : Client.Paired s κ first git m x.base y.base x.client y.client
  distinct : x.client.store.Distinct (.within ∘ κ) first

section
variable (hs : s.Founds κ first) (hstorage : config.storage = .directory path git)
  (hname : Identifier.checkEntity config.name = .ok ())
  (hm : m = ⟨config.name, config.version, first.values.map (·.definition)⟩)
  (hversion : config.version < Nat.pow 2 32)
include hs hstorage hname hm hversion

/-- One move. -/
theorem Paired.move (h : Paired s κ first git m x y) {move : Move} (hoffered : move.Offered)
    (hpermits : x.Permits move)
    (hstorable : ∀ r ∈ (x.move { config with storage := .memory } move).toOption, r.2.Storable) :
    Match (fun r r' => r.1 = r'.1 ∧ Paired s κ first git m r.2 r'.2)
      (x.move { config with storage := .memory } move) (y.move config move) := by
  have hdistinct {a : Action} (ha : a.Regular κ first) :
      (x.client.after a).store.Distinct (.within ∘ κ) first :=
    distinct_after hs.resolved hs.kinds hs.holds h.clients.schema h.distinct ha
  cases move with
  | ask entity r tx =>
    obtain ⟨heq, hpaired⟩ := h.clients.ask hs hoffered entity tx fun n t ht =>
      hstorable _ rfl t (mem_values_of_get? ht)
    exact ⟨congrArg (Sigma.mk _) heq.symm, hpaired,
      hdistinct (a := .ask entity r (tx.map (x.base + ·))) hoffered⟩
  | begin names mode =>
    have hbegin := h.clients.begin names mode
    have hbegun := hdistinct (a := .begin names mode) trivial
    simp only [Session.move, Client.after] at hbegun ⊢
    cases hb : x.client.store.beginTransaction names mode <;>
      cases hb' : y.client.store.beginTransaction names mode <;> rw [hb, hb'] at hbegin <;>
      rw [hb] at hbegun
    · obtain rfl := hbegin
      exact ⟨rfl, h⟩
    · exact hbegin.elim
    · exact hbegin.elim
    · next r r' =>
      obtain ⟨⟨k, hid, hid'⟩, hpaired⟩ := hbegin
      refine ⟨?_, hpaired, hbegun⟩
      simp only [hid, hid', Nat.add_sub_cancel_left]
  | commit k =>
    obtain ⟨heq, hpaired⟩ := h.clients.commit hs k fun n t ht =>
      hstorable _ rfl t (mem_values_of_get? ht)
    exact ⟨congrArg (Sigma.mk _) heq, hpaired, hdistinct (a := .commit (x.base + k)) trivial⟩
  | abort k => exact ⟨rfl, h.clients.abort k, hdistinct (a := .abort (x.base + k)) trivial⟩
  | drop k => exact ⟨rfl, h.clients.drop k, hdistinct (a := .drop (x.base + k)) trivial⟩
  | reopen =>
    obtain ⟨d, hopen, hpaired⟩ :=
      h.clients.reopen hs hpermits h.distinct.unique hstorage hname hm hversion
    have hmemory : x.client.reopen { config with storage := .memory } = .ok x.client := by
      rw [Client.reopen, h.clients.persists.memory]
    rw [Session.move, Session.move, hopen, hmemory]
    exact ⟨rfl, hpaired, h.distinct⟩

/-- A program. -/
theorem Paired.run {program : List Move} (h : Paired s κ first git m x y)
    (hoffered : ∀ move ∈ program, move.Offered)
    (hallows : x.Allows { config with storage := .memory } program) :
    Match (fun r r' => r.1 = r'.1 ∧ Paired s κ first git m r.2 r'.2)
      (x.run { config with storage := .memory } program) (y.run config program) := by
  induction program generalizing x y with
  | nil => exact ⟨rfl, h⟩
  | cons move rest ih =>
    rw [List.forall_mem_cons] at hoffered
    obtain ⟨hpermits, hnext⟩ := hallows
    refine .bind (h.move hs hstorage hname hm hversion hoffered.1 hpermits fun r hr => (hnext r hr).1)
      fun r r' hr hpaired => ?_
    refine .bind (ih hpaired.2 hoffered.2 (hnext r (by rw [hr]; rfl)).2) fun last last' _ hlast => ?_
    exact ⟨by rw [hpaired.1, hlast.1], hlast.2⟩

end

end Session

/-! ### Outcomes -/

section
variable {s : Schema} {git : Bool} {config : Config} {path : String}
  (hstorage : config.storage = .directory path git)
include hstorage

/-- The first opening, in memory and in an empty directory. -/
theorem Paired.openWith (supply : Supply) (hs : s.Apt) :
    Match (fun c d => Identifier.checkEntity config.name = .ok () ∧ s.Founds s.classes c.store.tables ∧
        Paired s s.classes c.store.tables git
          ⟨config.name, config.version, c.store.tables.values.map (·.definition)⟩
          c.store.nextId d.store.nextId c d)
      (openWith s { config with storage := .memory } supply {}).result
      (openWith s config supply {}).result := by
  cases hname : Identifier.checkEntity config.name with
  | error fault =>
    simp only [Client.openWith, Store.openWith, hname]
    exact Match.error _
  | ok _ =>
    let steps := s.entities.values.map fun e => UpgradeStep.createTable e.tableDef
    have hleft : (Client.openWith s { config with storage := .memory } supply {}).result =
        ((UpgradeStep.runAll {} [.started 0] steps).1.map fun u =>
          ({ name := config.name, version := config.version, tables := u.tables } : Store)).map
            fun store => ⟨s, store, s.entities.mapValues fun _ => {}, supply⟩ := by
      simp only [Client.openWith, Store.openWith, hname, Store.openMemory, steps]
    have hright : (Client.openWith s config supply {}).result =
        (Store.openDirectory config git steps {}).result.map
          fun store => ⟨s, store, s.entities.mapValues fun _ => {}, supply⟩ := by
      simp only [Client.openWith, Store.openWith, hname, hstorage, steps]
    cases hu : (UpgradeStep.runAll {} [.started 0] steps).1 with
    | error e =>
      rw [hleft, hright, hu, Store.openDirectory_refused config git hu]
      exact Match.error _
    | ok u =>
      obtain ⟨directory, reports, hopen, hretains⟩ :=
        Store.openDirectory_fresh config git hs.resolved hu
      have hbegun := Upgrade.begun_runAll hs.resolved hu
      rw [hu] at hleft
      have hholds := holds_openMemory hs.resolved rfl hleft
      rw [hleft, hright, hopen]
      have hunder : Tables.Under (s.keeping s.classes) u.tables := by
        refine ⟨fun {n t} ht => ?_, fun {n t} ht => ?_⟩ <;>
          obtain ⟨e, -, rfl, rfl⟩ := hbegun.fresh n t ht
        · rfl
        · exact .ofDef _
      exact ⟨rfl, ⟨hs, hholds, hbegun.ordered, hbegun.plain⟩, rfl, rfl, rfl,
        ⟨.refl hunder hbegun.ordered, ⟨0, rfl, rfl⟩, [], [], rfl, by simp, .nil⟩,
        .of_idle rfl hunder fun _ => rfl, .of_idle rfl hunder fun _ => rfl, hbegun.ordered,
        rfl, directory, rfl, hretains⟩

/-- In an empty directory a program has the same outcome as in memory. -/
theorem outcome_directory {defs : List EntityDef} (hs : Schema.ofDefs defs = .ok s)
    (hkinds : s.KeysOfKinds)
    (hnames : ∀ e ∈ s.entities.values, (e.tableDef.indexes.map (·.name)).Nodup)
    (hversion : config.version < Nat.pow 2 32) {supply : Supply} {program : List Move}
    (hoffered : ∀ move ∈ program, move.Offered)
    (hallows : ∀ c ∈ (openWith s { config with storage := .memory } supply {}).result.toOption,
      (Session.start c).Allows { config with storage := .memory } program) :
    outcome s config supply program =
      outcome s { config with storage := .memory } supply program := by
  have hresolved := Schema.Resolved.ofDefs hs
  have hopen := Paired.openWith hstorage supply
    ⟨hresolved, fun _ _ he => Schema.distinguishes_ofDefs hs he, hkinds, hnames⟩
  rw [outcome, outcome]
  cases hc : (openWith s { config with storage := .memory } supply {}).result <;>
    cases hd : (openWith s config supply {}).result <;> rw [hc, hd] at hopen
  · exact congrArg Except.error hopen.symm
  · exact hopen.elim
  · exact hopen.elim
  · next c d =>
    obtain ⟨hname, hfounds, hpaired⟩ := hopen
    have hopened : c.Opened s := ⟨_, _, _, hc⟩
    have hstart : Session.Paired s s.classes c.store.tables git
        ⟨config.name, config.version, c.store.tables.values.map (·.definition)⟩
        (Session.start c) (Session.start d) :=
      ⟨hpaired, hopened.distinct hfounds.holds⟩
    have hrun := hstart.run hfounds hstorage hname rfl hversion hoffered
      (hallows c (by rw [hc]; rfl))
    simp only
    cases hx : (Session.start c).run { config with storage := .memory } program <;>
      cases hy : (Session.start d).run config program <;> rw [hx, hy] at hrun
    · exact congrArg Except.error hrun.symm
    · exact hrun.elim
    · exact hrun.elim
    · obtain ⟨heq, hlast⟩ := hrun
      simp only [Except.map, heq, hlast.clients.stores.tables.rows_eq]

end

end Client

/-! ### Events -/

/-- Events and their times. -/
def EntityDef.events : List EntityDef :=
  [{ name := "event",
     fields := [{ name := "id", kind := .int, id := true }, { name := "at", kind := .datetime }] }]

theorem Schema.exists_ofDefs {defs : List EntityDef} {P : Schema → Prop} [DecidablePred P]
    (hP : (ofDefs defs).toOption.any (P ·)) : ∃ s : Schema, ofDefs defs = .ok s ∧ P s := by
  obtain ⟨s, hs, hP⟩ := (Option.any_eq_true _ _).1 hP
  exact ⟨s, Except.toOption_eq_some.1 hs, of_decide_eq_true hP⟩

namespace Client

def addEvent (id millis : Int) (tx : Option Nat) : Move :=
  .ask "event" (.create (.ofFields [("id", .int id), ("at", .int millis)])) tx

/-- Events are added by themselves and in transactions, the last of which fails, and the store is opened
three times. -/
def chronicle : List Move :=
  [addEvent 1 0 none, .begin ["event"] .readWrite, addEvent 2 1000 (some 1), .commit 1, .reopen,
    .begin ["event"] .readWrite, addEvent 3 2000 (some 0), addEvent 2 3000 (some 0), .drop 0, .reopen,
    .ask "event" (.findMany {}) none]

theorem outcome_directory_chronicle : ∃ s : Schema,
    Schema.ofDefs EntityDef.events = .ok s ∧ s.KeysOfKinds ∧
      (∀ e ∈ s.entities.values, (e.tableDef.indexes.map (·.name)).Nodup) ∧
      (∀ move ∈ chronicle, move.Offered) ∧
      (∀ c ∈ (openWith s (.memory "events") ⟨0, 1⟩ {}).result.toOption,
        (Session.start c).Allows (.memory "events") chronicle) ∧
      ((outcome s (.memory "events") ⟨0, 1⟩ chronicle).toOption.any fun r =>
        (r.2.get? "event").any (·.length = 2)) ∧
      outcome s (.directory "events" "data") ⟨0, 1⟩ chronicle =
        outcome s (.memory "events") ⟨0, 1⟩ chronicle := by
  have hruns : (Schema.ofDefs EntityDef.events).toOption.any fun s => s.KeysOfKinds ∧
      (∀ e ∈ s.entities.values, (e.tableDef.indexes.map (·.name)).Nodup) ∧
      (∀ c ∈ (openWith s (.memory "events") ⟨0, 1⟩ {}).result.toOption,
        (Session.start c).Allows (.memory "events") chronicle) ∧
      (outcome s (.memory "events") ⟨0, 1⟩ chronicle).toOption.any fun r =>
        (r.2.get? "event").any (·.length = 2) := by
    decide +kernel
  obtain ⟨s, hs, hkinds, hnames, hallows, hrows⟩ := Schema.exists_ofDefs hruns
  have hoffered : ∀ move ∈ chronicle, move.Offered := by
    have hcreate (q : Query) : (Request.create q).Offered := ⟨q, .inl .create⟩
    have hfind : (Request.findMany {}).Offered := ⟨{}, .inr .findMany⟩
    simp [chronicle, addEvent, Move.Offered, hcreate, hfind]
  exact ⟨s, hs, hkinds, hnames, hoffered, hallows, hrows,
    outcome_directory rfl hs hkinds hnames (by decide) hoffered hallows⟩

/-- Which moves succeed. -/
def successes (r : Except Error (List Answer × SortedMap String (List Row))) : Option (List Bool) :=
  r.toOption.map fun r => r.1.map fun answer => answer.2.isOk

/-- An event of a year that has no text. -/
def prehistory : List Move := [addEvent 1 (-62200000000000) none]

/-- It is kept in memory but cannot be stored. -/
theorem outcome_prehistory : ∃ s : Schema,
    Schema.ofDefs EntityDef.events = .ok s ∧ s.KeysOfKinds ∧
      (∀ e ∈ s.entities.values, (e.tableDef.indexes.map (·.name)).Nodup) ∧
      successes (outcome s (.memory "events") ⟨0, 1⟩ prehistory) = some [true] ∧
      successes (outcome s (.directory "events" "data") ⟨0, 1⟩ prehistory) = some [false] :=
  Schema.exists_ofDefs (by decide +kernel)

end Client

end RelationalStore

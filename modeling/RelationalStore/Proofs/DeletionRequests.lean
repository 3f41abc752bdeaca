import RelationalStore.Proofs.DeletionRuns
import RelationalStore.Proofs.FailedRequests

/- Requests that delete. One that is answered has deleted the rows that its query picks, with all
   that goes with them (`Client.ask_deletion`): of one row as of many, in a transaction of its own
   or in one that is supplied, and whatever the rows reference, also one another or themselves. -/
namespace RelationalStore
open SortedMap Read

/-- The requests that delete what a query picks, and how it is picked. -/
inductive Request.Deletes (q : Query) : {α : Type} → Request α → (View → Entity → Read (List Row)) → Prop
  | delete : Deletes q (.delete q) fun v e => do
      return (← v.findUnique e (← Operation.requireSelector e q)).toList
  | deleteMany : Deletes q (.deleteMany q) fun v e => v.matching e q.filter

/-! ### Operations -/

namespace Operation
variable {s : Schema} {κ : String → String → NumberClass} {w : Work} {e : Entity} {q : Query}
variable (hs : s.Resolved) (hsep : s.Separate) (hkinds : s.KeysOfKinds)
  (hholds : s.Holds κ w.tables) (hfresh : w.deleting = []) (he : s.entity? e.name = some e)
include hs hsep hkinds hholds hfresh he

omit hs hsep hkinds he in
theorem during_start (rows : List Row) : During s κ w.tables e.name rows [] w := by
  rw [During, hfresh]
  exact .start hholds

/-- The rows that were picked are deleted, one after the other. -/
theorem ends_deleteEach {rows : List Row} (hrows : ∀ row ∈ rows, w.tables.Has e.name row) (n : Nat) :
    Ends w (rows.foldlM (fun n row => do
      match ← look s fun v => v.row? e (e.keyOf row) with
      | some current => do
        delete s e current
        return n + 1
      | none => return n) n) fun _ w' => s.Deletion w.tables e.name rows w'.tables := by
  have hstart : During s κ w.tables e.name rows [] w := during_start hholds hfresh rows
  refine Ends.mono (Triple.foldlM_each (R := Onward s)
    (D := fun row w' => (e.name, e.keyOf row) ∈ w'.deleting) Onward.refl
    (fun _ _ _ => Schema.Later.trans) (fun _ _ _ hon h => hon.begun _ h) ?_ hstart n) ?_
  · intro n row hrow w₁ h₁ _
    have hx := hrows row hrow
    refine Ends.bind (ends_look s _) fun found w₂ hfound => ?_
    obtain ⟨rfl, hfound⟩ := hfound
    have hkey : (e.keyOf row).Fits (κ e.name) e.idFields := (hholds.within hx).fits.key
    have hiff (z : Row) := h₁.holds.row?_iff he (x := z) hfound hkey
    cases found with
    | some y =>
      obtain ⟨hy, heq⟩ := (hiff y).1 rfl
      have hsame := h₁.keyOf_eq hs hsep hholds he hx hy heq
      apply Ends.bind (ends_delete hs hsep hholds hkinds h₁ he hy hx hsame (.root hrow))
      exact fun _ _ h => Ends.pure h
    | none =>
      refine Ends.pure ⟨h₁, Onward.refl w₂, ?_⟩
      by_contra hnew
      obtain ⟨y, hy, hsame⟩ := h₁.there e he row hx hnew
      refine nomatch (hiff y).2 ⟨hy, ?_⟩
      rw [hsame]
      exact Std.ReflOrd.compare_self
  · intro _ w' h
    exact h.1.deletion hs hsep hholds he h.2.2

theorem ends_deletes {α : Type} {r : Request α} {picks : View → Entity → Read (List Row)}
    (hr : r.Deletes q picks) :
    Ends w (r.operation s e) fun _ w' => ∃ rows,
      picks ⟨s, w.tables, w.transaction⟩ e = .ok rows ∧ (∀ row ∈ rows, w.tables.Has e.name row) ∧
        s.Deletion w.tables e.name rows w'.tables := by
  have hgives := View.gives_has s w.tables w.transaction
  cases hr with
  | delete =>
    refine Ends.bind (ends_ofExcept _) fun selector w₁ hselector => ?_
    obtain ⟨rfl, hselector⟩ := hselector
    refine Ends.bind (ends_look s _) fun row w₂ hrow => ?_
    obtain ⟨rfl, hrow⟩ := hrow
    obtain ⟨found, hfound, hrequire⟩ := Except.bind_eq_ok.1 hrow
    cases Option.elim_ok_eq_ok.1 hrequire
    have hx : w₂.tables.Has e.name row := by
      have hall := hgives.findUnique e selector
      rw [hfound] at hall
      exact hall row rfl
    refine Ends.bind (ends_look s _) fun record w₃ hrecord => ?_
    obtain ⟨rfl, -⟩ := hrecord
    refine Ends.bind (ends_delete hs hsep hholds hkinds (during_start hholds hfresh [row]) he hx hx
      rfl (.root List.mem_cons_self)) fun _ w' h => Ends.pure ?_
    refine ⟨[row], ?_, by simpa using hx, ?_⟩
    · exact Except.bind_eq_ok.2 ⟨selector, hselector, Except.bind_eq_ok.2 ⟨some row, hfound, rfl⟩⟩
    · exact h.1.deletion hs hsep hholds he (by simpa using h.2.2)
  | deleteMany =>
    refine Ends.bind (ends_look s _) fun rows w₁ hrows => ?_
    obtain ⟨rfl, hrows⟩ := hrows
    have hhas : ∀ row ∈ rows, w₁.tables.Has e.name row := by
      have hall := hgives.matching e q.filter
      rw [hrows] at hall
      exact hall
    refine Ends.mono (ends_deleteEach hs hsep hkinds hholds hfresh he hhas 0) fun _ w' h => ?_
    exact ⟨rows, hrows, hhas, h⟩

end Operation

/-! ### Clients -/

/-- A commit that succeeds lets the writes stand. -/
theorem Store.tables_commit {store : Store} {id : Nat} {u : Unit} (h : (store.commit id).1 = .ok u) :
    (store.commit id).2.tables = store.tables := by
  unfold commit at h ⊢
  cases htx : store.transaction? id with
  | none => rfl
  | some tx =>
    rw [htx] at h
    rcases commitTransaction_tables store tx with ⟨htables, -⟩ | ⟨-, -, e, he⟩
    · exact htables
    · exact nomatch he.symm.trans h

namespace Client
variable {c : Client} {α : Type}

/-- What an operation leaves of the client it was run in, apart from its transactions. -/
structure Left (c : Client) (w : Work) (c' : Client) : Prop where
  schema : c'.schema = c.schema
  notifiers : c'.notifiers = c.notifiers
  tables : c'.store.tables = w.tables
  supply : c'.supply = w.supply

/-- Who hears of changes does not depend on the store. -/
theorem Left.deliveries {w : Work} {c' : Client} (h : c.Left w c') (changes : List Change) :
    c'.deliveries changes = c.deliveries changes := by
  rw [Client.deliveries, Client.deliveries, h.notifiers]

theorem run_ok {tx : Transaction} {op : Operation α} {a : α} {changes : List Change} {c' : Client}
    (h : c.run tx op = (.ok (a, changes), c')) :
    ∃ w, op.run ⟨c.store.tables, tx, c.supply, [], []⟩ = .ok a w ∧ changes = w.changes ∧
      c.Left w c' := by
  unfold run at h
  simp only at h
  split at h
  · next b w hrun =>
    cases h
    exact ⟨w, hrun, rfl, rfl, rfl, rfl, rfl⟩
  · cases h

theorem runIn_ok {id : Nat} {op : Operation α} {a : α} (h : (c.runIn id op).result = .ok a) :
    ∃ tx w, c.store.transaction? id = some tx ∧
      op.run ⟨c.store.tables, tx, c.supply, [], []⟩ = .ok a w ∧
      (c.runIn id op).deliveries = c.deliveries w.changes ∧ c.Left w (c.runIn id op).client := by
  have hruns := c.runsIn id op
  generalize c.runIn id op = o at hruns h ⊢
  cases hruns with
  | missing => cases h
  | failed => cases h
  | @done tx _ _ _ htx hrun =>
    cases h
    obtain ⟨w, hw, rfl, hleft⟩ := run_ok hrun
    exact ⟨tx, w, htx, hw, hleft.deliveries _, hleft⟩

/-- The transaction of an operation that has its own. -/
def ownTransaction (c : Client) (names : List String) (mode : TransactionMode) : Option Transaction :=
  (c.store.beginTransaction names mode).toOption.bind fun begun => begun.2.transaction? begun.1

theorem runAlone_ok {names : List String} {mode : TransactionMode} {op : Operation α} {a : α}
    (h : (c.runAlone names mode op).result = .ok a) :
    ∃ tx w, c.ownTransaction names mode = some tx ∧
      op.run ⟨c.store.tables, tx, c.supply, [], []⟩ = .ok a w ∧
      (c.runAlone names mode op).deliveries = c.deliveries w.changes ∧
      c.Left w (c.runAlone names mode op).client := by
  have hruns := c.runsAlone names mode op
  generalize c.runAlone names mode op = o at hruns h ⊢
  cases hruns with
  | refused => cases h
  | missing => cases h
  | failed => cases h
  | uncommitted => cases h
  | @done _ store tx _ _ _ hb htx hrun hcommit =>
    cases h
    have hbegun : store.tables = c.store.tables := by rw [(Store.beginTransaction_ok hb).2.2]
    obtain ⟨w, hw, rfl, hleft⟩ := run_ok hrun
    refine ⟨tx, w, ?_, ?_, hleft.deliveries _, hleft.schema, hleft.notifiers, ?_, hleft.supply⟩
    · rw [ownTransaction, hb]
      exact htx
    · rw [← hbegun]
      exact hw
    · exact (Store.tables_commit hcommit).trans hleft.tables

/-- The transaction of a request: the one that is given, or its own over the tables that it needs. -/
def transactionOf (c : Client) (e : Entity) (r : Request α) : Option Nat → Option Transaction
  | some id => c.store.transaction? id
  | none =>
    c.ownTransaction (c.schema.neededTables e r.query r.access)
      (if r.access.writes then .readWrite else .readOnly)

/-- A request that is answered has run its operation: who hears of what is told by the changes that the
operation notes, and the tables are what it leaves. -/
theorem ask_answered_in {entity : String} {r : Request α} {tx : Option Nat} {a : α}
    (h : (c.ask entity r tx).result = .ok a) :
    ∃ e t w, c.schema.entity? entity = some e ∧ c.transactionOf e r tx = some t ∧
      (r.operation c.schema e).run ⟨c.store.tables, t, c.supply, [], []⟩ = .ok a w ∧
        (c.ask entity r tx).deliveries = c.deliveries w.changes ∧
        c.Left w (c.ask entity r tx).client := by
  unfold ask at h ⊢
  cases hrequire : c.schema.require entity with
  | error e => simp [hrequire] at h
  | ok e =>
    have hentity := Option.elim_ok_eq_ok.1 hrequire
    simp only [hrequire] at h ⊢
    cases tx with
    | some id =>
      obtain ⟨t, w, hanswered⟩ := runIn_ok h
      exact ⟨e, t, w, hentity, hanswered⟩
    | none =>
      obtain ⟨t, w, hanswered⟩ := runAlone_ok h
      exact ⟨e, t, w, hentity, hanswered⟩

theorem ask_answered {entity : String} {r : Request α} {tx : Option Nat} {a : α}
    (h : (c.ask entity r tx).result = .ok a) :
    ∃ e t w, c.schema.entity? entity = some e ∧
      (r.operation c.schema e).run ⟨c.store.tables, t, c.supply, [], []⟩ = .ok a w ∧
        (c.ask entity r tx).deliveries = c.deliveries w.changes ∧
        c.Left w (c.ask entity r tx).client := by
  obtain ⟨e, t, w, he, -, hanswered⟩ := ask_answered_in h
  exact ⟨e, t, w, he, hanswered⟩

/-- Of the tables alone. -/
theorem ask_ok {entity : String} {r : Request α} {tx : Option Nat} {a : α}
    (h : (c.ask entity r tx).result = .ok a) :
    ∃ e t w, c.schema.entity? entity = some e ∧
      (r.operation c.schema e).run ⟨c.store.tables, t, c.supply, [], []⟩ = .ok a w ∧
        (c.ask entity r tx).client.store.tables = w.tables := by
  obtain ⟨e, t, w, he, hrun, -, hleft⟩ := ask_answered h
  exact ⟨e, t, w, he, hrun, hleft.tables⟩

end Client

/-- Whatever was done before with a client of such a schema, in whose columns there are numbers of
one class each: a deletion that is answered has deleted the rows that its query picks and the least
set of rows that go with them, has cleared the keys that are to be cleared, and has left all other
rows as they were. -/
theorem Client.ask_deletion {defs : List EntityDef} {s : Schema} (hs : Schema.ofDefs defs = .ok s)
    (hkinds : s.KeysOfKinds) (hsep : s.Separate) {c₀ : Client} (hc₀ : c₀.Opened s)
    {κ : String → String → NumberClass} (hholds : s.Holds κ c₀.store.tables)
    {before : List Action} (hbefore : ∀ a ∈ before, a.Regular κ c₀.store.tables) {q : Query}
    {α : Type} {r : Request α} {picks : View → Entity → Read (List Row)} (hr : r.Deletes q picks)
    (entity : String) (tx : Option Nat) {a : α} :
    let c := before.foldl after c₀
    (c.ask entity r tx).result = .ok a →
      ∃ e t rows, s.entity? entity = some e ∧ picks ⟨s, c.store.tables, t⟩ e = .ok rows ∧
        (∀ row ∈ rows, c.store.tables.Has entity row) ∧
          s.Deletion c.store.tables entity rows (c.ask entity r tx).client.store.tables := by
  have hresolved := Schema.Resolved.ofDefs hs
  intro c ha
  obtain ⟨hschema, hnow⟩ : c.schema = s ∧ s.Holds κ c.store.tables :=
    holds_foldl hresolved hkinds hc₀ hholds hbefore
  obtain ⟨e, t, w, he, hrun, htables⟩ := ask_ok ha
  rw [hschema] at he hrun
  obtain rfl := hresolved.name he
  have hends := Operation.ends_deletes (w := ⟨c.store.tables, t, c.supply, [], []⟩) hresolved hsep
    hkinds hnow rfl he hr _ rfl
  rw [hrun] at hends
  obtain ⟨rows, hpicks, hrows, hdeletion⟩ := hends
  refine ⟨e, t, rows, he, hpicks, hrows, ?_⟩
  rw [htables]
  exact hdeletion

/-! ### A circle of friends -/

/-- Persons who go with their friends, and letters that stay without their authors. -/
def EntityDef.circle : List EntityDef :=
  [{ name := "person",
     fields := [{ name := "id", kind := .int, id := true }, { name := "friendId", kind := .int }],
     relations := [{ RelationDef.owning "friend" "person" ["friendId"] ["id"] with
       onDelete := .cascade }] },
   { name := "letter",
     fields := [{ name := "id", kind := .int, id := true }, { name := "authorId", kind := .int }],
     relations := [{ RelationDef.owning "author" "person" ["authorId"] ["id"] with
       onDelete := .setNull }] }]

/-- The row with that number. -/
def Query.ofId (id : Int) : Query := { filter := some (Filter.whereEquals {} "id" (.int id)) }

namespace Client

/-- Two friends, of whom one has written a letter. -/
def befriend : List Action :=
  [.ask "person" (.create (.ofFields [("id", .int 1)])) none,
   .ask "person" (.create (.ofFields [("id", .int 2), ("friendId", .int 1)])) none,
   .ask "person" (.update { Query.ofFields [("friendId", .int 2)] with
     filter := (Query.ofId 1).filter }) none,
   .ask "letter" (.create (.ofFields [("id", .int 1), ("authorId", .int 2)])) none]

/-- Two persons whose numbers have the same nearest floating-point number, a friend of the second,
and one of the first whose key is put past the engine as that floating-point number. -/
def misplace : List Action :=
  [.ask "person" (.create (.ofFields [("id", .int 9007199254740992)])) none,
   .ask "person" (.create (.ofFields [("id", .int 9007199254740993)])) none,
   .ask "person" (.create (.ofFields [("id", .int 1), ("friendId", .int 9007199254740993)])) none,
   .begin ["person"] .readWrite,
   .put 4 "person" (SortedMap.ofList [("id", .int 2), ("friendId", .float (.ofInt 9007199254740992))]),
   .commit 4]

/-- A key of another kind of number is not found where it belongs: person 2 stays without the friend
that it was to go with. -/
theorem ask_deletion_misses : ∃ c₀ : Client,
    Schema.ofDefs EntityDef.circle = .ok c₀.schema ∧ c₀.Opened c₀.schema ∧
      c₀.schema.Holds c₀.schema.classes c₀.store.tables ∧
      c₀.schema.KeysOfKinds ∧ c₀.schema.Separate ∧
      let c := misplace.foldl after c₀
      let left := c.ask "person" (.delete (.ofId 9007199254740992)) none
      left.result.isOk = true ∧
        left.client.keyTexts "person" = ["1", "2", "9007199254740993"] ∧
        ∃ t ∈ left.client.store.tables.get? "person", ∃ row ∈ t.toList,
          (row.value "id").text = "2" ∧
            compare (row.value "friendId") (.int 9007199254740992) = .eq :=
  exists_openMemory (by decide +kernel)

/-- Friends who reference each other go together, and the letter has no author any more. -/
theorem ask_deletion_befriended : ∃ c₀ : Client,
    Schema.ofDefs EntityDef.circle = .ok c₀.schema ∧ c₀.Opened c₀.schema ∧
      c₀.schema.Holds c₀.schema.classes c₀.store.tables ∧
      c₀.schema.KeysOfKinds ∧ c₀.schema.Separate ∧
      let c := befriend.foldl after c₀
      let left := c.ask "person" (.delete (.ofId 1)) none
      c.keyTexts "person" = ["1", "2"] ∧ left.client.keyTexts "person" = [] ∧
        left.client.keyTexts "letter" = ["1"] ∧
        ∃ rows, (∀ row ∈ rows, c.store.tables.Has "person" row) ∧
          c₀.schema.Deletion c.store.tables "person" rows left.client.store.tables := by
  have hruns : (openMemory EntityDef.circle).toOption.any fun c₀ =>
      let c := befriend.foldl after c₀
      let left := c.ask "person" (.delete (.ofId 1)) none
      c₀.schema.KeysOfKinds ∧ c₀.schema.Separate ∧ left.result.toOption.isSome ∧
        c.keyTexts "person" = ["1", "2"] ∧ left.client.keyTexts "person" = [] ∧
          left.client.keyTexts "letter" = ["1"] := by
    decide +kernel
  obtain ⟨c₀, hs, hc₀, hholds, hkinds, hsep, hdone, hbefore, hpersons, hletters⟩ :=
    exists_openMemory hruns
  obtain ⟨a, ha⟩ := Option.isSome_iff_exists.1 hdone
  have hregular : ∀ a ∈ befriend, a.Regular c₀.schema.classes c₀.store.tables := by
    intro a ha
    obtain rfl | rfl | rfl | rfl : a = _ ∨ a = _ ∨ a = _ ∨ a = _ := by simpa [befriend] using ha
    · exact ⟨_, .inl .create⟩
    · exact ⟨_, .inl .create⟩
    · exact ⟨_, .inl .update⟩
    · exact ⟨_, .inl .create⟩
  obtain ⟨-, -, rows, -, -, hrows, hdeletion⟩ := ask_deletion hs hkinds hsep hc₀ hholds hregular
    Request.Deletes.delete "person" none (Except.toOption_eq_some.1 ha)
  exact ⟨c₀, hs, hc₀, hholds, hkinds, hsep, hbefore, hpersons, hletters, rows, hrows, hdeletion⟩

end Client

end RelationalStore

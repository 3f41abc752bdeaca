import RelationalStore.Proofs.SavedRequests

/- Updates under their keys. An update that is answered and rewrites no field of a primary key
   leaves every row under the key that it had, adds the rows that its data make and no others, and
   has applied the data to the rows that were picked (`Client.ask_update`). One that does rewrite
   such a field, by connecting, stores a second row beside the first (`Client.ask_update_doubles`). -/
namespace RelationalStore
open SortedMap Read

/-- What an update with the data does to the tables. -/
structure Schema.Update (s : Schema) (e : Entity) (q : Query) (data : WriteData) (rows : List Row)
    (before after : Tables) : Prop where
  /-- Every key stays. -/
  kept : ∀ b, s.entity? b.name = some b → ∀ x, before.Has b.name x →
    ∃ y, after.Has b.name y ∧ b.keyOf y = b.keyOf x
  /-- The other keys are those of the rows that the data make. -/
  made : ∃ made, Fulfils made (s.revisionCreations e data) ∧ s.Makes before made after
  /-- The data are applied to the rows that were picked, and writes through relations aside no other
  row is written to. -/
  updated : s.Updated (s.Vouches e .update q) (s.Rewrites e .update q) (s.RelinksIn e data) before
    after e data rows

/-- Whatever was done with a client before: an update that is answered, and rewrites no field of a
primary key, has done what its data say to the rows that its query picks, and answers with the rows
as they are stored. -/
theorem Client.ask_update {defs : List EntityDef} {s : Schema} (hs : Schema.ofDefs defs = .ok s)
    (hkinds : s.KeysOfKinds) {c₀ : Client} (hc₀ : c₀.Opened s)
    {κ : String → String → NumberClass} (hholds : s.Holds κ c₀.store.tables)
    {before : List Action} (hbefore : ∀ a ∈ before, a.Regular κ c₀.store.tables) {q : Query}
    {α : Type} {r : Request α} {picks : View → Entity → Read (List Row)}
    {answers : View → Entity → List Row → α → Prop} (hr : r.Updates q picks answers)
    {entity : String} {e : Entity} (he : s.entity? entity = some e)
    (hkeeps : s.KeepsKeys e .update q) (tx : Option Nat) {a : α} :
    let c := before.foldl after c₀
    let left := (c.ask entity r tx).client.store.tables
    (c.ask entity r tx).result = .ok a → ∃ data rows t t', Operation.requireData q = .ok data ∧
      picks ⟨s, c.store.tables, t⟩ e = .ok rows ∧ (∀ x ∈ rows, c.store.tables.Has entity x) ∧
        s.Update e q data rows c.store.tables left ∧ answers ⟨s, left, t'⟩ e rows a := by
  have hresolved := Schema.Resolved.ofDefs hs
  intro c left ha
  obtain ⟨e', he', rfl, hnow, hleaves⟩ := ask_leaves hresolved hkinds hc₀ hholds hbefore ha
  obtain rfl : e = e' := Option.some.inj (he.symm.trans he')
  have hsteady := hkeeps.steady hresolved
  let relinks (n f : String) : Prop := ∃ data ∈ q.data.elim [] Data.rows, s.RelinksIn e data n f
  have hle : ∀ n f, relinks n f → s.Rewrites e .update q n f := by
    intro n f h
    obtain ⟨data, hdata, h⟩ := h
    exact ⟨data, hdata, .inl h⟩
  let course : Course := ⟨s, κ, s.Vouches e .update q, s.Rewrites e .update q, c.store.tables, hresolved,
    hkinds, .inl hsteady⟩
  have hwriting : course.Writing c.store.tables := .start hnow
  have hnarrow : s.Admissible relinks := .inl (hsteady.mono hle)
  obtain ⟨data, rows, t, hdata, hrows, hhas, hleft, hreaches, hupdated⟩ := hleaves _ <|
    Operation.leaves_updates hwriting he hnarrow hle (fun data hdata p hp =>
      ⟨fun n f h => ⟨data, hdata, p, hp, h⟩, fun n o ho => (ho data hdata).2 p hp⟩)
      (fun _ _ h => h) hr
  obtain ⟨hupdated, t', hanswers⟩ := hupdated hsteady
  refine ⟨data, rows, t, t', hdata, hrows, hhas, ⟨fun b hb x hx => ?_, hreaches.makes hsteady,
    hupdated.mono fun n f h => ?_⟩, hanswers⟩
  · obtain ⟨y, hy, -, hsame⟩ := hreaches.retains b hb x hx
    exact ⟨y, hy, hsteady.keyOf_eq hb hsame⟩
  · obtain ⟨data', hdata', h⟩ := h
    rw [Operation.rows_of_requireData hdata] at hdata'
    rwa [List.mem_singleton.1 hdata'] at h

/-! ### Loans and seats -/

/-- Members, and the loans that are theirs. -/
def EntityDef.lending : List EntityDef :=
  [{ name := "member",
     fields := [{ name := "id", kind := .int, id := true }, { name := "name", kind := .string }],
     relations := [.many "loans" "loan"] },
   { name := "loan",
     fields := [{ name := "id", kind := .int, id := true }, { name := "memberId", kind := .int }],
     relations := [.owning "member" "member" ["memberId"] ["id"]] }]

/-- Renames a member, who returns loan 1, takes over loan 2 and gets another one. -/
def Query.settling : Query where
  filter := (Query.ofId 1).filter
  data := some (.one ⟨[("name", .literal (.string "Ada")), ("loans", .relation {
    create := [⟨[("id", .literal (.int 3))]⟩]
    connect := [Filter.whereEquals {} "id" (.int 2)]
    disconnect := some (.records [Filter.whereEquals {} "id" (.int 1)]) })]⟩)

/-- Guests, and seats whose keys name the guests. -/
def EntityDef.theatre : List EntityDef :=
  [{ name := "guest", fields := [{ name := "id", kind := .int, id := true }] },
   { name := "seat",
     fields := [{ name := "guestId", kind := .int, id := true },
       { name := "row", kind := .int, id := true }, { name := "note", kind := .string }],
     relations := [.owning "guest" "guest" ["guestId"] ["id"]] }]

/-- Gives the seat of guest 1 to guest 2, with another note. -/
def Query.reseating : Query where
  filter := some ((Filter.whereEquals {} "guestId" (.int 1)).whereEquals "row" (.int 1))
  data := some (.one ⟨[("guest", .relation { connect := [Filter.whereEquals {} "id" (.int 2)] }),
    ("note", .literal (.string "new"))]⟩)

namespace Client

/-- A member with a loan, and a loan of nobody. -/
def lend : List Action :=
  [.ask "member" (.create (.ofFields [("id", .int 1)])) none,
   .ask "loan" (.create (.ofFields [("id", .int 1), ("memberId", .int 1)])) none,
   .ask "loan" (.create (.ofFields [("id", .int 2)])) none]

/-- Two guests, of whom the first has a seat. -/
def seat : List Action :=
  [.ask "guest" (.create (.ofFields [("id", .int 1)])) none,
   .ask "guest" (.create (.ofFields [("id", .int 2)])) none,
   .ask "seat" (.create (.ofFields [("guestId", .int 1), ("row", .int 1),
     ("note", .string "old")])) none]

/-- The loans keep their keys, and there is one more. -/
theorem ask_update_lending : ∃ (c₀ : Client) (e : Entity),
    Schema.ofDefs EntityDef.lending = .ok c₀.schema ∧ c₀.Opened c₀.schema ∧
      c₀.schema.Holds c₀.schema.classes c₀.store.tables ∧ c₀.schema.KeysOfKinds ∧
      c₀.schema.entity? "member" = some e ∧ c₀.schema.KeepsKeys e .update .settling ∧
      let c := lend.foldl after c₀
      let left := c.ask "member" (.update .settling) none
      c.keyTexts "loan" = ["1", "2"] ∧ left.client.keyTexts "loan" = ["1", "2", "3"] ∧
        left.client.keyTexts "member" = ["1"] ∧
        ∃ data rows, c₀.schema.Update e .settling data rows c.store.tables left.client.store.tables := by
  have hruns : (openMemory EntityDef.lending).toOption.any fun c₀ =>
      let c := lend.foldl after c₀
      let left := c.ask "member" (.update .settling) none
      c₀.schema.KeysOfKinds ∧ left.result.toOption.isSome ∧ c.keyTexts "loan" = ["1", "2"] ∧
        left.client.keyTexts "loan" = ["1", "2", "3"] ∧ left.client.keyTexts "member" = ["1"] ∧
          (c₀.schema.entity? "member").any fun e => c₀.schema.KeepsKeys e .update .settling := by
    decide +kernel
  obtain ⟨c₀, hs, hc₀, hholds, hkinds, hdone, hbefore, hloans, hmembers, hkeeps⟩ :=
    exists_openMemory hruns
  obtain ⟨a, ha⟩ := Option.isSome_iff_exists.1 hdone
  obtain ⟨e, he, hkeeps⟩ := (Option.any_eq_true _ _).1 hkeeps
  have hregular : ∀ a ∈ lend, a.Regular c₀.schema.classes c₀.store.tables := by
    intro a ha
    obtain rfl | rfl | rfl : a = _ ∨ a = _ ∨ a = _ := by simpa [lend] using ha
    all_goals exact ⟨_, .inl .create⟩
  obtain ⟨data, rows, -, -, -, -, -, hupdate, -⟩ := ask_update hs hkinds hc₀ hholds hregular
    Request.Updates.update he (of_decide_eq_true hkeeps) none (Except.toOption_eq_some.1 ha)
  exact ⟨c₀, e, hs, hc₀, hholds, hkinds, he, of_decide_eq_true hkeeps, hbefore, hloans, hmembers, data,
    rows, hupdate⟩

/-- Connecting a seat to another guest changes a part of its key. The seat is stored a second time
under the new key; the old row stays as it was, and it is what is given back. -/
theorem ask_update_doubles : ∃ c₀ : Client,
    Schema.ofDefs EntityDef.theatre = .ok c₀.schema ∧ c₀.Opened c₀.schema ∧
      c₀.schema.Holds c₀.schema.classes c₀.store.tables ∧ c₀.schema.KeysOfKinds ∧
      let c := seat.foldl after c₀
      let left := c.ask "seat" (.update .reseating) none
      c.keyTexts "seat" = ["1,1"] ∧ left.client.keyTexts "seat" = ["1,1", "2,1"] ∧
        left.result.toOption.map (fun r => (r.fields.value "note").text) = some "old" :=
  exists_openMemory (by decide +kernel)

end Client

end RelationalStore

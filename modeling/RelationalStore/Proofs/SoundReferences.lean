import RelationalStore.Proofs.SavedRequests

/- References that requests leave behind. After one that creates or updates and vouches for a
   foreign key, the key dangles nowhere that it did not dangle before (`Client.ask_saves_sound`),
   wherever its values came from; and what a row references that is not written stays
   (`Client.ask_updates_keep`), as long as the request rewrites nothing that the foreign key
   references. Keys that dangle are not repaired, unique fields may be rewritten under the rows that
   reference them, and what a creation fills in after the check of its keys, or takes over without
   one, may reference nothing (`Client.ask_saves_strays`). -/
namespace RelationalStore
open SortedMap Read

namespace Client
variable {defs : List EntityDef} {s : Schema} (hs : Schema.ofDefs defs = .ok s)
  (hkinds : s.KeysOfKinds) {c₀ : Client} (hc₀ : c₀.Opened s) {κ : String → String → NumberClass}
  (hholds : s.Holds κ c₀.store.tables) {before : List Action}
  (hbefore : ∀ a ∈ before, a.Regular κ c₀.store.tables) {q : Query} {α : Type} {r : Request α}
  {entity : String} {e : Entity} (he : s.entity? entity = some e) (tx : Option Nat) {a : α}
include hs hkinds hc₀ hholds hbefore he

/-- What a request that creates or updates leaves, where the fields that may change are those that it
rewrites, or all if one of them is of a primary key. -/
theorem ask_saves {picks : View → Entity → Read (List Row)} (hr : r.Saves q picks) :
    let c := before.foldl after c₀
    let left := (c.ask entity r tx).client.store.tables
    (c.ask entity r tx).result = .ok a → s.Holds κ c.store.tables ∧
      s.Writing κ (s.Vouches e r.access q) (s.MayChange e r.access q) c.store.tables left ∧
        s.Retains (s.MayChange e r.access q) c.store.tables left ∧
          ∃ rows t, picks ⟨s, c.store.tables, t⟩ e = .ok rows ∧ (s.KeepsKeys e r.access q →
            s.Steady (s.MayChange e r.access q) ∧ ∀ x ∈ rows, ∃ y, left.Has e.name y ∧
              e.keyOf y = e.keyOf x ∧ ∀ data ∈ q.data.elim [] Data.rows,
                s.Settles (s.Vouches e r.access q) (s.MayChange e r.access q) left e data y) := by
  have hresolved := Schema.Resolved.ofDefs hs
  intro c left ha
  obtain ⟨e', he', rfl, hnow, hleaves⟩ := ask_leaves hresolved hkinds hc₀ hholds hbefore ha
  obtain rfl : e = e' := Option.some.inj (he.symm.trans he')
  let course : Course := ⟨s, κ, s.Vouches e r.access q, s.MayChange e r.access q, c.store.tables,
    hresolved, hkinds, Schema.admissible_mayChange hresolved e r.access q⟩
  have hwriting : course.Writing c.store.tables := .start hnow
  obtain ⟨hleft, hretains, rows, t, hrows, hsettled⟩ := hleaves _ <|
    Operation.leaves_saves hwriting he (fun _ _ hrewrites _ => hrewrites) (fun _ _ h => h) hr
  refine ⟨hnow, hleft, hretains, rows, t, hrows, fun hkeeps => ?_⟩
  have hsteady : s.Steady (s.MayChange e r.access q) :=
    fun t ht f hf hchange => hkeeps.steady hresolved t ht f hf (hchange hkeeps)
  exact ⟨hsteady, hsettled hsteady⟩

variable {b : Entity} (hb : s.entity? b.name = some b) {o : Relation}
  (hanchored : s.Anchored (s.MayChange e r.access q) o)
include hb hanchored

/-- Whatever was done with a client before: when a request that creates or updates is answered, a
foreign key that it vouches for references a row, in every row that is stored, unless it dangled
before. Where the request rewrites no field of a primary key, it dangled in the same row, and the
request did not set it. -/
theorem ask_saves_sound {picks : View → Entity → Read (List Row)} (hr : r.Saves q picks)
    (hcheckable : s.Checkable b o) (hvouches : s.Vouches e r.access q b.name o) :
    let c := before.foldl after c₀
    let left := (c.ask entity r tx).client.store.tables
    (c.ask entity r tx).result = .ok a → ∃ rows t, picks ⟨s, c.store.tables, t⟩ e = .ok rows ∧
      ∀ y, left.Has b.name y → left.Dangles o y →
        ∃ x, c.store.tables.Has b.name x ∧ c.store.tables.Dangles o x ∧
          compare (Key.ofRow o.near x) (Key.ofRow o.near y) = .eq ∧
          (s.KeepsKeys e r.access q → b.keyOf x = b.keyOf y ∧
            (b = e → x ∈ rows → ∀ data ∈ q.data.elim [] Data.rows,
              ∀ f ∈ o.near, ∀ entry ∈ data.fields, ¬ e.Sets f entry)) := by
  intro c left ha
  obtain ⟨-, hleft, -, rows, t, hrows, hsettled⟩ :=
    ask_saves hs hkinds hc₀ hholds hbefore he tx hr ha
  have hguarded : s.Guarded (s.Vouches e r.access q) (s.MayChange e r.access q) b o :=
    ⟨hcheckable, hvouches, hanchored⟩
  refine ⟨rows, t, hrows, fun y hy hdangles => ?_⟩
  obtain ⟨x, hx, hfirst, hkey, hown⟩ := hleft.excused b hb y hy o hguarded hdangles
  refine ⟨x, hx, hfirst, hkey, fun hkeeps => ?_⟩
  obtain ⟨hsteady, hsettled⟩ := hsettled hkeeps
  refine ⟨hown hsteady, fun hbe hmem data hdata f hf entry hentry hsets => ?_⟩
  subst hbe
  obtain ⟨y', hy', hkey', hsettled⟩ := hsettled x hmem
  obtain rfl : y = y' := by
    refine hleft.holds.eq_of_keyOf hb hy hy' ?_
    rw [hkey', hown hsteady]
    exact Std.ReflOrd.compare_self
  exact hsettled data hdata o hguarded ⟨f, hf, entry, hentry, hsets⟩ hdangles

/-- What a row references is still there after an update that rewrites no field that is referenced. So
a row that the update does not write to does not come to dangle. -/
theorem ask_updates_keep {picks : View → Entity → Read (List Row)}
    {answers : View → Entity → List Row → α → Prop} (hr : r.Updates q picks answers)
    (ho : o ∈ b.owningRelations) :
    let c := before.foldl after c₀
    let left := (c.ask entity r tx).client.store.tables
    (c.ask entity r tx).result = .ok a → ∀ z, c.store.tables.Has b.name z →
      ¬ c.store.tables.Dangles o z → ¬ left.Dangles o z := by
  intro c left ha z hz hsound hdangles
  obtain ⟨hnow, hleft, hretains, -⟩ :=
    ask_saves hs hkinds hc₀ hholds hbefore he tx (.update hr) ha
  exact hsound (hretains.dangles (.ofDefs hs) hkinds hb hnow hleft.holds ho hanchored
    (hnow.within hz) hdangles)

end Client

/-! ### Badges, posts and meters -/

/-- Badges with their rooms, and with holders who are workers and guests at once; and visits, with the
hours at which they were written last. -/
def EntityDef.badging : List EntityDef :=
  [{ name := "room", fields := [{ name := "id", kind := .int, id := true }] },
   { name := "worker", fields := [{ name := "id", kind := .int, id := true }],
     relations := [.many "badges" "badge"] },
   { name := "guest", fields := [{ name := "id", kind := .int, id := true }] },
   { name := "badge",
     fields := [{ name := "id", kind := .int, id := true },
       { name := "roomId", kind := .int, default := some (.literal (.int 7)) },
       { name := "holderId", kind := .int }],
     relations := [.owning "room" "room" ["roomId"] ["id"],
       .owning "worker" "worker" ["holderId"] ["id"], .owning "guest" "guest" ["holderId"] ["id"]] },
   { name := "hour", fields := [{ name := "at", kind := .datetime, id := true }] },
   { name := "visit",
     fields := [{ name := "id", kind := .int, id := true },
       { name := "at", kind := .datetime, updatedAt := true }],
     relations := [.owning "hour" "hour" ["at"] ["at"]] }]

/-- A badge for room 5 and worker 2. -/
def Query.issuing : Query where
  data := some (.one ⟨[("id", .literal (.int 1)), ("roomId", .literal (.int 5)),
    ("worker", .relation { connect := [Filter.whereEquals {} "id" (.int 2)] })]⟩)

/-- Gives badge 1 to worker 2. -/
def Query.handing : Query where
  filter := some (Filter.whereEquals {} "id" (.int 2))
  data := some (.one ⟨[("badges", .relation { connect := [Filter.whereEquals {} "id" (.int 1)] })]⟩)

/-- Cells with two groups of fields that have one name together, and marks of cells. -/
def EntityDef.gridding : List EntityDef :=
  [{ name := "cell",
     fields := [{ name := "id", kind := .int, id := true }, { name := "a", kind := .int },
       { name := "b_c", kind := .int }, { name := "a_b", kind := .int }, { name := "c", kind := .int }],
     uniqueGroups := [["a", "b_c"], ["a_b", "c"]] },
   { name := "mark",
     fields := [{ name := "id", kind := .int, id := true }, { name := "x", kind := .int },
       { name := "y", kind := .int }],
     relations := [.owning "cell" "cell" ["x", "y"] ["a_b", "c"]] }]

/-- Users with their mentors, and posts with their authors, who are named by address. -/
def EntityDef.mailing : List EntityDef :=
  [{ name := "user",
     fields := [{ name := "id", kind := .int, id := true },
       { name := "email", kind := .string, unique := true }, { name := "name", kind := .string },
       { name := "mentorEmail", kind := .string }],
     relations := [.owning "mentor" "user" ["mentorEmail"] ["email"]] },
   { name := "post",
     fields := [{ name := "id", kind := .int, id := true }, { name := "title", kind := .string },
       { name := "authorEmail", kind := .string }],
     relations := [.owning "author" "user" ["authorEmail"] ["email"]] }]

/-- Writes the fields of row 1. -/
def Query.rewriting (fields : List (String × Json)) : Query :=
  { Query.ofFields fields with filter := (Query.ofId 1).filter }

/-- Meters with the numbers of gauges and of counts, entries of meters, and counts of entries. -/
def EntityDef.metering (kind : ScalarKind) : List EntityDef :=
  [{ name := "gauge", fields := [{ name := "id", kind, id := true }] },
   { name := "meter", fields := [{ name := "id", kind := .int, id := true }],
     relations := [.owning "gauge" "gauge" ["id"] ["id"], .owning "count" "count" ["id"] ["id"]] },
   { name := "entry",
     fields := [{ name := "id", kind := .int, id := true }, { name := "meterId", kind := .int }],
     relations := [.owning "meter" "meter" ["meterId"] ["id"], .many "counts" "count"] },
   { name := "count",
     fields := [{ name := "id", kind := .int, id := true }, { name := "entryId", kind := .int }],
     relations := [.owning "entry" "entry" ["entryId"] ["id"], .one "meter" "meter"] }]

namespace Client

/-- The keys of the rows whose foreign key references no row, as they are written. -/
def strayTexts (c : Client) (entity relation : String) : List String := do
  let e ← (c.schema.entity? entity).toList
  let r ← (e.relation? relation).toList
  let t ← (c.store.tables.get? entity).toList
  (t.toList.filter fun row => c.store.tables.Dangles r row).map fun row => (e.keyOf row).text

/-- A number that is the nearest floating-point number of the next one too. -/
def tie : Int := 9007199254740992

/-- Makes a count of an entry, and gives it the meter with the number. -/
def counting (filter : Option Filter) (fields : List (String × Json)) : Query where
  filter
  data := some (.one ⟨fields.map (fun p => (p.1, .literal p.2)) ++ [("counts", .relation {
    create := [⟨[("id", .literal (.int tie)),
      ("meter", .relation { connect := [Filter.whereEquals {} "id" (.int tie)] })]⟩] })]⟩)

/-- A room, two workers, and a guest who is the first of them. -/
def furnish : List Action :=
  [.ask "room" (.create (.ofFields [("id", .int 5)])) none,
   .ask "worker" (.create (.ofFields [("id", .int 1)])) none,
   .ask "worker" (.create (.ofFields [("id", .int 2)])) none,
   .ask "guest" (.create (.ofFields [("id", .int 1)])) none]

/-- A badge of nobody. -/
def issue : Action := .ask "badge" (.create (.ofFields [("id", .int 1), ("roomId", .int 5)])) none

/-- A cell. -/
def rule : Action :=
  .ask "cell" (.create (.ofFields [("id", .int 1), ("a", .int 1), ("b_c", .int 2)])) none

/-- A user with a post. -/
def publish : List Action :=
  [.ask "user" (.create (.ofFields [("id", .int 1), ("email", .string "a")])) none,
   .ask "post" (.create (.ofFields [("id", .int 1), ("authorEmail", .string "a")])) none]

/-- The same, and the user is deleted. -/
def retire : List Action := publish ++ [.ask "user" (.delete (.ofId 1)) none]

/-- Two entries, the first of which is of the meter with the next number. -/
def record : List Action :=
  [.ask "entry" (.create (.ofFields [("id", .int 1), ("meterId", .int (tie + 1))])) none,
   .ask "entry" (.create (.ofFields [("id", .int 2)])) none]

/-- A meter whose number is that of a gauge. -/
def link : List Action :=
  [.ask "gauge" (.create (.ofFields [("id", .int tie)])) none,
   .ask "meter" (.create { data := some (.one ⟨[("gauge", .relation {
     connect := [Filter.whereEquals {} "id" (.int tie)] })]⟩) }) none]

/-- A meter whose number is put past the engine as a floating-point number. -/
def force : List Action :=
  [.begin ["meter"] .readWrite, .put 1 "meter" (SortedMap.ofList [("id", .float (.ofInt tie))]),
   .commit 1]

/-- A badge whose fields are all written references its room, and its holder in both tables. -/
theorem ask_saves_sound_badging : ∃ (c₀ : Client) (b : Entity),
    Schema.ofDefs EntityDef.badging = .ok c₀.schema ∧ c₀.Opened c₀.schema ∧
      c₀.schema.Holds c₀.schema.classes c₀.store.tables ∧ c₀.schema.KeysOfKinds ∧
      c₀.schema.entity? "badge" = some b ∧ b.owningRelations.length = 3 ∧
      let q := Query.ofFields [("id", .int 1), ("roomId", .int 5), ("holderId", .int 1)]
      let left := (furnish.foldl after c₀).ask "badge" (.create q) none
      left.client.keyTexts "badge" = ["1"] ∧ ∀ o ∈ b.owningRelations,
        c₀.schema.Checkable b o ∧ c₀.schema.Vouches b .create q "badge" o ∧
          c₀.schema.Anchored (c₀.schema.MayChange b .create q) o ∧
          ∀ y, left.client.store.tables.Has "badge" y → ¬ left.client.store.tables.Dangles o y := by
  have hruns : (openMemory EntityDef.badging).toOption.any fun c₀ =>
      let q := Query.ofFields [("id", .int 1), ("roomId", .int 5), ("holderId", .int 1)]
      let c := furnish.foldl after c₀
      let left := c.ask "badge" (.create q) none
      c₀.schema.KeysOfKinds ∧ left.result.toOption.isSome ∧ left.client.keyTexts "badge" = ["1"] ∧
        (∀ t ∈ c.store.tables.get? "badge", t.toList = []) ∧
          (c₀.schema.entity? "badge").any fun b => b.owningRelations.length = 3 ∧
            ∀ o ∈ b.owningRelations, c₀.schema.Checkable b o ∧
              c₀.schema.Vouches b .create q "badge" o ∧
                c₀.schema.Anchored (c₀.schema.MayChange b .create q) o := by
    decide +kernel
  obtain ⟨c₀, hs, hc₀, hholds, hkinds, hdone, hbadges, hempty, hfound⟩ := exists_openMemory hruns
  obtain ⟨a, ha⟩ := Option.isSome_iff_exists.1 hdone
  obtain ⟨b, he, hfound⟩ := (Option.any_eq_true _ _).1 hfound
  obtain ⟨hthree, hkeys⟩ := of_decide_eq_true hfound
  have hname : b.name = "badge" := (Schema.Resolved.ofDefs hs).name he
  have hb : c₀.schema.entity? b.name = some b := by rw [hname, he]
  have hregular : ∀ a ∈ furnish, a.Regular c₀.schema.classes c₀.store.tables := by
    intro a ha
    obtain rfl | rfl | rfl | rfl : a = _ ∨ a = _ ∨ a = _ ∨ a = _ := by simpa [furnish] using ha
    all_goals exact ⟨_, .inl .create⟩
  refine ⟨c₀, b, hs, hc₀, hholds, hkinds, he, hthree, hbadges, fun o ho => ?_⟩
  obtain ⟨hcheckable, hvouches, hanchored⟩ := hkeys o ho
  refine ⟨hcheckable, hvouches, hanchored, fun y hy hdangles => ?_⟩
  obtain ⟨_, -, -, hsound⟩ := ask_saves_sound hs hkinds hc₀ hholds hregular he none hb hanchored
    Request.Saves.create hcheckable (by rw [hname]; exact hvouches) (Except.toOption_eq_some.1 ha)
  obtain ⟨x, ⟨t, ht, hx⟩, -⟩ := hsound y (by rwa [hname]) hdangles
  rw [hname] at ht
  rw [hempty t ht] at hx
  cases hx

/-- A default fills a key when the others have been checked, and so does the time of the write. A key
that is taken over by connecting, from either end, is not checked for another relation that has it
too; and one that is checked may be looked up by an index over other fields of the same name. A key
that dangles stays as it is when another field of the row is written, here after the row that it
referenced was deleted. A user who takes another address can name the old one as that of the mentor.
And where numbers of two kinds meet in a column, of which one is put past the engine or comes from a
key of another kind, a key that was checked dangles in the end. -/
theorem ask_saves_strays :
    (∃ c₀ : Client, Schema.ofDefs EntityDef.badging = .ok c₀.schema ∧ c₀.Opened c₀.schema ∧
      c₀.schema.Holds c₀.schema.classes c₀.store.tables ∧ c₀.schema.KeysOfKinds ∧
      (let left := c₀.ask "badge" (.create (.ofFields [("id", .int 1)])) none
       left.result.isOk = true ∧ left.client.strayTexts "badge" "room" = ["1"]) ∧
      (let left := c₀.ask "visit" (.create (.ofFields [("id", .int 1)])) none
       left.result.isOk = true ∧ left.client.strayTexts "visit" "hour" = ["1"]) ∧
      let c := furnish.foldl after c₀
      (let left := c.ask "badge" (.create .issuing) none
       left.result.isOk = true ∧ left.client.strayTexts "badge" "guest" = ["1"]) ∧
      let left := (c.after issue).ask "worker" (.update .handing) none
      left.result.isOk = true ∧ (c.after issue).strayTexts "badge" "guest" = [] ∧
        left.client.strayTexts "badge" "guest" = ["1"]) ∧
    (∃ c₀ : Client, Schema.ofDefs EntityDef.gridding = .ok c₀.schema ∧ c₀.Opened c₀.schema ∧
      c₀.schema.Holds c₀.schema.classes c₀.store.tables ∧ c₀.schema.KeysOfKinds ∧
      let left := (c₀.after rule).ask "mark" (.create (.ofFields [("id", .int 1), ("x", .int 1),
        ("y", .int 2)])) none
      left.result.isOk = true ∧ left.client.strayTexts "mark" "cell" = ["1"]) ∧
    (∃ c₀ : Client, Schema.ofDefs EntityDef.mailing = .ok c₀.schema ∧ c₀.Opened c₀.schema ∧
      c₀.schema.Holds c₀.schema.classes c₀.store.tables ∧ c₀.schema.KeysOfKinds ∧
      (let left := (retire.foldl after c₀).ask "post" (.update (.rewriting [("title", .string "b")]))
        none
       left.result.isOk = true ∧ left.client.strayTexts "post" "author" = ["1"]) ∧
      let c := publish.foldl after c₀
      let left := c.ask "user" (.update (.rewriting [("email", .string "b"),
        ("mentorEmail", .string "a")])) none
      left.result.isOk = true ∧ c.strayTexts "user" "mentor" = [] ∧
        left.client.strayTexts "user" "mentor" = ["1"]) ∧
    (∃ c₀ : Client, Schema.ofDefs (EntityDef.metering .float) = .ok c₀.schema ∧ c₀.Opened c₀.schema ∧
      c₀.schema.Holds c₀.schema.classes c₀.store.tables ∧
      let c := (link ++ record).foldl after c₀
      let left := c.ask "entry" (.create (counting none [("id", .int 3), ("meterId", .int (tie + 1))]))
        none
      left.result.isOk = true ∧ c.strayTexts "entry" "meter" = [] ∧
        left.client.strayTexts "entry" "meter" = ["1", "3"]) ∧
    ∃ c₀ : Client, Schema.ofDefs (EntityDef.metering .int) = .ok c₀.schema ∧ c₀.Opened c₀.schema ∧
      c₀.schema.Holds c₀.schema.classes c₀.store.tables ∧ c₀.schema.KeysOfKinds ∧
      let c := (force ++ record).foldl after c₀
      let left := c.ask "entry" (.create (counting none [("id", .int 3), ("meterId", .int (tie + 1))]))
        none
      left.result.isOk = true ∧ c.strayTexts "entry" "meter" = [] ∧
        left.client.strayTexts "entry" "meter" = ["1", "3"] :=
  ⟨exists_openMemory (by decide +kernel), exists_openMemory (by decide +kernel),
    exists_openMemory (by decide +kernel), exists_openMemory (by decide +kernel),
    exists_openMemory (by decide +kernel)⟩

/-- The post goes on to reference its author, who has got a name. -/
theorem ask_updates_keep_mailing : ∃ (c₀ : Client) (e b : Entity) (o : Relation),
    Schema.ofDefs EntityDef.mailing = .ok c₀.schema ∧ c₀.Opened c₀.schema ∧
      c₀.schema.Holds c₀.schema.classes c₀.store.tables ∧ c₀.schema.KeysOfKinds ∧
      c₀.schema.entity? "user" = some e ∧ c₀.schema.entity? "post" = some b ∧
      o ∈ b.owningRelations ∧
      let q := Query.rewriting [("name", .string "Ada")]
      c₀.schema.Anchored (c₀.schema.MayChange e .update q) o ∧
      let c := publish.foldl after c₀
      let left := c.ask "user" (.update q) none
      left.result.isOk = true ∧ left.client.keyTexts "post" = ["1"] ∧
        ∀ z, c.store.tables.Has "post" z → ¬ c.store.tables.Dangles o z →
          ¬ left.client.store.tables.Dangles o z := by
  have hruns : (openMemory EntityDef.mailing).toOption.any fun c₀ =>
      let q := Query.rewriting [("name", .string "Ada")]
      let left := (publish.foldl after c₀).ask "user" (.update q) none
      c₀.schema.KeysOfKinds ∧ left.result.toOption.isSome ∧ left.client.keyTexts "post" = ["1"] ∧
        (c₀.schema.entity? "user").any fun e => (c₀.schema.entity? "post").any fun b =>
          b.owningRelations.any fun o => c₀.schema.Anchored (c₀.schema.MayChange e .update q) o := by
    decide +kernel
  obtain ⟨c₀, hs, hc₀, hholds, hkinds, hdone, hposts, hfound⟩ := exists_openMemory hruns
  obtain ⟨e, he, hfound⟩ := (Option.any_eq_true _ _).1 hfound
  obtain ⟨b, hpost, hfound⟩ := (Option.any_eq_true _ _).1 hfound
  obtain ⟨o, ho, hanchored⟩ := List.any_eq_true.1 hfound
  have hanchored := of_decide_eq_true hanchored
  obtain ⟨a, ha⟩ := Option.isSome_iff_exists.1 hdone
  have ha := Except.toOption_eq_some.1 ha
  have hregular : ∀ a ∈ publish, a.Regular c₀.schema.classes c₀.store.tables := by
    intro a ha
    obtain rfl | rfl : a = _ ∨ a = _ := by simpa [publish] using ha
    all_goals exact ⟨_, .inl .create⟩
  have hname : b.name = "post" := (Schema.Resolved.ofDefs hs).name hpost
  have hkept := ask_updates_keep hs hkinds hc₀ hholds hregular he none (by rw [hname, hpost])
    hanchored Request.Updates.update ho ha
  rw [hname] at hkept
  exact ⟨c₀, e, b, o, hs, hc₀, hholds, hkinds, he, hpost, ho, hanchored, by rw [ha]; rfl, hposts,
    hkept⟩

/-- A unique field is rewritten under the post that references it; and where numbers of two kinds meet
in a column, a meter gets another number in the place of one that was equal to it. -/
theorem ask_updates_strays :
    (∃ c₀ : Client, Schema.ofDefs EntityDef.mailing = .ok c₀.schema ∧ c₀.Opened c₀.schema ∧
      c₀.schema.Holds c₀.schema.classes c₀.store.tables ∧ c₀.schema.KeysOfKinds ∧
      let c := publish.foldl after c₀
      let left := c.ask "user" (.update (.rewriting [("email", .string "b")])) none
      left.result.isOk = true ∧ c.strayTexts "post" "author" = [] ∧
        left.client.strayTexts "post" "author" = ["1"]) ∧
    (∃ c₀ : Client, Schema.ofDefs (EntityDef.metering .float) = .ok c₀.schema ∧ c₀.Opened c₀.schema ∧
      c₀.schema.Holds c₀.schema.classes c₀.store.tables ∧
      let c := (link ++ record).foldl after c₀
      let left := c.ask "entry" (.update (counting (Query.ofId 2).filter [])) none
      left.result.isOk = true ∧ c.strayTexts "entry" "meter" = [] ∧
        left.client.strayTexts "entry" "meter" = ["1"]) ∧
    ∃ c₀ : Client, Schema.ofDefs (EntityDef.metering .int) = .ok c₀.schema ∧ c₀.Opened c₀.schema ∧
      c₀.schema.Holds c₀.schema.classes c₀.store.tables ∧ c₀.schema.KeysOfKinds ∧
      let c := (force ++ record).foldl after c₀
      let left := c.ask "entry" (.update (counting (Query.ofId 2).filter [])) none
      left.result.isOk = true ∧ c.strayTexts "entry" "meter" = [] ∧
        left.client.strayTexts "entry" "meter" = ["1"] :=
  ⟨exists_openMemory (by decide +kernel), exists_openMemory (by decide +kernel),
    exists_openMemory (by decide +kernel)⟩

end Client

end RelationalStore

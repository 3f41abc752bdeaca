import RelationalStore.Proofs.ConformingRows

/- Rows are looked for by the primary key, by an index or one by one, and the answer is the same. In
   every state that a run leads to, the rows of a table are stored under their keys and each index
   has the keys of its rows (`Schema.Holds`), so what either of them gives are the rows that a look
   at every row would give, in the same order. -/
namespace RelationalStore
open SortedMap

/-- Whatever was done with a client before: the rows whose fields have the values of a key are those
that a look at every row gives, in the same order, whichever way they are looked for. -/
theorem Client.rowsWhere_filters {defs : List EntityDef} {s : Schema}
    (hs : Schema.ofDefs defs = .ok s) (hkinds : s.KeysOfKinds) {c₀ : Client} (hc₀ : c₀.Opened s)
    {κ : String → String → NumberClass} (hholds : s.Holds κ c₀.store.tables)
    {actions : List Action} (hactions : ∀ a ∈ actions, a.Regular κ c₀.store.tables) {e : Entity}
    (he : s.entity? e.name = some e) (hnames : (e.tableDef.indexes.map (·.name)).Nodup)
    {fields : List String} {key : Key} (hlength : key.parts.length = fields.length)
    (hkey : ∀ p ∈ fields.zip key.parts, p.2.within (s.classes e.name p.1))
    (hnull : key.hasNull = false) (tx : Transaction) :
    let v : View := ⟨s, (actions.foldl after c₀).store.tables, tx⟩
    v.rowsWhere e fields key =
      (v.rows e).map (·.filter fun row => (Key.ofRow fields row).equiv key) := by
  obtain ⟨-, hheld⟩ := holds_foldl (Schema.Resolved.ofDefs hs) hkinds hc₀ hholds hactions
  refine hheld.rowsWhere_eq he (.inr hnames) tx (Key.fits_of_zip hlength fun p hp => ?_) hnull
  rw [hheld.classes e he]
  exact hkey p hp

/-! ### Readings of meters -/

/-- Meters, and readings of which each has the number of its meter, a place of its own and a note. -/
def EntityDef.readings : List EntityDef :=
  [{ name := "meter", fields := [{ name := "id", kind := .int, id := true }],
     relations := [.many "readings" "reading"] },
   { name := "reading",
     fields := [{ name := "id", kind := .int, id := true }, { name := "meterId", kind := .int },
       { name := "place", kind := .int, unique := true }, { name := "note", kind := .string }],
     relations := [.owning "meter" "meter" ["meterId"] ["id"]] }]

namespace Client

/-- The numbers of the rows that have the values in the fields, as they are found by `search`. -/
def found (c : Client) (search : View → Entity → List String → Key → Read (List Row))
    (entity : String) (fields : List String) (values : List Value) : Option (List String) := do
  let e ← c.schema.entity? entity
  let v : View := ⟨c.schema, c.store.tables, { id := 0, mode := .readOnly, scope := [entity] }⟩
  return (← (search v e fields ⟨values⟩).toOption).map fun row => (e.keyOf row).text

/-- A look at every row. -/
def scan (v : View) (e : Entity) (fields : List String) (key : Key) : Read (List Row) :=
  (v.rows e).map (·.filter fun row => (Key.ofRow fields row).equiv key)

/-- Two meters with a reading each, and a third reading of the first one. -/
def measure : List Action :=
  [.ask "meter" (.create (.ofFields [("id", .int 1)])) none,
   .ask "meter" (.create (.ofFields [("id", .int 2)])) none,
   .ask "reading" (.create (.ofFields [("id", .int 1), ("meterId", .int 1), ("place", .int 3),
     ("note", .string "low")])) none,
   .ask "reading" (.create (.ofFields [("id", .int 2), ("meterId", .int 2), ("place", .int 2),
     ("note", .string "low")])) none,
   .ask "reading" (.create (.ofFields [("id", .int 3), ("meterId", .int 1), ("place", .int 1)])) none]

theorem regular_measure {κ : String → String → NumberClass} {first : Tables} :
    ∀ a ∈ measure, a.Regular κ first := by
  intro a ha
  simp only [measure, List.mem_cons, List.not_mem_nil, or_false] at ha
  rcases ha with rfl | rfl | rfl | rfl | rfl <;> exact ⟨_, .inl .create⟩

/-- By the primary key, a unique index, the index of a foreign key, and without any. -/
theorem rowsWhere_filters_measured : ∃ (c₀ : Client) (e : Entity),
    Schema.ofDefs EntityDef.readings = .ok c₀.schema ∧ c₀.Opened c₀.schema ∧
      c₀.schema.Holds c₀.schema.classes c₀.store.tables ∧ c₀.schema.KeysOfKinds ∧
      (∀ a ∈ measure, a.Regular c₀.schema.classes c₀.store.tables) ∧
      c₀.schema.entity? "reading" = some e ∧ (e.tableDef.indexes.map (·.name)).Nodup ∧
      let c := measure.foldl after c₀
      c.found View.rowsWhere "reading" ["id"] [.int 2] = some ["2"] ∧
      c.found View.rowsWhere "reading" ["place"] [.int 1] = some ["3"] ∧
      c.found View.rowsWhere "reading" ["meterId"] [.int 1] = some ["1", "3"] ∧
      c.found View.rowsWhere "reading" ["note"] [.string "low"] = some ["1", "2"] ∧
      ∀ p ∈ [("id", Value.int 2), ("place", .int 1), ("meterId", .int 1), ("note", .string "low")],
        ∀ tx : Transaction, View.rowsWhere ⟨c₀.schema, c.store.tables, tx⟩ e [p.1] ⟨[p.2]⟩ =
          scan ⟨c₀.schema, c.store.tables, tx⟩ e [p.1] ⟨[p.2]⟩ := by
  have hruns : (openMemory EntityDef.readings).toOption.any fun c₀ =>
      let c := measure.foldl after c₀
      c₀.schema.KeysOfKinds ∧
        c.found View.rowsWhere "reading" ["id"] [.int 2] = some ["2"] ∧
        c.found View.rowsWhere "reading" ["place"] [.int 1] = some ["3"] ∧
        c.found View.rowsWhere "reading" ["meterId"] [.int 1] = some ["1", "3"] ∧
        c.found View.rowsWhere "reading" ["note"] [.string "low"] = some ["1", "2"] ∧
        (c₀.schema.entity? "reading").any fun e => (e.tableDef.indexes.map (·.name)).Nodup ∧
          ∀ p ∈ [("id", Value.int 2), ("place", .int 1), ("meterId", .int 1), ("note", .string "low")],
            p.2.within (c₀.schema.classes "reading" p.1) ∧ p.2.isNull = false := by
    decide +kernel
  obtain ⟨c₀, hs, hc₀, hholds, hkinds, hid, hplace, hmeter, hnote, hfound⟩ := exists_openMemory hruns
  obtain ⟨e, he, hfound⟩ := (Option.any_eq_true _ _).1 hfound
  obtain ⟨hnames, hvalues⟩ := of_decide_eq_true hfound
  have hname : e.name = "reading" := (Schema.Resolved.ofDefs hs).name he
  refine ⟨c₀, e, hs, hc₀, hholds, hkinds, regular_measure, he, hnames, hid, hplace, hmeter, hnote,
    fun p hp tx => ?_⟩
  obtain ⟨hwithin, hnull⟩ := hvalues p hp
  refine rowsWhere_filters hs hkinds hc₀ hholds regular_measure (by rw [hname]; exact he) hnames rfl
    ?_ ?_ tx
  · rw [hname]
    simpa using hwithin
  · simpa [Key.hasNull] using hnull

/-- A number that is the nearest floating-point number of the next one too. -/
def twin : Int := 9007199254740992

/-- Three readings, the first of which is of a meter with a floating-point number, that is equal to
those of the other two. It is taken out again. -/
def mismeasure : List Action :=
  [.begin ["reading"] .readWrite,
   .put 1 "reading" (SortedMap.ofList [("id", .int 1), ("meterId", .float (.ofInt twin)),
     ("place", .null), ("note", .null)]),
   .put 1 "reading" (SortedMap.ofList [("id", .int 2), ("meterId", .int (twin + 1)),
     ("place", .null), ("note", .null)]),
   .put 1 "reading" (SortedMap.ofList [("id", .int 3), ("meterId", .int twin),
     ("place", .null), ("note", .null)]),
   .delete 1 "reading" ⟨[.int 1]⟩,
   .commit 1]

/-- A number of another kind that is put past the engine can leave the keys of different rows under
one value of an index, also when it is gone and all values are of their kinds again. -/
theorem rowsWhere_mixed : ∃ c₀ : Client,
    Schema.ofDefs EntityDef.readings = .ok c₀.schema ∧ c₀.Opened c₀.schema ∧
      c₀.schema.Holds c₀.schema.classes c₀.store.tables ∧ c₀.schema.KeysOfKinds ∧
      (∀ e ∈ c₀.schema.entities.values, (e.tableDef.indexes.map (·.name)).Nodup) ∧
      let c := mismeasure.foldl after c₀
      c.strays "meter" = [] ∧ c.strays "reading" = [] ∧
        c.found View.rowsWhere "reading" ["meterId"] [.int twin] = some ["2", "3"] ∧
        c.found scan "reading" ["meterId"] [.int twin] = some ["3"] :=
  exists_openMemory (by decide +kernel)

end Client

end RelationalStore

import RelationalStore.Proofs.CompleteWrites

/- Rows conform to their entity: they have its fields and no others, each value is null or of the
   field's kind, and what may not be null is not. A value that is written is coerced, one that is
   calculated or pushed is of the kind of the operands, and one that is taken over from a related
   row has the kind of the field that it comes from. Nothing checks that this is the kind of the
   field that it goes to, so the schema must say so (`Schema.Coherent`), as it must for the fields
   that are stamped and counted. -/
namespace RelationalStore
open SortedMap Read Operation

namespace Entity

/-- The row is complete, and its values are null or of the kinds of their fields. -/
structure Conforms (e : Entity) (row : Row) : Prop extends Completes e row where
  kinds : ∀ f ∈ e.fields, f.takes (row.value f.name)

instance (e : Entity) (row : Row) : Decidable (e.Conforms row) :=
  decidable_of_iff ((row.keys = (SortedSet.ofList (e.fields.map (·.name))).keys ∧
      (∀ f ∈ e.fields, f.required = true → (row.value f.name).isNull = false)) ∧
      (∀ f ∈ e.fields, f.id = true → (row.value f.name).isNull = false) ∧
      ∀ f ∈ e.fields, f.takes (row.value f.name))
    ⟨fun h => ⟨⟨⟨h.1.1, h.1.2⟩, h.2.1⟩, h.2.2⟩, fun h => ⟨⟨h.fields, h.required⟩, h.id, h.kinds⟩⟩

end Entity

namespace Schema
variable {s : Schema}

/-- What is stamped is a time, what is counted is no list, and foreign keys have the types of the
fields that they reference. -/
def Coherent (s : Schema) : Prop :=
  ∀ e ∈ s.entities.values,
    (∀ f ∈ e.fields, (f.updatedAt = true → f.kind = .datetime ∧ f.list = false) ∧
      (EntityDef.isAutoIncrement f = true → f.list = false)) ∧
    ∀ r ∈ e.owningRelations, ∀ t ∈ s.entity? r.target, ∀ p ∈ r.near.zip r.far,
      (e.field? p.1).map (fun f => (f.kind, f.list)) = (t.field? p.2).map fun f => (f.kind, f.list)

instance : Decidable s.Coherent := by
  unfold Coherent
  infer_instance

/-- The value may stand in the column, if that is a field of an entity. -/
def Takes (s : Schema) (n c : String) (v : Value) : Prop :=
  ∀ e, s.entity? n = some e → ∀ f, e.field? c = some f → f.takes v

/-- Every row of an entity's table conforms to it. -/
def Conforming (s : Schema) (n : String) (row : Row) : Prop :=
  ∀ e, s.entity? n = some e → e.Conforms row

theorem takes_iff (hs : s.Resolved) {e : Entity} (he : s.entity? e.name = some e) {f : FieldDef}
    (hf : f ∈ e.fields) {v : Value} : s.Takes e.name f.name v ↔ f.takes v := by
  refine ⟨fun h => h e he f (hs.field he f hf), fun h e' he' f' hf' => ?_⟩
  rw [he] at he'
  cases he'
  rw [hs.field he f hf] at hf'
  cases hf'
  exact h

theorem conforming_iff (hs : s.Resolved) {n : String} {row : Row} :
    s.Conforming n row ↔ s.Complete n row ∧ row.Obeys s.Takes n := by
  constructor
  · intro h
    refine ⟨fun e he => (h e he).toCompletes, fun c e he f hf => ?_⟩
    have hname : f.name = c := by simpa using List.find?_some hf
    rw [← hname]
    exact (h e he).kinds f (List.mem_of_find?_eq_some hf)
  · intro h e he
    refine ⟨h.1 e he, fun f hf => ?_⟩
    exact h.2 f.name e he f (hs.field he f hf)

/-! ### Values of their kinds -/

theorem admits_takes (hs : s.Resolved) (hcoherent : s.Coherent) : s.Admits s.Takes where
  null _ _ _ _ f _ := f.takes_null
  coerce {e} he f hf literal v hv := by
    have h := e.coerce_yields f literal
    rw [hv] at h
    exact (takes_iff hs he hf).2 h.1
  change {e} he f hf current op v hcurrent hv := by
    have h := e.change_takes f ((takes_iff hs he hf).1 hcurrent) op
    rw [hv] at h
    exact (takes_iff hs he hf).2 h
  stamp {e} he f hf hstamped t := by
    obtain ⟨hkind, hlist⟩ := ((hcoherent e (hs.mem_values he)).1 f hf).1 hstamped
    exact (takes_iff hs he hf).2 (by simp [FieldDef.takes, hkind, hlist, Value.isOf])
  time he f hf hkind hlist t :=
    (takes_iff hs he hf).2 (by simp [FieldDef.takes, hkind, hlist, Value.isOf])
  text he f hf hkind hlist t :=
    (takes_iff hs he hf).2 (by simp [FieldDef.takes, hkind, hlist, Value.isOf])
  increment {e} he f hf hd n := by
    have hlist := ((hcoherent e (hs.mem_values he)).1 f hf).2 (by simp [EntityDef.isAutoIncrement, hd])
    have hkind := hs.increment he f hf hd
    exact (takes_iff hs he hf).2 (by simp [FieldDef.takes, hkind, hlist, Value.isOf])
  noItems he f hf hlist := (takes_iff hs he hf).2 (FieldDef.takes_list hlist (by simp))
  link {e} he r hr p hp v hv := by
    intro e' he' f hf
    rw [he] at he'
    cases he'
    obtain ⟨t, ht⟩ := hs.target he r (List.mem_filter.1 hr).1
    have hsame := (hcoherent e (hs.mem_values he)).2 r hr t ht p hp
    obtain ⟨g, hg, hsame⟩ := exists_of_map_eq hsame hf
    obtain ⟨hkind, hlist⟩ := Prod.mk.inj hsame
    have htakes := hv t ht g hg
    unfold FieldDef.takes at htakes ⊢
    rwa [hkind, hlist] at htakes

/-- Whatever obeys some law in its columns does so in every state. -/
theorem upholds_keeps (s : Schema) (V : String → String → Value → Prop) :
    s.Upholds V (s.Keeps fun n row => row.Obeys V n) where
  stored h n t ht row hrow := h.tables.rows (View.gives_has s _ _ n t ht row hrow)
  add h _ _ _ hrow _ _ _ hadd := h.tables.add h.notes hadd fun _ _ _ => hrow
  put h _ _ _ hrow _ _ _ hput := h.tables.put h.notes hput fun _ _ _ => hrow
  delete h _ _ _ _ _ _ _ hdelete := h.tables.delete h.notes hdelete

end Schema

namespace Tables.Keep
variable {s : Schema} {tables : Tables} {W W' : String → Row → Prop}

theorem mono (h : tables.Keep s W) (hW : ∀ n row, W n row → W' n row) : tables.Keep s W' :=
  ⟨h.name, h.definition, fun hrow => hW _ _ (h.rows hrow)⟩

/-- Where there are no rows, each of them is anything. -/
theorem of_empty {κ : String → String → NumberClass} (h : s.Holds κ tables)
    (hempty : ∀ t ∈ tables.values, t.toList = []) : tables.Keep s W where
  name := h.proper.name
  definition he ht := h.definition _ _ he ht
  rows hrow := by
    obtain ⟨t, ht, hrow⟩ := hrow
    rw [hempty t (mem_values_of_get? ht)] at hrow
    cases hrow

end Tables.Keep

namespace Client
variable {s : Schema}

/-- Whatever is done with a client, by requests and by raw writes of conforming rows, in whatever
transactions and whether they end well or not: every stored row conforms to its entity, if those of
the store that was opened do. -/
theorem run_conforms {defs : List EntityDef} (hdefs : Schema.ofDefs defs = .ok s)
    (hfit : s.Fitting) (hcoherent : s.Coherent) {c₀ : Client} (hc₀ : c₀.Opened s)
    (hkeep : c₀.store.tables.Keep s s.Conforming) {actions : List Action}
    (hactions : ∀ a ∈ actions, a.Writes s.Conforming) {e : Entity}
    (he : s.entity? e.name = some e) {t : Table}
    (ht : (actions.foldl after c₀).store.tables.get? e.name = some t) :
    ∀ row ∈ t.toList, e.Conforms row := by
  have hs := Schema.Resolved.ofDefs hdefs
  have hstart {W : String → Row → Prop} (hW : ∀ n row, s.Conforming n row → W n row) :
      c₀.store.Keeps s W := by
    refine ⟨hkeep.mono hW, ?_⟩
    rw [hc₀.transactions]
    simp
  have hwrites {W : String → Row → Prop} (hW : ∀ n row, s.Conforming n row → W n row) :
      ∀ a ∈ actions, a.Writes W := fun a ha => (hactions a ha).mono hW
  -- That rows are complete and that values are of their kinds are carried through the run apart.
  have hcomplete := keeps_foldl hs (fun {_ _} hr {_} he => hr.completing hs hfit he) hc₀.schema
    (hstart fun _ _ h => ((Schema.conforming_iff hs).1 h).1)
    (hwrites fun _ _ h => ((Schema.conforming_iff hs).1 h).1)
  have hkinds := keeps_foldl hs (W := fun n row => row.Obeys s.Takes n) (fun {_ _} hr {_} he =>
      hr.upholds hs (Schema.admits_takes hs hcoherent) (Schema.upholds_keeps s s.Takes) he) hc₀.schema
    (hstart fun _ _ h => ((Schema.conforming_iff hs).1 h).2)
    (hwrites fun _ _ h => ((Schema.conforming_iff hs).1 h).2)
  intro row hrow
  refine (Schema.conforming_iff hs).2 ⟨?_, ?_⟩ e he
  · exact hcomplete.tables.rows ⟨t, ht, hrow⟩
  · exact hkinds.tables.rows ⟨t, ht, hrow⟩

end Client

/-! ### A forum -/

/-- Users, and posts of which each has the address of a user; users need an address or not. -/
def EntityDef.forum (addressed : Bool) : List EntityDef :=
  [{ name := "user"
     fields := [{ name := "id", kind := .int, id := true, default := some .autoIncrement },
       { name := "email", kind := .string, unique := true, required := addressed }]
     relations := [.many "posts" "post"] },
   { name := "post"
     fields := [{ name := "id", kind := .int, id := true },
       { name := "authorEmail", kind := .string, required := true },
       { name := "tags", kind := .string, list := true },
       { name := "editedAt", kind := .datetime, updatedAt := true }]
     relations := [.owning "author" "user" ["authorEmail"] ["email"]] }]

/-- Entries that count in a list and are stamped with a number, and notes that name an entry by a
text. -/
def EntityDef.ledger : List EntityDef :=
  [{ name := "entry"
     fields := [{ name := "id", kind := .int, id := true },
       { name := "counts", kind := .int, list := true, default := some .autoIncrement },
       { name := "editedAt", kind := .int, updatedAt := true }] },
   { name := "note"
     fields := [{ name := "id", kind := .int, id := true }, { name := "entryId", kind := .string }]
     relations := [.owning "entry" "entry" ["entryId"] ["id"]] }]

/-- Connects a row to another one through a relation; both are found by their number. -/
def Query.connecting (id : Int) (relation : String) (other : Int) : Query where
  filter := some (Filter.whereEquals {} "id" (.int id))
  data := some (.one ⟨[(relation, .relation
    { connect := [Filter.whereEquals {} "id" (.int other)] })]⟩)

namespace Client

/-- The stored rows of an entity that do not conform to it. -/
def strays (c : Client) (entity : String) : List Row :=
  (c.schema.entity? entity).toList.flatMap fun e =>
    (c.store.tables.get? entity).toList.flatMap fun t => t.toList.filter fun row => !e.Conforms row

/-- A post that is written past the engine. -/
def quoted : Row :=
  SortedMap.ofList [("id", .int 2), ("authorEmail", .string "b"), ("tags", .list [.string "new"]),
    ("editedAt", .null)]

/-- A post is taken over by another user, and one is added past the engine. -/
def converse : List Action :=
  [.ask "user" (.create (.ofFields [("email", .string "a")])) none,
   .ask "user" (.create (.ofFields [("email", .string "b")])) none,
   .ask "post" (.create (.ofFields [("id", .int 1), ("authorEmail", .string "a")])) none,
   .ask "user" (.update (.connecting 2 "posts" 1)) none,
   .begin ["post"] .readWrite, .add 5 "post" quoted, .commit 5]

/-- The post of a user, and another user who has no address. -/
def discuss : List Action :=
  [.ask "user" (.create (.ofFields [("email", .string "a")])) none,
   .ask "user" (.create (.ofFields [("id", .int 2)])) none,
   .ask "post" (.create (.ofFields [("id", .int 1), ("authorEmail", .string "a")])) none]

/-- An entry, and a note that is connected to it. -/
def annotate : List Action :=
  [.ask "entry" (.create (.ofFields [("id", .int 1)])) none,
   .ask "note" (.create { data := some (.one ⟨[("id", .literal (.int 1)), ("entry", .relation
     { connect := [Filter.whereEquals {} "id" (.int 1)] })]⟩) }) none]

/-- Both posts have the fields of a post, with values of their kinds. -/
theorem run_conforms_forum : ∃ (c₀ : Client) (e : Entity) (t : Table),
    Schema.ofDefs (EntityDef.forum true) = .ok c₀.schema ∧ c₀.Opened c₀.schema ∧
      c₀.store.tables.Keep c₀.schema c₀.schema.Conforming ∧ c₀.schema.Fitting ∧
      c₀.schema.Coherent ∧ (∀ a ∈ converse, a.Writes c₀.schema.Conforming) ∧
      c₀.schema.entity? "post" = some e ∧
      (converse.foldl after c₀).store.tables.get? "post" = some t ∧ t.size = 2 ∧
      ∀ row ∈ t.toList, e.Conforms row := by
  have hruns : (openMemory (EntityDef.forum true)).toOption.any fun c₀ =>
      c₀.schema.Fitting ∧ c₀.schema.Coherent ∧ (∀ t ∈ c₀.store.tables.values, t.toList = []) ∧
        (c₀.schema.entity? "post").any fun e => e.Conforms quoted ∧
          ((converse.foldl after c₀).store.tables.get? "post").any fun t => t.size = 2 := by
    decide +kernel
  obtain ⟨c₀, hs, hc₀, hholds, hfit, hcoherent, hempty, hfound⟩ := exists_openMemory hruns
  obtain ⟨e, he, hfound⟩ := (Option.any_eq_true _ _).1 hfound
  obtain ⟨hquoted, hfound⟩ := of_decide_eq_true hfound
  obtain ⟨t, ht, hsize⟩ := (Option.any_eq_true _ _).1 hfound
  have hkeep : c₀.store.tables.Keep c₀.schema c₀.schema.Conforming := .of_empty hholds hempty
  have hname : e.name = "post" := (Schema.Resolved.ofDefs hs).name he
  have hwrites : ∀ a ∈ converse, a.Writes c₀.schema.Conforming := by
    intro a ha
    simp only [converse, List.mem_cons, List.not_mem_nil, or_false] at ha
    rcases ha with rfl | rfl | rfl | rfl | rfl | rfl | rfl
    · exact ⟨_, .inl .create⟩
    · exact ⟨_, .inl .create⟩
    · exact ⟨_, .inl .create⟩
    · exact ⟨_, .inl .update⟩
    · trivial
    · intro e' he'
      cases he.symm.trans he'
      exact hquoted
    · trivial
  refine ⟨c₀, e, t, hs, hc₀, hkeep, hfit, hcoherent, hwrites, he, ht, of_decide_eq_true hsize, ?_⟩
  exact run_conforms hs hfit hcoherent hc₀ hkeep hwrites (by rw [hname]; exact he)
    (by rw [hname]; exact ht)

/-- A required foreign key gets a null when its row is connected to one that has none, from either
end; a time, a number and the key of an entry are stored where the schema declares a number, a list
and a text. -/
theorem run_conforms_strays :
    (∃ c₀ : Client, Schema.ofDefs (EntityDef.forum false) = .ok c₀.schema ∧ c₀.Opened c₀.schema ∧
      c₀.store.tables.Keep c₀.schema c₀.schema.Conforming ∧ c₀.schema.Coherent ∧
      (let c := (discuss.foldl after c₀).after (.ask "user" (.update (.connecting 2 "posts" 1)) none)
       (c.strays "post").map (fun row => (row.value "authorEmail").isNull) = [true]) ∧
      let c := (discuss.foldl after c₀).after (.ask "post" (.update (.connecting 1 "author" 2)) none)
      (c.strays "post").map (fun row => (row.value "authorEmail").isNull) = [true]) ∧
    ∃ c₀ : Client, Schema.ofDefs EntityDef.ledger = .ok c₀.schema ∧ c₀.Opened c₀.schema ∧
      c₀.store.tables.Keep c₀.schema c₀.schema.Conforming ∧ c₀.schema.Fitting ∧
      let c := annotate.foldl after c₀
      (c.strays "entry").map (fun row =>
          [(row.value "counts").typeName, (row.value "editedAt").typeName]) = [["int", "datetime"]] ∧
        (c.strays "note").map (fun row => (row.value "entryId").typeName) = ["int"] := by
  have hforum : (openMemory (EntityDef.forum false)).toOption.any fun c₀ =>
      (∀ t ∈ c₀.store.tables.values, t.toList = []) ∧ c₀.schema.Coherent ∧
      (let c := (discuss.foldl after c₀).after (.ask "user" (.update (.connecting 2 "posts" 1)) none)
       (c.strays "post").map (fun row => (row.value "authorEmail").isNull) = [true]) ∧
      let c := (discuss.foldl after c₀).after (.ask "post" (.update (.connecting 1 "author" 2)) none)
      (c.strays "post").map (fun row => (row.value "authorEmail").isNull) = [true] := by
    decide +kernel
  have hledger : (openMemory EntityDef.ledger).toOption.any fun c₀ =>
      (∀ t ∈ c₀.store.tables.values, t.toList = []) ∧ c₀.schema.Fitting ∧
      let c := annotate.foldl after c₀
      (c.strays "entry").map (fun row =>
          [(row.value "counts").typeName, (row.value "editedAt").typeName]) = [["int", "datetime"]] ∧
        (c.strays "note").map (fun row => (row.value "entryId").typeName) = ["int"] := by
    decide +kernel
  obtain ⟨c₁, hs₁, hc₁, hholds₁, hempty₁, hcoherent, hstrays₁⟩ := exists_openMemory hforum
  obtain ⟨c₂, hs₂, hc₂, hholds₂, hempty₂, hfit, hstrays₂⟩ := exists_openMemory hledger
  exact ⟨⟨c₁, hs₁, hc₁, .of_empty hholds₁ hempty₁, hcoherent, hstrays₁⟩,
    c₂, hs₂, hc₂, .of_empty hholds₂ hempty₂, hfit, hstrays₂⟩

end Client

end RelationalStore

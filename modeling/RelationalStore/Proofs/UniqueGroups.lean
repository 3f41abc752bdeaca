import RelationalStore.Proofs.LoadedRelations
import RelationalStore.Proofs.UniqueSelectors

/- The groups of fields that a definition declares to be unique, from the definition to the indexes
   of the table. Each of them is a selector of the entity, and nothing else is
   (`groups_of_resolve`). No two indexes are over the same fields, because a group is added once and
   a foreign key gets an index only where there is none over its fields (`nodup_foldl_addKeyIndex`).

   Indexes and selectors go by the names of their fields, joined with `_`, and `_` may stand in a
   name too. Where the joined names tell the lists of fields apart (`EntityDef.JoinsApart`), each
   name leads to the fields that it was made of (`Schema.names_groups`). Where they do not, a lookup
   goes to another index. -/
namespace RelationalStore
open SortedMap Entity

/-! ### The groups of a definition -/

namespace EntityDef
variable {all : List EntityDef} {d : EntityDef} {e : Entity}

/-- The groups of fields that select at most one row: the primary key, each unique field, and the
groups that are declared. -/
def declaredGroups (d : EntityDef) : List (List String) :=
  d.idFields :: (d.fieldGroups ++ d.uniqueGroups)

/-- The foreign keys that are declared. -/
def declaredKeys (d : EntityDef) : List (List String) :=
  (d.relations.filter RelationDef.isOwning).map (·.fields)

theorem addGroups_ok {groups declared result : List (List String)} (hnodup : groups.Nodup)
    (h : d.addGroups groups declared = .ok result) :
    result.Nodup ∧ ∀ g, g ∈ result ↔ g ∈ groups ∨ g ∈ declared := by
  induction declared generalizing groups with
  | nil =>
    cases h
    simp [hnodup]
  | cons group rest ih =>
    rw [addGroups] at h
    split at h
    · cases h
    · by_cases hmem : group ∈ groups
      · rw [if_pos (by simpa using hmem)] at h
        obtain ⟨hresult, hiff⟩ := ih hnodup h
        refine ⟨hresult, fun g => ?_⟩
        rw [hiff, List.mem_cons]
        constructor
        · rintro (hg | hg)
          · exact .inl hg
          · exact .inr (.inr hg)
        · rintro (hg | rfl | hg)
          · exact .inl hg
          · exact .inl hmem
          · exact .inr hg
      · rw [if_neg (by simpa using hmem)] at h
        have hmore : (groups ++ [group]).Nodup := by
          rw [List.nodup_append]
          refine ⟨hnodup, List.nodup_singleton group, fun g hg g' hg' heq => hmem ?_⟩
          rwa [← List.mem_singleton.1 hg', ← heq]
        obtain ⟨hresult, hiff⟩ := ih hmore h
        refine ⟨hresult, fun g => ?_⟩
        rw [hiff, List.mem_append, List.mem_singleton, List.mem_cons, or_assoc]

theorem nodup_fieldGroups (h : (d.fields.map (·.name)).Nodup) : d.fieldGroups.Nodup := by
  have hnames := h.sublist (List.filter_sublist (p := fun f =>
    f.unique && !(f.id && d.idFields.length == 1)).map _)
  have hsingle : d.fieldGroups = ((d.fields.filter fun f =>
      f.unique && !(f.id && d.idFields.length == 1)).map (·.name)).map ([·]) := by
    rw [fieldGroups, List.map_map]
    rfl
  rw [hsingle]
  exact hnames.map fun _ _ heq => List.singleton_inj.1 heq

/-- The unique groups of an entity are there once each, and with the primary key they are those that
its definition declares. -/
theorem groups_of_resolve (h : d.resolve all = .ok e) :
    e.uniqueGroups.Nodup ∧ ∀ g, g ∈ e.uniqueSelectors ↔ g ∈ d.declaredGroups := by
  obtain ⟨hfields, -, ⟨groups, hgroups, rfl⟩, -, -, -, hid⟩ := resolve_ok h
  obtain ⟨hnodup, hiff⟩ := addGroups_ok (nodup_fieldGroups (checkFields_ok hfields).1) hgroups
  refine ⟨hnodup, fun g => ?_⟩
  rw [uniqueSelectors, declaredGroups, List.mem_cons, List.mem_cons, hiff, hid, List.mem_append]

/-- The foreign keys of an entity are those that its definition declares. -/
theorem near_of_resolve (h : d.resolve all = .ok e) {r : Relation} (hr : r ∈ e.owningRelations) :
    r.near ∈ d.declaredKeys := by
  obtain ⟨hr, howning⟩ := List.mem_filter.1 hr
  obtain ⟨-, -, -, hrelations, -⟩ := resolve_ok h
  obtain ⟨rd, hrd, hresolve⟩ := exists_of_forall₂_right hrelations hr
  rw [(target_of_resolveRelation hresolve).2] at howning
  obtain ⟨target, -, -, hform, -⟩ := resolveRelation_ok hresolve
  obtain ⟨rfl, -⟩ := resolveOwning_ok (hform howning)
  exact List.mem_map_of_mem (List.mem_filter.2 ⟨hrd, howning⟩)

/-- Each group is of fields, one at least, that hold one value each. -/
def ProperGroups (d : EntityDef) : Prop :=
  ∀ g ∈ d.declaredGroups, g ≠ [] ∧ ∀ name ∈ g, ∃ f ∈ d.fields, f.name = name ∧ f.list = false

/-- Joined names tell the groups and foreign keys apart, and no group of several fields is called
like a field or a relation. -/
structure JoinsApart (d : EntityDef) : Prop where
  apart : ∀ g ∈ d.declaredGroups ++ d.declaredKeys, ∀ h ∈ d.declaredGroups ++ d.declaredKeys,
    compoundName g = compoundName h → g = h
  members : ∀ g ∈ d.declaredGroups, 1 < g.length → compoundName g ∉ d.memberNames

instance : Decidable d.ProperGroups := by
  unfold ProperGroups
  infer_instance

instance : Decidable d.JoinsApart :=
  decidable_of_iff (_ ∧ _) ⟨fun h => ⟨h.1, h.2⟩, fun h => ⟨h.apart, h.members⟩⟩

end EntityDef

/-! ### Joined names -/

theorem IndexDef.nameOf_inj {g h : List String} (heq : nameOf g = nameOf h) :
    compoundName g = compoundName h := by
  have hlists := congrArg String.toList heq
  rw [nameOf, nameOf, String.toList_append, String.toList_append] at hlists
  exact String.toList_inj.1 (List.append_cancel_right hlists)

/-! ### The indexes of a table -/

namespace Entity
variable {e : Entity} {path : List String} {relations : List Relation} {indexes : List IndexDef}

theorem nodup_foldl_addKeyIndex (h : (indexes.map (·.fields)).Nodup) :
    ((relations.foldl (addKeyIndex path) indexes).map (·.fields)).Nodup := by
  induction relations generalizing indexes with
  | nil => exact h
  | cons r rest ih =>
    refine ih ?_
    unfold addKeyIndex
    split
    · exact h
    · next hnew =>
      rw [List.map_append, List.nodup_append]
      refine ⟨h, by simp, fun fields hfields other hother heq => hnew (.inr ?_)⟩
      obtain ⟨i, hi, rfl⟩ := List.mem_map.1 hfields
      have hother : other = r.near := by simpa using hother
      exact List.any_eq_true.2 ⟨i, hi, by simpa [← hother] using heq⟩

/-- No two indexes are over the same fields. -/
theorem nodup_indexFields (h : e.uniqueGroups.Nodup) : (e.tableDef.indexes.map (·.fields)).Nodup := by
  refine nodup_foldl_addKeyIndex ?_
  rw [List.map_map]
  simpa [Function.comp_def] using h

/-- An index is over a unique group or over a foreign key. -/
theorem fields_of_mem_indexes {i : IndexDef} (hi : i ∈ e.tableDef.indexes) :
    i.fields ∈ e.uniqueGroups ∨ ∃ r ∈ e.owningRelations, i.fields = r.near := by
  rcases mem_foldl_addKeyIndex hi with hi | ⟨r, hr, rfl⟩
  · obtain ⟨fields, hfields, rfl⟩ := List.mem_map.1 hi
    exact .inl hfields
  · exact .inr ⟨r, hr, rfl⟩

theorem nodup_indexNames (h : e.uniqueGroups.Nodup)
    (hjoin : ∀ i ∈ e.tableDef.indexes, ∀ j ∈ e.tableDef.indexes,
      compoundName i.fields = compoundName j.fields → i.fields = j.fields) :
    (e.tableDef.indexes.map (·.name)).Nodup := by
  refine List.Nodup.map_on (fun i hi j hj heq => ?_) (nodup_indexFields h).of_map
  rw [name_of_mem_indexes hi, name_of_mem_indexes hj] at heq
  have hfields := hjoin i hi j hj (IndexDef.nameOf_inj heq)
  exact List.inj_on_of_nodup_map (nodup_indexFields h) hi hj hfields

end Entity

namespace Table
variable {t : Table} {e : Entity}

/-- The group leads to one row at most. -/
def Enforces (t : Table) (g : List String) : Prop :=
  ∀ a ∈ t.rows.entries, ∀ b ∈ t.rows.entries, (Key.ofRow g a.2).hasNull = false →
    compare (Key.ofRow g a.2) (Key.ofRow g b.2) = .eq → a = b

/-- What is found under the name is found in the index over these fields. -/
def LooksAt (t : Table) (name : String) (fields : List String) : Prop :=
  ∃ i ∈ t.indexes, i.definition.fields = fields ∧
    ∀ key, t.lookup name key = .ok ((i.keysAt key).filterMap t.get?)

/-- A lookup goes to the index of that name, where names are the indexes' own. -/
theorem looksAt_of_nodup (h : (t.indexes.map (·.definition.name)).Nodup) {i : Index}
    (hi : i ∈ t.indexes) : t.LooksAt i.definition.name i.definition.fields := by
  refine ⟨i, hi, rfl, fun key => ?_⟩
  rw [lookup, find?_of_nodup h hi]

theorem Kept.enforces {κ : String → NumberClass} (h : t.Kept κ) (hd : t.definition = e.tableDef)
    {g : List String} (hg : g ∈ e.uniqueSelectors) : t.Enforces g := by
  intro a ha b hb hnull heq
  rcases List.mem_cons.1 hg with rfl | hg
  · -- The rows have the same primary key.
    have hkey : ∀ c ∈ t.rows.entries, c.1 = Key.ofRow e.idFields c.2 := by
      intro c hc
      rw [h.own c hc, keyOf, hd]
      rfl
    refine eq_of_compare_eq (Key.compare_isLE_trans κ t.definition.keyPath) h.rows ha hb ?_
    rwa [hkey a ha, hkey b hb]
  · have hindex := mem_indexes_of_group hg
    rw [← hd] at hindex
    exact h.unique _ hindex rfl a ha b hb hnull
      ⟨(Key.hasNull_eq_of_compare heq).symm.trans hnull, heq⟩

end Table

/-! ### The names of groups -/

/-- A filter under a name. -/
def Filter.under (name : String) (f : Filter) : Filter := { conditions := [(name, .nested f)] }

namespace Entity
variable {e : Entity} {g : List String}

/-- A group of one field goes by the name of the field, and one of several by its joined name, which
stands for nothing else. What a filter fixes, it fixes under this name too. -/
structure Addresses (e : Entity) (g : List String) : Prop where
  single : ∀ name, g = [name] → ∃ f, e.subject name = .ok (.field f) ∧ f.list = false
  several : 1 < g.length → e.compound? (compoundName g) = some g ∧
    e.subject (compoundName g) = .ok (.compound g)
  fixes : 1 < g.length → ∀ f fixed, e.fixedBy f = .ok fixed →
    e.fixedBy (.under (compoundName g) f) = .ok (SortedMap.empty.insertAll fixed)

theorem compound?_of_joins (hg : g ∈ e.uniqueSelectors) (hlen : 1 < g.length)
    (hjoin : ∀ h ∈ e.uniqueSelectors, compoundName h = compoundName g → h = g) :
    e.compound? (compoundName g) = some g := by
  have hmem : g ∈ e.uniqueSelectors.filter fun group => 1 < group.length :=
    List.mem_filter.2 ⟨hg, by simpa using hlen⟩
  rw [compound?]
  cases hfind : (e.uniqueSelectors.filter fun group => 1 < group.length).find?
      (compoundName · == compoundName g) with
  | none => simpa using List.find?_eq_none.1 hfind g hmem
  | some h =>
    have hh := List.mem_of_mem_filter (List.mem_of_find?_eq_some hfind)
    rw [hjoin h hh (by simpa using List.find?_some hfind)]

theorem subject_of_field {name : String} {f : FieldDef} (h : e.field? name = some f) :
    e.subject name = .ok (.field f) := by
  rw [subject, h]

theorem subject_of_compound {name : String} (hmember : name ∉ e.fields.map (·.name) ++
    e.relations.map (·.name)) (h : e.compound? name = some g) :
    e.subject name = .ok (.compound g) := by
  simp only [List.mem_append, List.mem_map, not_or, not_exists, not_and] at hmember
  have hfield : e.field? name = none := List.find?_eq_none.2 fun f hf => by simpa using hmember.1 f hf
  have hrelation : e.relation? name = none :=
    List.find?_eq_none.2 fun r hr => by simpa using hmember.2 r hr
  rw [subject, hfield, hrelation, h]

theorem fixedBy_under {name : String} {group : List String} (hname : e.compound? name = some group)
    {f : Filter} {fixed : SortedMap String Value} (hf : e.fixedBy f = .ok fixed) :
    e.fixedBy (.under name f) = .ok (SortedMap.empty.insertAll fixed) := by
  simp only [Filter.under, fixedBy, fixedByAll, fixedByOne, hname, hf]
  rfl

end Entity

namespace Schema
variable {defs : List EntityDef} {s : Schema} {d : EntityDef} {e : Entity}

/-- What the groups and foreign keys of a definition become is found under their names: the selectors
are the groups that are declared, each of them has a name of its own, names of indexes lead to the
fields that they were made of, and a table in which every column holds values of one kind has one row
at most for a value of a group. -/
theorem names_groups (h : ofDefs defs = .ok s) (hd : d ∈ defs) (hproper : d.ProperGroups)
    (hjoins : d.JoinsApart) (he : s.entity? d.name = some e) :
    (∀ g, g ∈ e.uniqueSelectors ↔ g ∈ d.declaredGroups) ∧
      (∀ g ∈ e.uniqueSelectors, g ≠ [] ∧ (∀ name ∈ g, ∃ f ∈ e.field? name, f.list = false) ∧
        e.Addresses g) ∧
      (∀ g ∈ e.uniqueSelectors, ∀ g' ∈ e.uniqueSelectors, compoundName g = compoundName g' → g = g') ∧
      (e.tableDef.indexes.map (·.name)).Nodup ∧
      (∀ t : Table, t.indexes.map (·.definition) = e.tableDef.indexes →
        (∀ fields name, t.indexFor? fields = some name → t.LooksAt name fields) ∧
          ∀ g ∈ e.uniqueGroups, t.LooksAt (IndexDef.nameOf g) g) ∧
      ∀ (kinds : String → ScalarKind) (calls : List Table.Call),
        (∀ c ∈ calls, c.OfKinds kinds e.tableDef) → ∀ g ∈ e.uniqueSelectors,
          (calls.foldl Table.Call.after (Table.ofDef e.tableDef)).Enforces g := by
  obtain ⟨e₀, e', hresolve, he', heq⟩ := exists_entity_ofDefs h hd
  rw [he] at he'
  cases he'
  obtain ⟨hnodup, hgroups⟩ := EntityDef.groups_of_resolve hresolve
  obtain ⟨-, -, -, hrelations, -, hfields, -⟩ := EntityDef.resolve_ok hresolve
  have hsame : e.uniqueSelectors = e₀.uniqueSelectors := by rw [heq]; rfl
  have hunique : e.uniqueGroups = e₀.uniqueGroups := by rw [heq]
  have howning : e.owningRelations = e₀.owningRelations := by rw [heq]; rfl
  have hfields : e.fields = d.fields := by rw [heq]; exact hfields
  rw [← hsame] at hgroups
  rw [← hunique] at hnodup
  have hapart : ∀ g ∈ e.uniqueSelectors, ∀ g' ∈ e.uniqueSelectors,
      compoundName g = compoundName g' → g = g' := fun g hg g' hg' =>
    hjoins.apart g (List.mem_append_left _ ((hgroups g).1 hg)) g'
      (List.mem_append_left _ ((hgroups g').1 hg'))
  -- Every list of fields with an index is declared.
  have hindexed : ∀ i ∈ e.tableDef.indexes, i.fields ∈ d.declaredGroups ++ d.declaredKeys := by
    intro i hi
    rcases fields_of_mem_indexes hi with hgroup | ⟨r, hr, hnear⟩
    · exact List.mem_append_left _ ((hgroups _).1 (List.mem_cons_of_mem _ hgroup))
    · rw [hnear]
      exact List.mem_append_right _ (EntityDef.near_of_resolve hresolve (howning ▸ hr))
  have hindexes : (e.tableDef.indexes.map (·.name)).Nodup :=
    nodup_indexNames hnodup fun i hi j hj => hjoins.apart _ (hindexed i hi) _ (hindexed j hj)
  have hmembers : d.memberNames = e.fields.map (·.name) ++ e.relations.map (·.name) := by
    have hnames := map_eq_of_forall₂ (hrelations.imp fun _ _ => EntityDef.name_of_resolveRelation)
    rw [EntityDef.memberNames, hfields, heq, ← hnames]
  have hproper' : ∀ g ∈ e.uniqueSelectors, g ≠ [] ∧ ∀ name ∈ g, ∃ f ∈ e.field? name, f.list = false := by
    intro g hg
    obtain ⟨hne, hnames⟩ := hproper g ((hgroups g).1 hg)
    refine ⟨hne, fun name hname => ?_⟩
    obtain ⟨f, hf, rfl, hlist⟩ := hnames name hname
    exact ⟨f, (Resolved.ofDefs h).field he f (hfields ▸ hf), hlist⟩
  refine ⟨hgroups, fun g hg => ⟨(hproper' g hg).1, (hproper' g hg).2, ?_⟩, hapart, hindexes,
    fun t ht => ⟨fun fields name hfor => ?_, fun g hg => ?_⟩, fun kinds calls hcalls g hg => ?_⟩
  · have hcompound (hlen : 1 < g.length) : e.compound? (compoundName g) = some g :=
      compound?_of_joins hg hlen fun g' hg' => hapart g' hg' g hg
    refine ⟨fun name hname => ?_, fun hlen => ⟨hcompound hlen, ?_⟩,
      fun hlen f fixed hf => fixedBy_under (hcompound hlen) hf⟩
    · obtain ⟨f, hf, hlist⟩ := (hproper' g hg).2 name (by simp [hname])
      exact ⟨f, subject_of_field hf, hlist⟩
    · refine subject_of_compound ?_ (hcompound hlen)
      rw [← hmembers]
      exact hjoins.members g ((hgroups g).1 hg) hlen
  · obtain ⟨i, hi, rfl⟩ := Option.map_eq_some_iff.1 hfor
    have hlooks := t.looksAt_of_nodup (by rwa [← ht, List.map_map] at hindexes)
      (List.mem_of_find?_eq_some hi)
    have hover : i.definition.fields = fields := by simpa using List.find?_some hi
    rwa [hover] at hlooks
  · have hindex := mem_indexes_of_group hg
    rw [← ht] at hindex
    obtain ⟨i, hi, hdefinition⟩ := List.mem_map.1 hindex
    have hlooks := t.looksAt_of_nodup (by rwa [← ht, List.map_map] at hindexes) hi
    rwa [hdefinition] at hlooks
  · obtain ⟨hkept, hdefinition⟩ :=
      Table.Call.kept_foldl (Table.Call.kept_ofDef e.tableDef) rfl fun c hc => (hcalls c hc).fits
    exact hkept.enforces hdefinition hg

end Schema

/-! ### Members of clubs -/

/-- Members with a number of their own in their club and an address of their own. -/
def EntityDef.member : EntityDef :=
  { name := "member",
    fields := [{ name := "id", kind := .int, id := true }, { name := "club_id", kind := .int },
      { name := "number", kind := .int }, { name := "mail", kind := .string, unique := true }],
    relations := [.owning "club" "club" ["club_id"] ["id"]],
    uniqueGroups := [["club_id", "number"]] }

/-- Clubs and their members. -/
def EntityDef.clubs : List EntityDef :=
  [{ name := "club", fields := [{ name := "id", kind := .int, id := true }] }, .member]

theorem Schema.names_groups_clubs : ∃ s e, ofDefs EntityDef.clubs = .ok s ∧
    EntityDef.member ∈ EntityDef.clubs ∧ EntityDef.member.ProperGroups ∧ EntityDef.member.JoinsApart ∧
    s.entity? EntityDef.member.name = some e ∧
    e.tableDef.indexes.map (·.name) = ["mailIndex", "club_id_numberIndex", "club_idIndex"] ∧
    e.Addresses ["club_id", "number"] ∧
    (Table.ofDef e.tableDef).LooksAt "club_id_numberIndex" ["club_id", "number"] := by
  have hresolved : (ofDefs EntityDef.clubs).toOption.any fun s =>
      (s.entity? EntityDef.member.name).any fun e =>
        e.tableDef.indexes.map (·.name) = ["mailIndex", "club_id_numberIndex", "club_idIndex"] ∧
          ["club_id", "number"] ∈ e.uniqueGroups := by
    decide +kernel
  obtain ⟨s, hs, hresolved⟩ := (Option.any_eq_true _ _).1 hresolved
  obtain ⟨e, he, hresolved⟩ := (Option.any_eq_true _ _).1 hresolved
  obtain ⟨hnames, hgroup⟩ := of_decide_eq_true hresolved
  have hs := Except.toOption_eq_some.1 hs
  have hmem : EntityDef.member ∈ EntityDef.clubs := by simp [EntityDef.clubs]
  have hproper : EntityDef.member.ProperGroups := by decide +kernel
  have hjoins : EntityDef.member.JoinsApart := by decide +kernel
  obtain ⟨-, hgroups, -, -, hlooks, -⟩ := names_groups hs hmem hproper hjoins he
  refine ⟨s, e, hs, hmem, hproper, hjoins, he, hnames,
    (hgroups _ (List.mem_cons_of_mem _ hgroup)).2.2, (hlooks _ ?_).2 _ hgroup⟩
  rw [Table.ofDef, List.map_map]
  exact List.map_id _

/-! ### Seats -/

/-- Seats with groups of fields, and with guests. -/
def EntityDef.seats (groups : List (List String)) : List EntityDef :=
  [{ name := "guest", fields := [{ name := "id", kind := .int, id := true }] },
   { name := "seat",
     fields := [{ name := "id", kind := .int, id := true }, { name := "car", kind := .string },
       { name := "car_row", kind := .string }, { name := "row_side", kind := .string },
       { name := "row", kind := .string }, { name := "side", kind := .string },
       { name := "guestId", kind := .int }, { name := "tags", kind := .string, list := true }],
     relations := [.owning "guest" "guest" ["guestId"] ["id"]],
     uniqueGroups := groups }]

namespace Client

/-- Seats of one guest that differ in their number alone. -/
def reserve (numbers : List Int) : List Action :=
  .ask "guest" (.create (.ofFields [("id", .int 1)])) none :: numbers.map fun id =>
    .ask "seat" (.create (.ofFields [("id", .int id), ("car", .string "A"), ("row_side", .string "B"),
      ("car_row", .string "C"), ("side", .string "D"), ("row", .string "E"), ("guestId", .int 1),
      ("tags", .array [.string "F"])])) none

/-- How many seats a look at all of them and a look for one give, unless one of them fails. -/
def seatsBy (c : Client) (f : Filter) : Option (Nat × Nat) := do
  let all ← (c.ask "seat" (.findMany { filter := some f }) none).result.toOption
  let one ← (c.ask "seat" (.findUnique { filter := some f }) none).result.toOption
  return (all.length, one.toList.length)

/-- How many seats there are. -/
def seats (c : Client) : Option Nat := (c.store.tables.get? "seat").map Table.size

/-- The selector of a seat by two of its fields. -/
def seatWith (a : String) (x : String) (b : String) (y : String) : Filter :=
  (Filter.whereEquals {} a (.string x)).whereEquals b (.string y)

/-- Where two groups are joined to one name, a look for a seat by the second of them goes to the index
of the first one, and finds nothing. A group that is joined to the name of a field does not go by its
name, and one of a list goes by no name. A group in which a relation is named allows two seats with the
same values, and one of no field allows one seat at all. -/
theorem names_groups_clash :
    (∃ c₀ : Client,
      Schema.ofDefs (EntityDef.seats [["car", "row_side"], ["car_row", "side"]]) = .ok c₀.schema ∧
      c₀.Opened c₀.schema ∧ ∃ e ∈ c₀.schema.entity? "seat",
        ¬(e.tableDef.indexes.map (·.name)).Nodup ∧
        let c := (reserve [1]).foldl after c₀
        c.seatsBy (seatWith "car" "A" "row_side" "B") = some (1, 1) ∧
          c.seatsBy (seatWith "car_row" "C" "side" "D") = some (1, 0)) ∧
    (∃ c₀ : Client, Schema.ofDefs (EntityDef.seats [["car", "row"], ["tags"]]) = .ok c₀.schema ∧
      c₀.Opened c₀.schema ∧ ∃ e ∈ c₀.schema.entity? "seat",
        ["car", "row"] ∈ e.uniqueGroups ∧ ["tags"] ∈ e.uniqueGroups ∧
        (e.field? (compoundName ["car", "row"])).isSome ∧
        let c := (reserve [1]).foldl after c₀
        c.seatsBy (seatWith "car" "A" "row" "E") = some (1, 1) ∧
          c.seatsBy (.under (compoundName ["car", "row"]) (seatWith "car" "A" "row" "E")) = none ∧
          c.seatsBy (Filter.whereEquals {} "tags" (.array [.string "F"])) = none) ∧
    (∃ c₀ : Client, Schema.ofDefs (EntityDef.seats [["car", "guest"]]) = .ok c₀.schema ∧
      c₀.Opened c₀.schema ∧ ∃ e ∈ c₀.schema.entity? "seat",
        ["car", "guest"] ∈ e.uniqueGroups ∧ (e.field? "guest").isNone ∧
        ((reserve [1, 2]).foldl after c₀).seats = some 2) ∧
    ∃ c₀ : Client, Schema.ofDefs (EntityDef.seats [[]]) = .ok c₀.schema ∧
      c₀.Opened c₀.schema ∧ ∃ e ∈ c₀.schema.entity? "seat", [] ∈ e.uniqueGroups ∧
        ((reserve [1, 2]).foldl after c₀).seats = some 1 := by
  have hopened {groups : List (List String)} {P : Client → Entity → Prop}
      [∀ c e, Decidable (P c e)] (hP : (openMemory (EntityDef.seats groups)).toOption.any
        fun c₀ => (c₀.schema.entity? "seat").any fun e => P c₀ e) : ∃ c₀ : Client,
      Schema.ofDefs (EntityDef.seats groups) = .ok c₀.schema ∧ c₀.Opened c₀.schema ∧
        ∃ e ∈ c₀.schema.entity? "seat", P c₀ e := by
    obtain ⟨c₀, hs, hc₀, -, hP⟩ := exists_openMemory
      (P := fun c₀ => ∃ e ∈ c₀.schema.entity? "seat", P c₀ e) (by simpa [Option.any_eq_true] using hP)
    exact ⟨c₀, hs, hc₀, hP⟩
  exact ⟨hopened (by decide +kernel), hopened (by decide +kernel), hopened (by decide +kernel),
    hopened (by decide +kernel)⟩

end Client

end RelationalStore

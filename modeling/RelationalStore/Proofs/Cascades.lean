import RelationalStore.Proofs.LinkedRows

/- What becomes of the tables of a schema when rows are deleted, said without how it is done. The
   rows that go are the least set that has the given ones and every row that references one of them
   through a relation that cascades (`Schema.Doomed`). What stays is as before, but for the foreign
   keys that are cleared and the times of the last write that come with that (`Entity.Cleared`). -/
namespace RelationalStore
open SortedMap

/-! ### Schemas -/

/-- Each foreign key references a primary key, shares no field with another one, and has no time of
the last write, which no primary key has either; and the indexes of a table have names of their
own. -/
structure Schema.Separate (s : Schema) : Prop where
  references : ∀ e ∈ s.entities.values, ∀ r ∈ e.owningRelations, ∀ t ∈ s.entity? r.target,
    r.far = t.idFields
  apart : ∀ e ∈ s.entities.values, ∀ r ∈ e.owningRelations, ∀ r' ∈ e.owningRelations,
    ∀ f ∈ r.near, f ∈ r'.near → r = r'
  stamps : ∀ e ∈ s.entities.values, ∀ f ∈ e.fields, f.updatedAt = true →
    f.id = false ∧ ∀ r ∈ e.owningRelations, f.name ∉ r.near
  indexes : ∀ e ∈ s.entities.values, (e.tableDef.indexes.map (·.name)).Nodup

instance (s : Schema) : Decidable s.Separate :=
  decidable_of_iff
    ((∀ e ∈ s.entities.values, ∀ r ∈ e.owningRelations, ∀ t ∈ s.entity? r.target,
        r.far = t.idFields) ∧
      (∀ e ∈ s.entities.values, ∀ r ∈ e.owningRelations, ∀ r' ∈ e.owningRelations,
        ∀ f ∈ r.near, f ∈ r'.near → r = r') ∧
      (∀ e ∈ s.entities.values, ∀ f ∈ e.fields, f.updatedAt = true →
        f.id = false ∧ ∀ r ∈ e.owningRelations, f.name ∉ r.near) ∧
      ∀ e ∈ s.entities.values, (e.tableDef.indexes.map (·.name)).Nodup)
    ⟨fun ⟨h₁, h₂, h₃, h₄⟩ => ⟨h₁, h₂, h₃, h₄⟩, fun ⟨h₁, h₂, h₃, h₄⟩ => ⟨h₁, h₂, h₃, h₄⟩⟩

/-! ### Rows that go -/

/-- The foreign key of the row is the key of the other row. -/
def Relation.Refers (r : Relation) (row parent : Row) : Prop :=
  compare (Key.ofRow r.near row) (Key.ofRow r.far parent) = .eq

/-- The least set of rows that has those of one entity that are given, and each row of the tables
that references one of its rows through a relation that cascades. -/
inductive Schema.Doomed (s : Schema) (tables : Tables) (n : String) (rows : List Row) :
    String → Row → Prop
  | root {row : Row} (h : row ∈ rows) : Doomed s tables n rows n row
  | cascade {e : Entity} {r : Relation} {row parent : Row}
      (hparent : Doomed s tables n rows r.target parent) (he : s.entity? e.name = some e)
      (hr : r ∈ e.owningRelations) (hcascade : r.onDelete = .cascade)
      (hrow : tables.Has e.name row) (hrefers : r.Refers row parent) :
      Doomed s tables n rows e.name row

/-! ### Rows that stay -/

/-- The row references a row that goes, through a relation that clears its key. -/
def Schema.Severed (s : Schema) (tables : Tables) (n : String) (rows : List Row) (row : Row)
    (r : Relation) : Prop :=
  r.onDelete = .setNull ∧ ∃ parent, s.Doomed tables n rows r.target parent ∧ r.Refers row parent

/-- What is left of a row when the keys of some relations are cleared. -/
structure Entity.Cleared (e : Entity) (cut : Relation → Prop) (x y : Row) : Prop where
  whole : (∀ r ∈ e.owningRelations, ¬ cut r) → y = x
  null : ∀ r ∈ e.owningRelations, cut r → ∀ f ∈ r.near, y.get? f = some .null
  same : ∀ f, (∀ g ∈ e.fields, g.updatedAt = true → g.name ≠ f) →
    (∀ r ∈ e.owningRelations, cut r → f ∉ r.near) → y.get? f = x.get? f

/-- The tables after the deletion of some rows of the table of that name. -/
structure Schema.Deletion (s : Schema) (tables : Tables) (n : String) (rows : List Row)
    (tables' : Tables) : Prop where
  /-- A row has gone if and only if it is in the least set. -/
  gone : ∀ e, s.entity? e.name = some e → ∀ x, tables.Has e.name x →
    (s.Doomed tables n rows e.name x ↔
      ∀ y, tables'.Has e.name y → compare (e.keyOf x) (e.keyOf y) ≠ .eq)
  /-- Every other row is there, with the keys cleared that referenced a row that has gone. -/
  kept : ∀ e, s.entity? e.name = some e → ∀ x, tables.Has e.name x →
    ¬ s.Doomed tables n rows e.name x →
      ∃ y, tables'.Has e.name y ∧ e.keyOf y = e.keyOf x ∧
        e.Cleared (s.Severed tables n rows x) x y
  /-- There are no other rows. -/
  known : ∀ e, s.entity? e.name = some e → ∀ y, tables'.Has e.name y →
    ∃ x, tables.Has e.name x ∧ ¬ s.Doomed tables n rows e.name x ∧ e.keyOf y = e.keyOf x
  /-- No row that is left references a row that has gone through a relation that forbids it. -/
  unrestricted : ∀ e, s.entity? e.name = some e → ∀ r ∈ e.owningRelations,
    r.onDelete = .restrict → ∀ y, tables'.Has e.name y →
      ∀ parent, s.Doomed tables n rows r.target parent → ¬ r.Refers y parent
  /-- A table of no entity is as it was. -/
  others : ∀ m, s.entity? m = none → tables'.get? m = tables.get? m

/-! ### Clearing keys -/

theorem Row.get?_foldl_write {α : Type} (name : α → String) (g : String → Value) (items : List α)
    (row : Row) (f : String) :
    (items.foldl (fun row a => row.insert (name a) (g (name a))) row).get? f =
      if f ∈ items.map name then some (g f) else row.get? f := by
  induction items generalizing row with
  | nil => simp
  | cons a rest ih =>
    rw [List.foldl_cons, ih, get?_insert_eq, List.map_cons]
    by_cases hrest : f ∈ rest.map name
    · rw [if_pos hrest, if_pos (List.mem_cons_of_mem _ hrest)]
    · by_cases hf : name a = f
      · simp [hf]
      · simp [hrest, hf, Ne.symm hf]

theorem Row.get?_foldl_insert {α : Type} (name : α → String) (v : Value) (items : List α)
    (row : Row) (f : String) :
    (items.foldl (fun row a => row.insert (name a) v) row).get? f =
      if f ∈ items.map name then some v else row.get? f :=
  get?_foldl_write name (fun _ => v) items row f

/-- The row after some of its fields are set to null. -/
theorem Row.value_foldl_null (names : List String) (row : Row) (f : String) :
    Row.value (names.foldl (fun row name => row.insert name .null) row) f =
      if f ∈ names then .null else row.value f := by
  have hget := Row.get?_foldl_insert (fun f : String => f) .null names row f
  rw [List.map_id'] at hget
  rw [Row.value, hget]
  split <;> rfl

theorem Key.ofRow_congr {columns : List String} {x y : Row}
    (h : ∀ c ∈ columns, y.get? c = x.get? c) : Key.ofRow columns y = Key.ofRow columns x := by
  rw [Key.ofRow, Key.ofRow]
  congr 1
  refine List.map_congr_left fun c hc => ?_
  rw [Row.value, Row.value, h c hc]

namespace Schema
variable {s : Schema} {e : Entity} {r : Relation}

theorem entity_inj {c : Entity} (hc : s.entity? c.name = some c) (he : s.entity? e.name = some e)
    (hname : c.name = e.name) : c = e := by
  rw [hname, he] at hc
  exact (Option.some.inj hc).symm

/-- A schema with a key that is to be cleared is refused if it has a field of the primary key. -/
theorem Resolved.near_of_setNull (hs : s.Resolved) (he : s.entity? e.name = some e)
    (hr : r ∈ e.owningRelations) (hnull : r.onDelete = .setNull) {f : String} (hf : f ∈ r.near) :
    f ∉ e.idFields := by
  obtain ⟨t, ht⟩ := hs.target he r (List.mem_filter.1 hr).1
  have hname := hs.name ht
  have hdependent : e.dependentOf r ∈ t.dependents :=
    (hs.dependents ht _).2 ⟨e, he, r, hr, hname.symm, rfl⟩
  have hnullable : e.mayBeNull r.near = true := hs.nullable ht _ hdependent hnull
  intro hid
  rw [(hs.idFields he).1] at hid
  obtain ⟨g, hg, rfl⟩ := List.mem_map.1 hid
  obtain ⟨hg, hid⟩ := List.mem_filter.1 hg
  have hmem : g ∈ r.near.filterMap e.field? := List.mem_filterMap.2 ⟨g.name, hf, hs.field he g hg⟩
  have hclear := List.all_eq_true.1 hnullable g hmem
  simp [hid] at hclear

end Schema

namespace Entity.Cleared
variable {s : Schema} {e : Entity} {r : Relation} {cut : Relation → Prop} {x y : Row}

theorem refl (e : Entity) {cut : Relation → Prop} (hcut : ∀ r ∈ e.owningRelations, ¬ cut r) (x : Row) :
    e.Cleared cut x x where
  whole _ := rfl
  null r hr h := absurd h (hcut r hr)
  same _ _ _ := rfl

theorem congr {cut' : Relation → Prop} (h : e.Cleared cut x y)
    (hcut : ∀ r ∈ e.owningRelations, cut r ↔ cut' r) : e.Cleared cut' x y where
  whole hnone := h.whole fun r hr hc => hnone r hr ((hcut r hr).1 hc)
  null r hr hc := h.null r hr ((hcut r hr).2 hc)
  same f hstamp hf := h.same f hstamp fun r hr hc => hf r hr ((hcut r hr).1 hc)

section
variable (hs : s.Resolved) (hsep : s.Separate) (he : s.entity? e.name = some e)
include hs hsep he

/-- The primary key stays. -/
theorem keyOf_eq (h : e.Cleared cut x y)
    (hcut : ∀ r ∈ e.owningRelations, cut r → r.onDelete = .setNull) : e.keyOf y = e.keyOf x := by
  refine Key.ofRow_congr fun c hc => h.same c (fun g hg hstamp hname => ?_) fun r hr hcr hf => ?_
  · subst hname
    have hid := (hsep.stamps e (hs.mem_values he) g hg hstamp).1
    rw [hs.id_of_mem_idFields he hg hc] at hid
    cases hid
  · exact hs.near_of_setNull he hr (hcut r hr hcr) hf hc

/-- A key that is not cleared stays, because no other one has a field of it. -/
theorem near_eq (h : e.Cleared cut x y) (hr : r ∈ e.owningRelations) (hc : ¬ cut r) :
    Key.ofRow r.near y = Key.ofRow r.near x := by
  refine Key.ofRow_congr fun f hf => h.same f (fun g hg hstamp hname => ?_) fun r' hr' hc' hf' => ?_
  · subst hname
    exact (hsep.stamps e (hs.mem_values he) g hg hstamp).2 r hr hf
  · have hsame := hsep.apart e (hs.mem_values he) r hr r' hr' f hf hf'
    subst hsame
    exact hc hc'

omit hsep in
/-- A key that is cleared is the key of no row. -/
theorem near_null (h : e.Cleared cut x y) (hr : r ∈ e.owningRelations) (hc : cut r) :
    (Key.ofRow r.near y).hasNull = true := by
  obtain ⟨hne, -, -⟩ := hs.key he r hr
  obtain ⟨f, hf⟩ := List.exists_mem_of_ne_nil _ hne
  refine List.any_eq_true.2 ⟨y.value f, List.mem_map_of_mem hf, ?_⟩
  rw [Row.value, h.null r hr hc f hf]
  rfl

/-- One more key is cleared, and the time of that is noted. -/
theorem clear (h : e.Cleared cut x y) (hr : r ∈ e.owningRelations) (time : DateTime) :
    e.Cleared (fun r' => cut r' ∨ r' = r) x
      ((e.fields.filter (·.updatedAt)).foldl (fun row f => row.insert f.name (.datetime time))
        (r.near.foldl (fun row f => row.insert f .null) y)) := by
  have hget (f : String) := Row.get?_foldl_insert (fun g : FieldDef => g.name) (.datetime time)
    (e.fields.filter (·.updatedAt)) (r.near.foldl (fun row f => row.insert f .null) y) f
  have hnull (f : String) := Row.get?_foldl_insert (fun f : String => f) .null r.near y f
  simp only [List.map_id'] at hnull
  have hstamped {f : String} {r' : Relation} (hr' : r' ∈ e.owningRelations) (hf : f ∈ r'.near) :
      f ∉ (e.fields.filter (·.updatedAt)).map (·.name) := by
    intro hmem
    obtain ⟨g, hg, rfl⟩ := List.mem_map.1 hmem
    obtain ⟨hg, hstamp⟩ := List.mem_filter.1 hg
    exact (hsep.stamps e (hs.mem_values he) g hg hstamp).2 r' hr' hf
  refine ⟨fun hnone => absurd (.inr rfl) (hnone r hr), fun r' hr' hc f hf => ?_, fun f hf hcut => ?_⟩
  · rw [hget, if_neg (hstamped hr' hf), hnull]
    rcases hc with hc | rfl
    · split
      · rfl
      · exact h.null r' hr' hc f hf
    · rw [if_pos hf]
  · have hplain : f ∉ (e.fields.filter (·.updatedAt)).map (·.name) := by
      intro hmem
      obtain ⟨g, hg, hname⟩ := List.mem_map.1 hmem
      obtain ⟨hg, hstamp⟩ := List.mem_filter.1 hg
      exact hf g hg hstamp hname
    rw [hget, if_neg hplain, hnull, if_neg (hcut r hr (.inr rfl))]
    exact h.same f hf fun r' hr' hc => hcut r' hr' (.inl hc)

end

end Entity.Cleared

end RelationalStore

import RelationalStore.Proofs.PayloadKeys
import RelationalStore.Proofs.RetainedRows

/- Foreign keys that reference no row, and how none comes about while rows are written. As long as
   every row is retained, what a foreign key references stays if it is a primary key or does not
   change (`Schema.Anchored`); so a key that dangles after a write dangled before it, or is that of
   the row that is written. The invariant (`Schema.Writing`) is that a stored row has a key that
   dangles only if it was so at first, for the keys that are guarded (`Schema.Guarded`). A row that
   was read stays fit to be written while others are (`Schema.Known`), however many are written in
   between. -/
namespace RelationalStore
open SortedMap

/-- No part of the foreign key is null, and it references no row. -/
def Tables.Dangles (tables : Tables) (r : Relation) (row : Row) : Prop :=
  (Key.ofRow r.near row).hasNull = false ∧ ∀ p, tables.Has r.target p → ¬ r.Refers row p

instance (tables : Tables) (r : Relation) (row : Row) : Decidable (tables.Dangles r row) :=
  decidable_of_iff ((Key.ofRow r.near row).hasNull = false ∧ ∀ t ∈ tables.get? r.target,
      ∀ p ∈ t.toList, compare (Key.ofRow r.near row) (Key.ofRow r.far p) ≠ .eq)
    (and_congr_right fun _ => ⟨fun h p hp => by
      obtain ⟨t, ht, hp⟩ := hp
      exact h t ht p hp, fun h t ht p hp => h p ⟨t, ht, hp⟩⟩)

theorem Tables.Dangles.congr {tables : Tables} {r : Relation} {row row' : Row}
    (h : tables.Dangles r row') (hkey : Key.ofRow r.near row' = Key.ofRow r.near row) :
    tables.Dangles r row := by
  rw [Dangles, hkey] at h
  refine ⟨h.1, fun p hp hrefers => h.2 p hp ?_⟩
  rw [Relation.Refers, hkey]
  exact hrefers

namespace Schema

/-- What the foreign key references is the primary key, or cannot change. -/
def Anchored (s : Schema) (fluid : String → String → Prop) (r : Relation) : Prop :=
  ∀ t ∈ s.entity? r.target, r.far = t.idFields ∨ ∀ f ∈ r.far, ¬ fluid t.name f

instance (s : Schema) (fluid : String → String → Prop) [∀ n f, Decidable (fluid n f)]
    (r : Relation) : Decidable (s.Anchored fluid r) := by
  unfold Anchored
  infer_instance

/-- A check of the foreign key finds the rows that it references, and no write stamps a field of it
after the check. -/
structure Checkable (s : Schema) (e : Entity) (r : Relation) : Prop where
  owning : r ∈ e.owningRelations
  unstamped : ∀ f ∈ r.near, f ∉ e.stamps
  found : ∀ t ∈ s.entity? r.target, r.far = t.idFields ∨ (t.tableDef.indexes.map (·.name)).Nodup

instance (s : Schema) (e : Entity) (r : Relation) : Decidable (s.Checkable e r) :=
  decidable_of_iff
    (r ∈ e.owningRelations ∧ (∀ f ∈ r.near, f ∉ e.stamps) ∧
      ∀ t ∈ s.entity? r.target, r.far = t.idFields ∨ (t.tableDef.indexes.map (·.name)).Nodup)
    ⟨fun ⟨h₁, h₂, h₃⟩ => ⟨h₁, h₂, h₃⟩, fun ⟨h₁, h₂, h₃⟩ => ⟨h₁, h₂, h₃⟩⟩

/-- The foreign key is one of those that do not come to dangle: those of the table for which the
payload vouches, and which reference what cannot change. -/
structure Guarded (s : Schema) (vouched : String → Relation → Prop) (fluid : String → String → Prop)
    (e : Entity) (r : Relation) : Prop extends s.Checkable e r where
  vouched : vouched e.name r
  anchored : s.Anchored fluid r

/-- Either no field of a primary key may change, or every field of every row may. -/
def Admissible (s : Schema) (fluid : String → String → Prop) : Prop :=
  s.Steady fluid ∨ ∀ n f, fluid n f

/-- The fields that may change in the course of a request: those that it rewrites, if none of them is
of a primary key. -/
def MayChange (s : Schema) (e : Entity) (access : Access) (q : Query) (n f : String) : Prop :=
  s.KeepsKeys e access q → s.Rewrites e access q n f

instance (s : Schema) (e : Entity) (access : Access) (q : Query) (n f : String) :
    Decidable (s.MayChange e access q n f) := by
  unfold MayChange
  infer_instance

theorem KeepsKeys.steady {s : Schema} {e : Entity} {access : Access} {q : Query} (hs : s.Resolved)
    (h : s.KeepsKeys e access q) : s.Steady (s.Rewrites e access q) :=
  fun t ht f hf => h t (hs.ordered.mem_values_iff.2 ⟨t.name, ht⟩) f hf

theorem admissible_mayChange {s : Schema} (hs : s.Resolved) (e : Entity) (access : Access)
    (q : Query) : s.Admissible (s.MayChange e access q) := by
  by_cases h : s.KeepsKeys e access q
  · exact .inl fun t ht f hf hchange => h.steady hs t ht f hf (hchange h)
  · exact .inr fun _ _ hkeeps => absurd hkeeps h

section
variable (s : Schema) (κ : String → String → NumberClass) (vouched : String → Relation → Prop)
  (fluid : String → String → Prop) (first tables : Tables)

/-- If the foreign key of the row dangles, then it did so at first, and in the same row where no key
may change. -/
def Excused (e : Entity) (r : Relation) (row : Row) : Prop :=
  tables.Dangles r row → ∃ x, first.Has e.name x ∧ first.Dangles r x ∧
    compare (Key.ofRow r.near x) (Key.ofRow r.near row) = .eq ∧
      (s.Steady fluid → e.keyOf x = e.keyOf row)

/-- The row may be stored. -/
structure Storable (e : Entity) (row : Row) : Prop where
  within : row.Within (κ e.name)
  excused : ∀ r, s.Guarded vouched fluid e r → s.Excused fluid first tables e r row

/-- The row was read or written: it is there, as far as it has not changed since. -/
structure Known (e : Entity) (row : Row) : Prop extends
    s.Storable κ vouched fluid first tables e row where
  there : ∃ y, tables.Has e.name y ∧ e.Becomes (fluid e.name) row y

/-- Tables in which rows are being written. -/
structure Writing : Prop where
  holds : s.Holds κ tables
  excused : ∀ e, s.entity? e.name = some e → ∀ x, tables.Has e.name x →
    ∀ r, s.Guarded vouched fluid e r → s.Excused fluid first tables e r x

/-- What became of the tables while the planned rows were made. -/
structure Reaches (plan : List (String × Bool)) (tables' : Tables) : Prop where
  retains : s.Retains fluid tables tables'
  makes : s.Steady fluid → ∃ made, Fulfils made plan ∧ s.Makes tables made tables'

end

variable {s : Schema} {κ : String → String → NumberClass} {vouched : String → Relation → Prop}
  {fluid : String → String → Prop} {first a b c : Tables} {e : Entity} {r : Relation} {row row' : Row}
  {plan more : List (String × Bool)}

theorem Reaches.refl (s : Schema) (fluid : String → String → Prop) (tables : Tables) :
    s.Reaches fluid tables [] tables :=
  ⟨.refl s fluid tables, fun _ => ⟨[], .nil, .nil s tables⟩⟩

theorem Reaches.loose (h : s.Reaches fluid a plan b) : s.Reaches fluid a (Fulfils.loosen plan) b := by
  refine ⟨h.retains, fun hsteady => ?_⟩
  obtain ⟨made, hplan, hmade⟩ := h.makes hsteady
  exact ⟨made, hplan.loose, hmade⟩

theorem Reaches.loose_append (h : s.Reaches fluid a (Fulfils.loosen plan) b)
    (more : List (String × Bool)) : s.Reaches fluid a (Fulfils.loosen (plan ++ more)) b := by
  refine ⟨h.retains, fun hsteady => ?_⟩
  obtain ⟨made, hplan, hmade⟩ := h.makes hsteady
  exact ⟨made, hplan.loose_append more, hmade⟩

theorem Reaches.trans (ha : s.Holds κ a) (hb : s.Holds κ b) (hc : s.Holds κ c)
    (h : s.Reaches fluid a plan b) (h' : s.Reaches fluid b more c) :
    s.Reaches fluid a (plan ++ more) c := by
  refine ⟨h.retains.trans ha hb hc h'.retains, fun hsteady => ?_⟩
  obtain ⟨made, hplan, hmade⟩ := h.makes hsteady
  obtain ⟨made', hplan', hmade'⟩ := h'.makes hsteady
  exact ⟨made ++ made', hplan.append hplan', hmade.append hsteady hmade' h.retains h'.retains⟩

/-! ### Rows that were read -/

theorem Writing.start (h : s.Holds κ a) : s.Writing κ vouched fluid a a :=
  ⟨h, fun _ _ x hx _ _ hdangles => ⟨x, hx, hdangles, Std.ReflOrd.compare_self, fun _ => rfl⟩⟩

theorem Writing.known (h : s.Writing κ vouched fluid first a) (he : s.entity? e.name = some e)
    (hrow : a.Has e.name row) : s.Known κ vouched fluid first a e row where
  within := h.holds.within hrow
  excused := h.excused e he row hrow
  there := ⟨row, hrow, .refl e _ row⟩

/-- A foreign key that does not dangle at first does not come to dangle in the row with its key. -/
theorem Writing.sound (h : s.Writing κ vouched fluid a b) (hsteady : s.Steady fluid) (ha : s.Holds κ a)
    (he : s.entity? e.name = some e) (hguarded : s.Guarded vouched fluid e r)
    (hrow : a.Has e.name row) (hsound : ¬ a.Dangles r row) (hrow' : b.Has e.name row')
    (hkey : e.keyOf row' = e.keyOf row) : ¬ b.Dangles r row' := by
  intro hdangles
  obtain ⟨x, hx, hfirst, -, hown⟩ := h.excused e he row' hrow' r hguarded hdangles
  obtain rfl : row = x := by
    refine ha.eq_of_keyOf he hrow hx ?_
    rw [hown hsteady, hkey]
    exact Std.ReflOrd.compare_self
  exact hsound hfirst

/-- A row that has the lasting fields of a row that was read may be stored if its foreign keys are
those of that row or reference a row. -/
theorem Known.storable (h : s.Known κ vouched fluid first a e row) (he : s.entity? e.name = some e)
    (hwithin : row'.Within (κ e.name)) (hsame : ∀ f, ¬ fluid e.name f → row'.value f = row.value f)
    (hkeys : ∀ r, s.Guarded vouched fluid e r →
      (∀ f ∈ r.near, row'.value f = row.value f) ∨ ¬ a.Dangles r row') :
    s.Storable κ vouched fluid first a e row' where
  within := hwithin
  excused r hguarded hdangles := by
    rcases hkeys r hguarded with hnear | hsound
    · have hkey := Key.ofRow_eq hnear
      obtain ⟨x, hx, hfirst, heq, hown⟩ := h.excused r hguarded (hdangles.congr hkey)
      refine ⟨x, hx, hfirst, by rwa [hkey], fun hsteady => ?_⟩
      rw [hown hsteady, hsteady.keyOf_eq he hsame]
    · exact absurd hdangles hsound

theorem Anchored.mono {narrow : String → String → Prop} (h : s.Anchored fluid r)
    (hle : ∀ n f, narrow n f → fluid n f) : s.Anchored narrow r :=
  fun t ht => (h t ht).imp_right fun hfar f hf hnarrow => hfar f hf (hle t.name f hnarrow)

theorem Guarded.mono {narrow : String → String → Prop} (h : s.Guarded vouched fluid e r)
    (hle : ∀ n f, narrow n f → fluid n f) : s.Guarded vouched narrow e r :=
  ⟨h.toCheckable, h.vouched, h.anchored.mono hle⟩

/-- What is referenced of a row stays, whatever becomes of it. -/
theorem Anchored.keeps (h : s.Anchored fluid r) {t : Entity} (ht : s.entity? r.target = some t)
    {p p' : Row} (hbecomes : t.Becomes (fluid t.name) p p') :
    compare (Key.ofRow r.far p) (Key.ofRow r.far p') = .eq := by
  rcases h t ht with hfar | hfar
  · rw [hfar]
    exact hbecomes.key
  · rw [Key.ofRow_eq fun f hf => hbecomes.same f (hfar f hf)]
    exact Std.ReflOrd.compare_self

section
variable (hs : s.Resolved) (hkinds : s.KeysOfKinds) (he : s.entity? e.name = some e)
include hs hkinds he

/-- What a key references goes on to be referenced. -/
theorem Retains.refers (h : s.Retains fluid a b) (ha : s.Holds κ a) (hb : s.Holds κ b)
    (hr : r ∈ e.owningRelations) (hanchored : s.Anchored fluid r) (hrow : row.Within (κ e.name))
    {p : Row} (hp : a.Has r.target p) (hrefers : r.Refers row p) :
    ∃ p', b.Has r.target p' ∧ r.Refers row p' := by
  obtain ⟨t, ht⟩ := hs.target he r (List.mem_filter.1 hr).1
  have hname := hs.name ht
  obtain ⟨p', hp', hbecomes⟩ := h t (by rw [hname, ht]) p (by rwa [hname])
  rw [hname] at hp'
  refine ⟨p', hp', ?_⟩
  exact (Key.compare_isLE_trans (κ e.name) r.near).eq_trans hrow.fits.key
    (ha.fits_link hs hkinds he hr (ha.within hp)) (hb.fits_link hs hkinds he hr (hb.within hp'))
    hrefers (hanchored.keeps ht hbecomes)

theorem Retains.dangles (h : s.Retains fluid a b) (ha : s.Holds κ a) (hb : s.Holds κ b)
    (hr : r ∈ e.owningRelations) (hanchored : s.Anchored fluid r) (hrow : row.Within (κ e.name))
    (hdangles : b.Dangles r row) : a.Dangles r row := by
  refine ⟨hdangles.1, fun p hp hrefers => ?_⟩
  obtain ⟨p', hp', hrefers'⟩ := h.refers hs hkinds he ha hb hr hanchored hrow hp hrefers
  exact hdangles.2 p' hp' hrefers'

/-! ### Later -/

theorem Storable.later (h : s.Storable κ vouched fluid first a e row) (ha : s.Holds κ a)
    (hb : s.Holds κ b)
    (hab : s.Retains fluid a b) : s.Storable κ vouched fluid first b e row where
  within := h.within
  excused r hguarded hdangles := h.excused r hguarded
    (hab.dangles hs hkinds he ha hb hguarded.owning hguarded.anchored h.within hdangles)

theorem Known.later (h : s.Known κ vouched fluid first a e row) (ha : s.Holds κ a) (hb : s.Holds κ b)
    (hab : s.Retains fluid a b) : s.Known κ vouched fluid first b e row where
  toStorable := h.toStorable.later hs hkinds he ha hb hab
  there := by
    obtain ⟨y, hy, hkey, hsame⟩ := h.there
    obtain ⟨z, hz, hkey', hsame'⟩ := hab e he y hy
    refine ⟨z, hz, ?_, fun f hf => (hsame' f hf).trans (hsame f hf)⟩
    exact (Key.compare_isLE_trans (κ e.name) e.idFields).eq_trans h.within.fits.key
      (ha.fits_keyOf hy) (hb.fits_keyOf hz) hkey hkey'

/-! ### Writes -/

/-- Storing a row that may be stored, so that every row is retained. -/
theorem Writing.stores (h : s.Writing κ vouched fluid first a) (hb : s.Holds κ b)
    (hrow : s.Storable κ vouched fluid first a e row) (hstores : e.Stores row a b)
    (hab : s.Retains fluid a b) : s.Writing κ vouched fluid first b where
  holds := hb
  excused c hc x hx r hguarded := by
    rcases (hstores c.name x).1 hx with ⟨hname, rfl⟩ | ⟨hx, -⟩
    · obtain rfl := entity_inj hc he hname
      exact (hrow.later hs hkinds hc h.holds hb hab).excused r hguarded
    · exact ((h.known hc hx).later hs hkinds hc h.holds hb hab).excused r hguarded

variable {tx tx' : Transaction} {key : Key}

theorem Writing.add (h : s.Writing κ vouched fluid first a)
    (hrow : s.Storable κ vouched fluid first a e row)
    (hadd : tx.add a e.name row = .ok (key, tx', b)) :
    s.Writing κ vouched fluid first b ∧ s.Reaches fluid a [(e.name, false)] b ∧ b.Has e.name row ∧
      key = e.keyOf row := by
  obtain ⟨hb, hstores, hkey, hnew⟩ := h.holds.add he hrow.within hadd
  have hab : s.Retains fluid a b :=
    hstores.retains he fun x hx heq => absurd heq (hnew x hx)
  refine ⟨h.stores hs hkinds he hb hrow hstores hab, ⟨hab, fun _ => ?_⟩, hstores.has, hkey⟩
  exact ⟨[(e.name, e.keyOf row)], .made _ _ _ .nil, hstores.makes_one he hnew⟩

/-- A row that was read is put back, with changes in fields that may change. -/
theorem Writing.put (h : s.Writing κ vouched fluid first a) (hfluid : s.Admissible fluid)
    (hrow : s.Storable κ vouched fluid first a e row)
    (hthere : ∃ y, a.Has e.name y ∧ ∀ f, ¬ fluid e.name f → row.value f = y.value f)
    (hput : tx.put a e.name row = .ok (key, tx', b)) :
    s.Writing κ vouched fluid first b ∧ s.Reaches fluid a [] b ∧ e.Stores row a b := by
  obtain ⟨hb, hstores⟩ := h.holds.put he hrow.within hput
  obtain ⟨y, hy, hsame⟩ := hthere
  have hab : s.Retains fluid a b := by
    refine hstores.retains he fun x hx heq f hf => ?_
    rcases hfluid with hsteady | hall
    · rw [hsteady.keyOf_eq he hsame] at heq
      rw [← h.holds.eq_of_keyOf he hy hx heq]
      exact hsame f hf
    · exact absurd (hall e.name f) hf
  refine ⟨h.stores hs hkinds he hb hrow hstores hab, ⟨hab, fun hsteady => ⟨[], .nil, ?_⟩⟩, hstores⟩
  exact hstores.makes_nil he ⟨y, hy, (hsteady.keyOf_eq he hsame).symm⟩

end

end Schema

end RelationalStore

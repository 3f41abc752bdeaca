import Mathlib.Logic.Equiv.Basic
import Mathlib.Logic.Relator
import RelationalStore.Proofs.DeletionOutcomes
import RelationalStore.Proofs.SchemaLinks

/- Deletions in two schemas that differ only in the names of their entities. Names come into a
   deletion in two ways: they say which relation leads to which table, and they order the relations
   that are followed. The first is carried over from one schema to the other along the pairs of
   names (`Schema.Paired`), which are the same read from either side, so each fact is carried over
   in one direction only. The second shows where a row that goes forbids another one to go
   (`Client.delete_follows_names`), and nowhere else (`Schema.delete_renamed`). -/
namespace RelationalStore
open SortedMap

/-! ### Names of entities -/

/-- The relation leads to the entity's new name. -/
def RelationDef.rename (ρ : String → String) (r : RelationDef) : RelationDef :=
  { r with target := ρ r.target }

/-- Entities have other names. -/
def EntityDef.rename (ρ : String → String) (d : EntityDef) : EntityDef :=
  { d with name := ρ d.name, relations := d.relations.map (·.rename ρ) }

/-- The table has another name. -/
def Table.rename (n : String) (t : Table) : Table :=
  { t with definition := { t.definition with name := n } }

/-- The tables of the first are those of the second under the names that their entities have there, and
their transactions may do the same with them. -/
structure Work.Renames (ρ : String → String) (w w' : Work) : Prop where
  tables : ∀ n, w'.tables.get? (ρ n) = (w.tables.get? n).map (·.rename (ρ n))
  known : ∀ n', (w'.tables.get? n').isSome → ∃ n, ρ n = n'
  active : w'.transaction.active = w.transaction.active
  mode : w'.transaction.mode = w.transaction.mode
  scope : ∀ n, ρ n ∈ w'.transaction.scope ↔ n ∈ w.transaction.scope

/-- The tables under the new names of their entities. -/
def Tables.rename (ρ : String → String) (tables : Tables) : Tables :=
  SortedMap.ofList (tables.entries.map fun p => (ρ p.1, p.2.rename (ρ p.1)))

/-- A state under the new names. -/
def Work.rename (ρ : String → String) (w : Work) : Work where
  tables := w.tables.rename ρ
  transaction :=
    { w.transaction with
      scope := (SortedSet.ofList (w.transaction.scope.map ρ)).keys
      undo := w.transaction.undo.map fun u => { u with table := ρ u.table } }
  supply := w.supply
  changes := w.changes.map fun c => { c with entity := ρ c.entity }
  deleting := w.deleting.map fun p => (ρ p.1, p.2)

theorem Tables.get?_rename {ρ : String → String} (hρ : Function.Injective ρ) {tables : Tables}
    (ho : Ordered tables) (n : String) :
    (tables.rename ρ).get? (ρ n) = (tables.get? n).map (·.rename (ρ n)) := by
  have hnodup : ((tables.entries.map fun p => (ρ p.1, p.2.rename (ρ p.1))).map (·.1)).Nodup := by
    rw [List.map_map]
    have hkeys := ho.nodup_keys.map hρ
    rwa [SortedMap.keys, List.map_map] at hkeys
  cases ht : tables.get? n with
  | some t =>
    refine get?_ofList_of_mem hnodup ?_
    exact List.mem_map.2 ⟨(n, t), mem_entries_of_get? ht, rfl⟩
  | none =>
    refine Option.eq_none_iff_forall_ne_some.2 fun t' ht' => ?_
    obtain ⟨⟨m, t⟩, hmem, heq⟩ := List.mem_map.1 (mem_of_get?_ofList ht')
    have hname : m = n := hρ (Prod.mk.inj heq).1
    rw [hname] at hmem
    rw [ho.get?_eq_some_iff.2 hmem] at ht
    cases ht

theorem Work.renames_rename {ρ : String → String} (hρ : Function.Injective ρ) {w : Work}
    (ho : Ordered w.tables) : w.Renames ρ (w.rename ρ) where
  tables := Tables.get?_rename hρ ho
  known n' hn' := by
    obtain ⟨t', ht'⟩ := Option.isSome_iff_exists.1 hn'
    obtain ⟨p, -, heq⟩ := List.mem_map.1 (mem_of_get?_ofList ht')
    exact ⟨p.1, (Prod.mk.inj heq).1⟩
  active := rfl
  mode := rfl
  scope n := by
    rw [Work.rename, mem_keys_set, List.mem_map_of_injective hρ]

/-! ### Pairs of entities -/

/-- The relations differ in their names for the target alone. -/
structure Relation.Paired (R : String → String → Prop) (r r' : Relation) : Prop where
  target : R r.target r'.target
  same : r' = { r with target := r'.target }

/-- The entities differ in names of entities alone. -/
structure Entity.Paired (R : String → String → Prop) (e e' : Entity) : Prop where
  name : R e.name e'.name
  fields : e'.fields = e.fields
  idFields : e'.idFields = e.idFields
  groups : e'.uniqueGroups = e.uniqueGroups
  owning : List.Forall₂ (Relation.Paired R) e.owningRelations e'.owningRelations

/-- Names that pair up the entities of two schemas, and tables with the same rows under them. -/
structure Schema.Paired (R : String → String → Prop) (s s' : Schema) (tables tables' : Tables) :
    Prop where
  one : Relator.BiUnique R
  named : ∀ e e', s.entity? e.name = some e → s'.entity? e'.name = some e' → R e.name e'.name →
    e.Paired R e'
  there : ∀ e, s.entity? e.name = some e → ∃ e', s'.entity? e'.name = some e' ∧ R e.name e'.name
  back : ∀ e', s'.entity? e'.name = some e' → ∃ e, s.entity? e.name = some e ∧ R e.name e'.name
  rows : ∀ n n', R n n' → ∀ y, tables.Has n y ↔ tables'.Has n' y

section
variable {R : String → String → Prop}

theorem Relation.Paired.symm {r r' : Relation} (h : r.Paired R r') : r'.Paired (flip R) r :=
  ⟨h.target, by rw [h.same]⟩

theorem Relation.Paired.refers_iff {r r' : Relation} (h : r.Paired R r') (row parent : Row) :
    r.Refers row parent ↔ r'.Refers row parent := by
  rw [h.same]
  rfl

theorem Entity.Paired.symm {e e' : Entity} (h : e.Paired R e') : e'.Paired (flip R) e :=
  ⟨h.name, h.fields.symm, h.idFields.symm, h.groups.symm,
    h.owning.flip.imp fun _ _ hr => hr.symm⟩

/-- The tables of the two entities differ in their names alone. -/
theorem Entity.Paired.tableDef {e e' : Entity} (h : e.Paired R e') :
    e'.tableDef = { e.tableDef with name := e'.name } := by
  have hkeys {rs rs' : List Relation} (hrs : List.Forall₂ (Relation.Paired R) rs rs') :
      ∀ indexes, rs'.foldl (addKeyIndex e.idFields) indexes =
        rs.foldl (addKeyIndex e.idFields) indexes := by
    induction hrs with
    | nil => exact fun _ => rfl
    | cons hr _ ih =>
      intro indexes
      rw [List.foldl_cons, List.foldl_cons, ih, hr.same]
      rfl
  rw [Entity.tableDef, Entity.tableDef, h.idFields, h.groups, hkeys h.owning]

theorem Entity.Paired.stamps {e e' : Entity} (h : e.Paired R e') : e'.stamps = e.stamps := by
  rw [Entity.stamps, Entity.stamps, h.fields]

end

namespace Schema.Paired
variable {R : String → String → Prop} {s s' : Schema} {tables tables' : Tables}

theorem symm (h : s.Paired R s' tables tables') : s'.Paired (flip R) s tables' tables where
  one := ⟨fun _ _ _ ha hb => h.one.2 ha hb, fun _ _ _ ha hb => h.one.1 ha hb⟩
  named e' e he' he hname := (h.named e e' he he' hname).symm
  there := h.back
  back := h.there
  rows n' n hname y := (h.rows n n' hname y).symm

/-- A relation and its entity, in the other schema. -/
theorem relation (h : s.Paired R s' tables tables') {e : Entity} (he : s.entity? e.name = some e)
    {r : Relation} (hr : r ∈ e.owningRelations) : ∃ e', s'.entity? e'.name = some e' ∧ e.Paired R e' ∧
      ∃ r' ∈ e'.owningRelations, r.Paired R r' := by
  obtain ⟨e', he', hname⟩ := h.there e he
  have hpaired := h.named e e' he he' hname
  exact ⟨e', he', hpaired, exists_of_forall₂_left hpaired.owning hr⟩

/-! What holds of the rows of one schema holds of those of the other. -/

section
variable {n n' m m' : String} {rows : List Row} {row : Row}

theorem doomed (h : s.Paired R s' tables tables') (hn : R n n') (hd : s.Doomed tables n rows m row) :
    ∀ m', R m m' → s'.Doomed tables' n' rows m' row := by
  induction hd with
  | root hrow =>
    intro m' hm
    cases h.one.2 hn hm
    exact .root hrow
  | @cascade e r row parent hparent he hr hcascade hrow hrefers ih =>
    intro m' hm
    obtain ⟨e', he', hpaired, r', hr', hrr⟩ := h.relation he hr
    cases h.one.2 hpaired.name hm
    refine .cascade (ih _ hrr.target) he' hr' ?_ ((h.rows _ _ hm _).1 hrow)
      ((hrr.refers_iff _ _).1 hrefers)
    rw [hrr.same]
    exact hcascade

theorem doomed_iff (h : s.Paired R s' tables tables') (hn : R n n') (hm : R m m') :
    s.Doomed tables n rows m row ↔ s'.Doomed tables' n' rows m' row :=
  ⟨fun hd => h.doomed hn hd m' hm, fun hd => h.symm.doomed hn hd m hm⟩

theorem severed_iff (h : s.Paired R s' tables tables') (hn : R n n') {r r' : Relation}
    (hr : r.Paired R r') :
    s.Severed tables n rows row r ↔ s'.Severed tables' n' rows row r' := by
  have hdo : r'.onDelete = r.onDelete := by rw [hr.same]
  rw [Severed, Severed, hdo]
  refine and_congr_right fun _ => exists_congr fun parent => ?_
  rw [h.doomed_iff hn hr.target, hr.refers_iff]

theorem quiet (h : s.Paired R s' tables tables') (hn : R n n') (hquiet : s.Quiet tables n rows) :
    s'.Quiet tables' n' rows := by
  intro c' hc' r' hr' hdo y hy parent hparent href
  obtain ⟨c, hc, hpaired, r, hr, hrr⟩ := h.symm.relation hc' hr'
  refine hquiet c hc r hr (by rw [hrr.same]; exact hdo) y ((h.doomed_iff hn hpaired.name).2 hy) parent
    ((h.doomed_iff hn hrr.target).2 hparent) ((hrr.refers_iff _ _).1 href)

theorem permits (h : s.Paired R s' tables tables') (hn : R n n') {began began' : Transaction}
    (hopens : ∀ m m', R m m' → began.Opens tables m → began'.Opens tables' m')
    (hpermits : s.Permits tables began n rows) : s'.Permits tables' began' n' rows := by
  refine ⟨fun m z hd => ?_, fun c' hc' r' hr' hdo y hy parent hparent href => ?_⟩
  · obtain ⟨m₀, hm⟩ : ∃ m₀, R m₀ m := by
      cases hd with
      | root _ => exact ⟨n, hn⟩
      | cascade _ hc' _ _ _ _ =>
        obtain ⟨c, -, hname⟩ := h.back _ hc'
        exact ⟨c.name, hname⟩
    have hreaches := hpermits.reaches m₀ z ((h.doomed_iff hn hm).2 hd)
    refine ⟨hopens _ _ hm hreaches.own, fun c' hc' r' hr' htarget hact => ?_⟩
    obtain ⟨c, hc, hpaired, r, hr, hrr⟩ := h.symm.relation hc' hr'
    have hleads : r.target = m₀ := h.one.1 (htarget ▸ hrr.target) hm
    exact hopens _ _ hpaired.name (hreaches.dependents c hc r hr hleads (by rw [hrr.same]; exact hact))
  · obtain ⟨c, hc, hpaired, r, hr, hrr⟩ := h.symm.relation hc' hr'
    exact hpermits.free c hc r hr (by rw [hrr.same]; exact hdo) y ((h.rows _ _ hpaired.name y).2 hy) parent
      ((h.doomed_iff hn hrr.target).2 hparent) ((hrr.refers_iff _ _).1 href)

end

/-! What holds of one schema holds of the other. -/

section
variable (h : s.Paired R s' tables tables') (hs' : s'.Resolved)
include h hs'

theorem mem_values {e' : Entity} (he' : e' ∈ s'.entities.values) :
    ∃ e, s.entity? e.name = some e ∧ s'.entity? e'.name = some e' ∧ e.Paired R e' := by
  obtain ⟨n', hn'⟩ := hs'.ordered.mem_values_iff.1 he'
  have he' : s'.entity? e'.name = some e' := by rw [hs'.name hn']; exact hn'
  obtain ⟨e, he, hname⟩ := h.back e' he'
  exact ⟨e, he, he', h.named e e' he he' hname⟩

/-- The entity that a relation leads to, in both schemas. -/
theorem target {r r' : Relation} (hr : r.Paired R r') {t' : Entity}
    (ht' : s'.entity? r'.target = some t') : ∃ t, s.entity? r.target = some t ∧ t.Paired R t' := by
  have hname := hs'.name ht'
  have ht' : s'.entity? t'.name = some t' := by rw [hname]; exact ht'
  obtain ⟨t, ht, hpair⟩ := h.back t' ht'
  have hleads : t.name = r.target := h.one.1 hpair (hname ▸ hr.target)
  exact ⟨t, hleads ▸ ht, h.named t t' ht ht' hpair⟩

variable (hs : s.Resolved)
include hs

theorem separate (hsep : s.Separate) : s'.Separate where
  references e' he' r' hr' t' ht' := by
    obtain ⟨e, he, -, hpaired⟩ := h.mem_values hs' he'
    obtain ⟨r, hr, hrr⟩ := exists_of_forall₂_right hpaired.owning hr'
    obtain ⟨t, ht, htpaired⟩ := h.target hs' hrr ht'
    rw [htpaired.idFields, hrr.same]
    exact hsep.references e (hs.mem_values he) r hr t ht
  apart e' he' r₁' hr₁' r₂' hr₂' f hf₁ hf₂ := by
    obtain ⟨e, he, -, hpaired⟩ := h.mem_values hs' he'
    obtain ⟨r₁, hr₁, hrr₁⟩ := exists_of_forall₂_right hpaired.owning hr₁'
    obtain ⟨r₂, hr₂, hrr₂⟩ := exists_of_forall₂_right hpaired.owning hr₂'
    rw [hrr₁.same] at hf₁
    rw [hrr₂.same] at hf₂
    cases hsep.apart e (hs.mem_values he) r₁ hr₁ r₂ hr₂ f hf₁ hf₂
    rw [hrr₁.same, hrr₂.same, h.one.2 hrr₁.target hrr₂.target]
  stamps e' he' f hf hupdated := by
    obtain ⟨e, he, -, hpaired⟩ := h.mem_values hs' he'
    obtain ⟨hid, hplain⟩ := hsep.stamps e (hs.mem_values he) f (hpaired.fields ▸ hf) hupdated
    refine ⟨hid, fun r' hr' => ?_⟩
    obtain ⟨r, hr, hrr⟩ := exists_of_forall₂_right hpaired.owning hr'
    rw [hrr.same]
    exact hplain r hr
  indexes e' he' := by
    obtain ⟨e, he, -, hpaired⟩ := h.mem_values hs' he'
    rw [hpaired.tableDef]
    exact hsep.indexes e (hs.mem_values he)

theorem keysOfKinds (hkinds : s.KeysOfKinds) : s'.KeysOfKinds := by
  intro e' he' r' hr' t' ht' p hp
  obtain ⟨e, he, -, hpaired⟩ := h.mem_values hs' he'
  obtain ⟨r, hr, hrr⟩ := exists_of_forall₂_right hpaired.owning hr'
  obtain ⟨t, ht, htpaired⟩ := h.target hs' hrr ht'
  rw [hrr.same] at hp
  rw [Entity.field?, Entity.field?, hpaired.fields, htpaired.fields]
  exact hkinds e (hs.mem_values he) r hr t ht p hp

theorem unstamped (hplain : s.Unstamped) : s'.Unstamped := by
  intro e' he'
  obtain ⟨e, he, -, hpaired⟩ := h.mem_values hs' he'
  rw [hpaired.groups, hpaired.fields]
  exact hplain e (hs.mem_values he)

end

end Schema.Paired

/-! ### Definitions with other names -/

namespace EntityDef
variable {ρ : String → String} {all all' : List EntityDef} {d : EntityDef} {e e' : Entity}

@[simp] theorem memberNames_rename : (d.rename ρ).memberNames = d.memberNames := by
  simp [memberNames, rename, RelationDef.rename, Function.comp_def]

theorem addGroups_rename {groups declared result result' : List (List String)}
    (h : d.addGroups groups declared = .ok result)
    (h' : (d.rename ρ).addGroups groups declared = .ok result') : result' = result := by
  induction declared generalizing groups with
  | nil =>
    cases h
    cases h'
    rfl
  | cons group rest ih =>
    rw [addGroups] at h
    rw [addGroups, memberNames_rename] at h'
    cases hfind : group.find? fun f => !d.memberNames.contains f with
    | some unknown =>
      rw [hfind] at h
      cases h
    | none =>
      simp only [hfind] at h h'
      exact ih h h'

/-- The owning relations of an entity are as they are declared. -/
theorem owning_of_resolve (h : d.resolve all = .ok e) :
    e.owningRelations = (d.relations.filter RelationDef.isOwning).map RelationDef.owner := by
  obtain ⟨-, -, -, hrelations, -⟩ := resolve_ok h
  rw [Entity.owningRelations]
  generalize d.relations = declared at hrelations
  generalize e.relations = resolved at hrelations
  induction hrelations with
  | nil => rfl
  | @cons rd r _ _ hr _ ih =>
    have howning := (target_of_resolveRelation hr).2
    cases hown : rd.isOwning with
    | false =>
      rw [hown] at howning
      rw [List.filter_cons_of_neg (by rw [howning]; exact Bool.false_ne_true),
        List.filter_cons_of_neg (by rw [hown]; exact Bool.false_ne_true), ih]
    | true =>
      rw [hown] at howning
      obtain ⟨target, -, -, hform, -⟩ := resolveRelation_ok hr
      rw [List.filter_cons_of_pos howning, List.filter_cons_of_pos hown, List.map_cons, ih,
        (resolveOwning_ok (hform hown)).1]
      rfl

/-- With other names a definition makes the same entity with other names. -/
theorem paired_of_resolve (h : d.resolve all = .ok e) (h' : (d.rename ρ).resolve all' = .ok e') :
    e.Paired (fun n n' => ρ n = n') e' := by
  have howning := owning_of_resolve h
  have howning' := owning_of_resolve h'
  obtain ⟨-, -, ⟨groups, hgroups, hequal⟩, -, hname, hfields, hid⟩ := resolve_ok h
  obtain ⟨-, -, ⟨groups', hgroups', hequal'⟩, -, hname', hfields', hid'⟩ := resolve_ok h'
  refine ⟨?_, hfields'.trans hfields.symm, hid'.trans hid.symm, ?_, ?_⟩
  · rw [hname, hname']
    rfl
  · rw [hequal, hequal']
    exact addGroups_rename hgroups hgroups'
  · rw [howning, howning']
    show List.Forall₂ _ _ (((d.relations.map (·.rename ρ)).filter RelationDef.isOwning).map _)
    rw [List.filter_map, List.map_map, List.forall₂_map_left_iff, List.forall₂_map_right_iff]
    exact List.forall₂_same.2 fun rd _ => ⟨rfl, rfl⟩

end EntityDef

namespace Schema
variable {ρ : String → String} {defs : List EntityDef} {s s' : Schema}

/-- The schemas of definitions with other names, and states with the same rows. -/
theorem Paired.ofDefs (hρ : Function.Injective ρ) (hs : Schema.ofDefs defs = .ok s)
    (hs' : Schema.ofDefs (defs.map (·.rename ρ)) = .ok s') {w w' : Work} (hnow : w.Renames ρ w') :
    s.Paired (fun n n' => ρ n = n') s' w.tables w'.tables where
  one := ⟨fun _ _ _ ha hb => hρ (ha.trans hb.symm), fun _ _ _ ha hb => ha.symm.trans hb⟩
  named e e' he he' hname := by
    obtain ⟨d, hd, hdname, e₀, hde, heq⟩ := resolve_of_entity hs he
    obtain ⟨d', hd', hdname', e₀', hde', heq'⟩ := resolve_of_entity hs' he'
    obtain ⟨d₁, hd₁, rfl⟩ := List.mem_map.1 hd'
    have hsame : d₁ = d := by
      refine List.inj_on_of_nodup_map (nodup_ofDefs hs) hd₁ hd (hρ ?_)
      rw [hdname, hname]
      exact hdname'
    cases hsame
    have hpaired := EntityDef.paired_of_resolve hde hde'
    rw [heq, heq']
    exact ⟨hpaired.name, hpaired.fields, hpaired.idFields, hpaired.groups, hpaired.owning⟩
  there e he := by
    obtain ⟨d, hd, hname, -⟩ := resolve_of_entity hs he
    obtain ⟨-, e', -, he', -⟩ := exists_entity_ofDefs hs' (List.mem_map_of_mem hd)
    have hname' : e'.name = ρ d.name := (entity_ofDefs hs' he').1
    refine ⟨e', by rw [hname']; exact he', ?_⟩
    rw [hname', hname]
  back e' he' := by
    obtain ⟨d', hd', hname', -⟩ := resolve_of_entity hs' he'
    obtain ⟨d, hd, rfl⟩ := List.mem_map.1 hd'
    obtain ⟨-, e, -, he, -⟩ := exists_entity_ofDefs hs hd
    have hname : e.name = d.name := (entity_ofDefs hs he).1
    refine ⟨e, by rw [hname]; exact he, ?_⟩
    rw [hname]
    exact hname'
  rows n n' hname y := by
    subst hname
    rw [Tables.Has, Tables.Has, hnow.tables]
    constructor
    · intro h
      obtain ⟨t, ht, hrow⟩ := h
      exact ⟨t.rename (ρ n), by rw [ht]; rfl, hrow⟩
    · intro h
      obtain ⟨t', ht', hrow⟩ := h
      obtain ⟨t, ht, rfl⟩ := Option.map_eq_some_iff.1 ht'
      exact ⟨t, ht, hrow⟩

end Schema

/-! ### States with other names -/

theorem Table.Proper.rename {κ : String → NumberClass} {t : Table} (h : t.Proper κ) (n : String) :
    (t.rename n).Proper κ where
  rows := h.rows
  stored := h.stored
  nonnull := h.nonnull
  fits := h.fits
  indexes := h.indexes
  definitions := h.definitions
  within := h.within

namespace Work.Renames
variable {ρ : String → String} {s s' : Schema} {κ : String → String → NumberClass} {w w' : Work}

theorem found (h : w.Renames ρ w') {n' : String} {t' : Table} (ht' : w'.tables.get? n' = some t') :
    ∃ n t, ρ n = n' ∧ w.tables.get? n = some t ∧ t' = t.rename n' := by
  obtain ⟨n, rfl⟩ := h.known n' (by rw [ht']; rfl)
  rw [h.tables] at ht'
  obtain ⟨t, ht, rfl⟩ := Option.map_eq_some_iff.1 ht'
  exact ⟨n, t, rfl, ht, rfl⟩

theorem unique (h : w.Renames ρ w') (hunique : w.tables.Unique) : w'.tables.Unique := by
  intro n' t' ht'
  obtain ⟨n, t, -, ht, rfl⟩ := h.found ht'
  exact hunique n t ht

theorem opens_iff (h : w.Renames ρ w') (n : String) :
    w'.transaction.Opens w'.tables (ρ n) ↔ w.transaction.Opens w.tables n := by
  rw [Transaction.Opens, Transaction.Opens, Transaction.Reads, Transaction.Reads, h.active, h.mode,
    h.scope, h.tables, Option.isSome_map]

/-- Each table keeps the classes of its columns under its new name. -/
theorem holds (h : w.Renames ρ w') (hρ : Function.Injective ρ)
    (hpaired : s.Paired (fun n n' => ρ n = n') s' w.tables w'.tables) (hholds : s.Holds κ w.tables) :
    s'.Holds (κ ∘ Function.invFun ρ) w'.tables := by
  have hback (n : String) : Function.invFun ρ (ρ n) = n := Function.leftInverse_invFun hρ n
  have hentity {e' : Entity} (he' : s'.entity? e'.name = some e') :
      ∃ e, s.entity? e.name = some e ∧ e.Paired (fun n n' => ρ n = n') e' := by
    obtain ⟨e, he, hname⟩ := hpaired.back e' he'
    exact ⟨e, he, hpaired.named e e' he he' hname⟩
  refine ⟨fun e' he' => ?_, ⟨fun ht' => ?_, fun ht' => ?_⟩, fun e' t' he' ht' => ?_⟩
  · obtain ⟨e, he, hsame⟩ := hentity he'
    rw [Function.comp_apply, ← hsame.name, hback, hholds.classes e he, hsame.name]
    funext column
    rw [Schema.classes, Schema.classes, he, he', Option.bind_some, Option.bind_some, Entity.field?,
      Entity.field?, hsame.fields]
  · obtain ⟨n, t, -, -, rfl⟩ := h.found ht'
    rfl
  · obtain ⟨n, t, rfl, ht, rfl⟩ := h.found ht'
    rw [Function.comp_apply, hback]
    exact (hholds.proper.proper ht).rename _
  · obtain ⟨e, he, hsame⟩ := hentity he'
    obtain ⟨n, t, hname, ht, rfl⟩ := h.found ht'
    rw [← hsame.name] at hname
    rw [hρ hname] at ht
    rw [hsame.tableDef, ← hholds.definition e t he ht]
    rfl

end Work.Renames

/-! ### Rows that are left -/

theorem Schema.Doomed.has {s : Schema} {tables : Tables} {n m : String} {rows : List Row} {row : Row}
    (h : s.Doomed tables n rows m row) (hrows : ∀ row ∈ rows, tables.Has n row) : tables.Has m row := by
  cases h with
  | root hrow => exact hrows _ hrow
  | cascade _ _ _ _ hrow _ => exact hrow

namespace Schema.Deletion
variable {s : Schema} {κ : String → String → NumberClass} {tables after : Tables} {n : String}
  {rows : List Row} {e : Entity} {y : Row} (h : s.Deletion tables n rows after)
  (hafter : s.Holds κ after) (he : s.entity? e.name = some e)
include h hafter he

/-- Each row that is left is what is left of one from before. -/
theorem source (hy : after.Has e.name y) : ∃ x, tables.Has e.name x ∧
    ¬ s.Doomed tables n rows e.name x ∧ e.keyOf y = e.keyOf x ∧
      e.Cleared (s.Severed tables n rows x) x y := by
  obtain ⟨x, hx, hstays, hkey⟩ := h.known e he y hy
  obtain ⟨y', hy', hkey', hcleared⟩ := h.kept e he x hx hstays
  cases hafter.eq_of_keyOf he hy hy' (by rw [hkey, hkey']; exact Std.ReflOrd.compare_self)
  exact ⟨x, hx, hstays, hkey, hcleared⟩

/-- A row is left as it is if it neither goes nor has a key that is cleared. -/
theorem stays_iff (hs : s.Resolved) (hsep : s.Separate) (hholds : s.Holds κ tables)
    (hrows : ∀ row ∈ rows, tables.Has n row) (hy : tables.Has e.name y) :
    after.Has e.name y ↔ ¬ s.Doomed tables n rows e.name y ∧
      ∀ r ∈ e.owningRelations, ¬ s.Severed tables n rows y r := by
  constructor
  · intro hleft
    obtain ⟨x, hx, hstays, hkey, hcleared⟩ := h.source hafter he hleft
    cases hholds.eq_of_keyOf he hy hx (by rw [hkey]; exact Std.ReflOrd.compare_self)
    refine ⟨hstays, fun r hr hsevered => ?_⟩
    have hnull := hcleared.near_null hs he hr hsevered
    obtain ⟨-, parent, hparent, href⟩ := hsevered
    obtain ⟨t, ht⟩ := hs.target he r (List.mem_filter.1 hr).1
    have htname := hs.name ht
    -- The key of the row is that of another one, so it has no null in it.
    have hfar : Key.ofRow r.far parent = t.keyOf parent := by
      rw [hsep.references e (hs.mem_values he) r hr t ht]
      rfl
    rw [Relation.Refers, hfar] at href
    rw [Key.hasNull_eq_of_compare href, hholds.keyOf_nonnull (by rw [htname, ht])
      (by rw [htname]; exact hparent.has hrows)] at hnull
    cases hnull
  · intro hkept
    obtain ⟨hstays, hwhole⟩ := hkept
    obtain ⟨y', hy', -, hcleared⟩ := h.kept e he y hy hstays
    rw [hcleared.whole hwhole] at hy'
    exact hy'

end Schema.Deletion

/-! ### Deletions under other names -/

/-- The tables of one state are those of another one under other names of the entities, but for the
times of the last write of rows that were not there at first. -/
structure Schema.Matches (s : Schema) (ρ : String → String) (first tables tables' : Tables) : Prop where
  left : ∀ e, s.entity? e.name = some e → ∀ y, tables.Has e.name y →
    ∃ y', tables'.Has (ρ e.name) y' ∧ ∀ f, f ∉ e.stamps → y'.get? f = y.get? f
  right : ∀ e, s.entity? e.name = some e → ∀ y', tables'.Has (ρ e.name) y' →
    ∃ y, tables.Has e.name y ∧ ∀ f, f ∉ e.stamps → y'.get? f = y.get? f
  same : ∀ e, s.entity? e.name = some e → ∀ y, first.Has e.name y →
    (tables.Has e.name y ↔ tables'.Has (ρ e.name) y)
  others : ∀ n, s.entity? n = none → tables'.get? (ρ n) = (tables.get? n).map (·.rename (ρ n))

namespace Schema.Paired
variable {R : String → String → Prop} {s s' : Schema} {κ κ' : String → String → NumberClass}
  {tables tables' after after' : Tables} {n n' : String} {rows : List Row} {e e' : Entity} {y : Row}

/-- No key of the row is cleared in the other either. -/
theorem whole (h : s.Paired R s' tables tables') (hn : R n n') (hpaired : e.Paired R e')
    (hwhole : ∀ r ∈ e.owningRelations, ¬ s.Severed tables n rows y r) :
    ∀ r' ∈ e'.owningRelations, ¬ s'.Severed tables' n' rows y r' := by
  intro r' hr' hsevered
  obtain ⟨r, hr, hrr⟩ := exists_of_forall₂_right hpaired.owning hr'
  exact hwhole r hr ((h.severed_iff hn hrr).2 hsevered)

/-- What is left of a row has the same in both, but for the times of the last write. -/
theorem left (h : s.Paired R s' tables tables') (hn : R n n') (hafter : s.Holds κ after)
    (hd : s.Deletion tables n rows after) (hd' : s'.Deletion tables' n' rows after')
    (he : s.entity? e.name = some e) (he' : s'.entity? e'.name = some e') (hname : R e.name e'.name)
    (hy : after.Has e.name y) :
    ∃ y', after'.Has e'.name y' ∧ ∀ f, f ∉ e.stamps → y'.get? f = y.get? f := by
  have hpaired := h.named e e' he he' hname
  obtain ⟨x, hx, hstays, -, hcleared⟩ := hd.source hafter he hy
  obtain ⟨y', hy', -, hcleared'⟩ := hd'.kept e' he' x ((h.rows _ _ hname x).1 hx) fun hgoes =>
    hstays ((h.doomed_iff hn hname).2 hgoes)
  refine ⟨y', hy', fun f hf => ?_⟩
  have hplain : ∀ g ∈ e.fields, g.updatedAt = true → g.name ≠ f := fun g hg hupdated hname =>
    hf (List.mem_map.2 ⟨g, List.mem_filter.2 ⟨hg, hupdated⟩, hname⟩)
  by_cases hcut : ∃ r ∈ e.owningRelations, s.Severed tables n rows x r ∧ f ∈ r.near
  · obtain ⟨r, hr, hsevered, hnear⟩ := hcut
    obtain ⟨r', hr', hrr⟩ := exists_of_forall₂_left hpaired.owning hr
    rw [hcleared.null r hr hsevered f hnear]
    exact hcleared'.null r' hr' ((h.severed_iff hn hrr).1 hsevered) f (by rw [hrr.same]; exact hnear)
  · rw [hcleared.same f hplain fun r hr hsevered hnear => hcut ⟨r, hr, hsevered, hnear⟩]
    refine hcleared'.same f (by rw [hpaired.fields]; exact hplain) fun r' hr' hsevered hnear => ?_
    obtain ⟨r, hr, hrr⟩ := exists_of_forall₂_right hpaired.owning hr'
    rw [hrr.same] at hnear
    exact hcut ⟨r, hr, (h.severed_iff hn hrr).2 hsevered, hnear⟩

end Schema.Paired

namespace Schema
open Operation

/-- Whether a row can be deleted, and which rows are then left with which values, does not depend on
how entities are named: in a schema whose keys reference primary keys of their kinds and share no fields,
rows are deleted in one state if and only if they are in the other, and those that are left are the same,
but for the times at which a key is cleared. Where a row that goes forbids another one to go, only the
latter is so (`Client.delete_follows_names`). -/
theorem delete_renamed {defs : List EntityDef} {ρ : String → String} (hρ : Function.Injective ρ)
    {s s' : Schema} (hs : ofDefs defs = .ok s) (hs' : ofDefs (defs.map (·.rename ρ)) = .ok s')
    (hsep : s.Separate) (hkinds : s.KeysOfKinds) {κ : String → String → NumberClass} {w w' : Work}
    (hholds : s.Holds κ w.tables) (hunique : w.tables.Unique) (hnow : w.Renames ρ w')
    (hfresh : w.deleting = []) (hfresh' : w'.deleting = []) {e e' : Entity}
    (he : s.entity? e.name = some e) (he' : s'.entity? (ρ e.name) = some e') {x : Row}
    (hx : w.tables.Has e.name x) :
    (s.Unstamped → s.Quiet w.tables e.name [x] →
      ((∃ w₁, (delete s e x).run w = .ok () w₁) ↔ ∃ w₁, (delete s' e' x).run w' = .ok () w₁)) ∧
    ∀ w₁ w₁', (delete s e x).run w = .ok () w₁ → (delete s' e' x).run w' = .ok () w₁' →
      s.Matches ρ w.tables w₁.tables w₁'.tables := by
  have hr := Resolved.ofDefs hs
  have hr' := Resolved.ofDefs hs'
  have hpaired := Paired.ofDefs hρ hs hs' hnow
  have hname := hr'.name he'
  rw [← hname] at he'
  have hn : ρ e.name = e'.name := hname.symm
  have hsep' := hpaired.separate hr' hr hsep
  have hkinds' := hpaired.keysOfKinds hr' hr hkinds
  have hholds' := hnow.holds hρ hpaired hholds
  have hx' : w'.tables.Has e'.name x := (hpaired.rows _ _ hn x).1 hx
  constructor
  · intro hplain hquiet
    have hopens (m m' : String) (hm : ρ m = m') :
        w.transaction.Opens w.tables m ↔ w'.transaction.Opens w'.tables m' := by
      rw [← hm, hnow.opens_iff]
    rw [delete_ok_iff hr hsep hkinds hholds hfresh he hx hplain hunique hquiet,
      delete_ok_iff hr' hsep' hkinds' hholds' hfresh' he' hx' (hpaired.unstamped hr' hr hplain)
        (hnow.unique hunique) (hpaired.quiet hn hquiet)]
    exact ⟨hpaired.permits hn fun m m' hm => (hopens m m' hm).1,
      hpaired.symm.permits hn fun m' m hm => (hopens m m' hm).2⟩
  · intro w₁ w₁' hrun hrun'
    have hends := ends_deletion hr hsep hkinds hholds hfresh he hx w rfl
    have hends' := ends_deletion hr' hsep' hkinds' hholds' hfresh' he' hx' w' rfl
    rw [hrun] at hends
    rw [hrun'] at hends'
    obtain ⟨hd, hafter, -⟩ := hends
    obtain ⟨hd', hafter', -⟩ := hends'
    refine ⟨fun c hc y hy => ?_, fun c hc y' hy' => ?_, fun c hc y hy => ?_, fun m hm => ?_⟩
    · obtain ⟨c', hc', hcname⟩ := hpaired.there c hc
      obtain ⟨y', hy', hsame⟩ := hpaired.left hn hafter hd hd' hc hc' hcname hy
      exact ⟨y', hcname ▸ hy', hsame⟩
    · obtain ⟨c', hc', hcname⟩ := hpaired.there c hc
      rw [hcname] at hy'
      obtain ⟨y, hy, hsame⟩ := hpaired.symm.left hn hafter' hd' hd hc' hc hcname hy'
      refine ⟨y, hy, fun f hf => (hsame f ?_).symm⟩
      rwa [(hpaired.named c c' hc hc' hcname).stamps]
    · obtain ⟨c', hc', hcname⟩ := hpaired.there c hc
      have hcc := hpaired.named c c' hc hc' hcname
      rw [hcname, hd.stays_iff hafter hc hr hsep hholds (by simpa using hx) hy,
        hd'.stays_iff hafter' hc' hr' hsep' hholds' (by simpa using hx') ((hpaired.rows _ _ hcname y).1 hy),
        hpaired.doomed_iff hn hcname]
      exact and_congr_right fun _ => ⟨hpaired.whole hn hcc, hpaired.symm.whole hn hcc.symm⟩
    · rw [hd.others m hm, hd'.others (ρ m) ?_, hnow.tables]
      refine Option.eq_none_iff_forall_ne_some.2 fun c' hc' => ?_
      have hcname := hr'.name hc'
      rw [← hcname] at hc'
      obtain ⟨c, hc, hback⟩ := hpaired.back c' hc'
      rw [hρ (hback.trans hcname), hm] at hc
      cases hc

end Schema

/-! ### Accounts, their branches, and cards -/

/-- Cards go with their branch, and an account with cards does not go. -/
def EntityDef.bank : List EntityDef :=
  [{ name := "account", fields := [{ name := "id", kind := .int, id := true }] },
   { name := "branch",
     fields := [{ name := "id", kind := .int, id := true }, { name := "accountId", kind := .int }],
     relations := [{ RelationDef.owning "account" "account" ["accountId"] ["id"] with
       onDelete := .cascade }] },
   { name := "card",
     fields := [{ name := "id", kind := .int, id := true }, { name := "accountId", kind := .int },
       { name := "branchId", kind := .int }],
     relations := [
       { RelationDef.owning "account" "account" ["accountId"] ["id"] with onDelete := .restrict },
       { RelationDef.owning "branch" "branch" ["branchId"] ["id"] with onDelete := .cascade }] }]

/-- Branches have a name that comes after that of cards. -/
def EntityDef.relocate : String → String := Equiv.swap "branch" "voucher"

theorem EntityDef.relocate_injective : Function.Injective relocate :=
  (Equiv.swap "branch" "voucher").injective

namespace Client
open Operation

/-- Two accounts, a branch of the first, and a card of it that belongs to an account. -/
def enrol (account : Int) : List Action :=
  [.ask "account" (.create (.ofFields [("id", .int 1)])) none,
   .ask "account" (.create (.ofFields [("id", .int 2)])) none,
   .ask "branch" (.create (.ofFields [("id", .int 1), ("accountId", .int 1)])) none,
   .ask "card" (.create (.ofFields [("id", .int 1), ("accountId", .int account),
     ("branchId", .int 1)])) none]

/-- A transaction over all tables of a client. -/
def hold (c : Client) : Work where
  tables := c.store.tables
  transaction := { id := 0, mode := .readWrite, scope := c.store.tables.keys }
  supply := c.supply

/-- The rows of each table, by their numbers. -/
def listing (w : Work) : List (String × String) :=
  w.tables.entries.flatMap fun p => p.2.toList.map fun row => (p.1, (row.value "id").text)

/-- What is found of a bank, its relocated schema and one of its accounts by running it. -/
theorem exists_enrolled (account : Int) {P : Schema → Schema → Work → Entity → Entity → Row → Bool}
    (h : (openMemory EntityDef.bank).toOption.any fun c₀ =>
      let w := ((enrol account).foldl after c₀).hold
      c₀.schema.Separate ∧ c₀.schema.KeysOfKinds ∧ c₀.schema.Unstamped ∧
        (w.tables.entries.Pairwise fun p q => compare p.1 q.1 = .lt) ∧
        (Schema.ofDefs (EntityDef.bank.map (·.rename EntityDef.relocate))).toOption.any fun s' =>
          (c₀.schema.entity? "account").any fun e => (s'.entity? "account").any fun e' =>
            ((w.tables.get? "account").elim [] Table.toList).any fun x => P c₀.schema s' w e e' x) :
    ∃ s s' w e e' x, Schema.ofDefs EntityDef.bank = .ok s ∧
      Schema.ofDefs (EntityDef.bank.map (·.rename EntityDef.relocate)) = .ok s' ∧
      s.Separate ∧ s.KeysOfKinds ∧ s.Unstamped ∧ s.Holds s.classes w.tables ∧ w.tables.Unique ∧
      w.Renames EntityDef.relocate (w.rename EntityDef.relocate) ∧ w.deleting = [] ∧
      e.name = "account" ∧ s.entity? "account" = some e ∧ s'.entity? "account" = some e' ∧
      w.tables.Has "account" x ∧ P s s' w e e' x := by
  obtain ⟨c₀, hs, hc₀, hholds, hsep, hkinds, hplain, hsorted, hfound⟩ := exists_openMemory h
  obtain ⟨s', hs', hfound⟩ := (Option.any_eq_true _ _).1 hfound
  obtain ⟨e, he, hfound⟩ := (Option.any_eq_true _ _).1 hfound
  obtain ⟨e', he', hfound⟩ := (Option.any_eq_true _ _).1 hfound
  obtain ⟨x, hx, hfound⟩ := List.any_eq_true.1 hfound
  have hresolved := Schema.Resolved.ofDefs hs
  have hregular : ∀ a ∈ enrol account, a.Regular c₀.schema.classes c₀.store.tables := by
    intro a ha
    obtain rfl | rfl | rfl | rfl : a = _ ∨ a = _ ∨ a = _ ∨ a = _ := by simpa [enrol] using ha
    all_goals exact ⟨_, .inl .create⟩
  have hhas : ((enrol account).foldl after c₀).store.tables.Has "account" x := by
    cases ht : ((enrol account).foldl after c₀).store.tables.get? "account" with
    | none => simp [hold, ht] at hx
    | some t => exact ⟨t, ht, by simpa [hold, ht] using hx⟩
  refine ⟨c₀.schema, s', ((enrol account).foldl after c₀).hold, e, e', x, hs, Except.toOption_eq_some.1 hs',
    hsep, hkinds, hplain, (holds_foldl hresolved hkinds hc₀ hholds hregular).2,
    unique_foldl hresolved hkinds hc₀ hholds hregular,
    Work.renames_rename EntityDef.relocate_injective ⟨hsorted, fun _ _ => trivial⟩, rfl,
    hresolved.name he, he, he', hhas, hfound⟩

/-- The first account goes under either name of its branch, and with it the card of the second one. -/
theorem delete_renamed_enrolled : ∃ s s' : Schema, Schema.ofDefs EntityDef.bank = .ok s ∧
    Schema.ofDefs (EntityDef.bank.map (·.rename EntityDef.relocate)) = .ok s' ∧
      ∃ w e e' x w₁ w₁', s.entity? "account" = some e ∧ s'.entity? "account" = some e' ∧
        w.tables.Has "account" x ∧ (x.value "id").text = "1" ∧ s.Quiet w.tables "account" [x] ∧
          (delete s e x).run w = .ok () w₁ ∧
            (delete s' e' x).run (w.rename EntityDef.relocate) = .ok () w₁' ∧
              listing w₁ = [("account", "2")] ∧
                s.Matches EntityDef.relocate w.tables w₁.tables w₁'.tables := by
  obtain ⟨s, s', w, e, e', x, hs, hs', hsep, hkinds, hplain, hholds, hunique, hnow, hfresh, hname, he, he',
    hx, hfound⟩ := exists_enrolled 2 (P := fun s _ w e _ x =>
      (x.value "id").text = "1" &&
      decide (∀ r ∈ e.owningRelations, r.onDelete ≠ .cascade) &&
      decide (∀ c ∈ s.entities.values, ∀ r ∈ c.owningRelations, r.onDelete = .restrict →
        r.target = "account" ∧ ∀ y ∈ (w.tables.get? c.name).elim [] Table.toList,
          compare (Key.ofRow r.near y) (Key.ofRow r.far x) ≠ .eq) &&
      match (delete s e x).run w with
        | .ok _ w₁ => listing w₁ = [("account", "2")]
        | .error _ _ => false) (by decide +kernel)
  simp only [Bool.and_eq_true, decide_eq_true_eq] at hfound
  obtain ⟨⟨⟨hid, hends⟩, hfree⟩, hleft⟩ := hfound
  -- No relation of an account cascades, so the account is the only one that goes.
  have hsole {m : String} {parent : Row} (hd : s.Doomed w.tables "account" [x] m parent)
      (hm : m = "account") : parent = x := by
    cases hd with
    | root hmem => exact List.mem_singleton.1 hmem
    | cascade _ hc hr hcascade _ _ =>
      rw [hm, he] at hc
      cases hc
      exact absurd hcascade (hends _ hr)
  have hquiet : s.Quiet w.tables "account" [x] := by
    intro c hc r hr hdo y hy parent hparent href
    obtain ⟨htarget, hfree⟩ := hfree c ((Schema.Resolved.ofDefs hs).mem_values hc) r hr hdo
    cases hsole hparent htarget
    obtain ⟨t, ht, hrow⟩ := hy.has (by simpa using hx)
    refine hfree y ?_ href
    rw [ht]
    exact hrow
  obtain ⟨w₁, hrun, hlisting⟩ : ∃ w₁, (delete s e x).run w = .ok () w₁ ∧
      listing w₁ = [("account", "2")] := by
    split at hleft
    · next hrun => exact ⟨_, hrun, of_decide_eq_true hleft⟩
    · cases hleft
  have hkept : EntityDef.relocate e.name = "account" := by
    rw [hname]
    decide
  obtain ⟨hiff, hmatches⟩ := Schema.delete_renamed EntityDef.relocate_injective hs hs' hsep hkinds hholds
    hunique hnow hfresh (by rw [Work.rename, hfresh]; rfl) (by rw [hname]; exact he)
    (by rw [hkept]; exact he') (by rw [hname]; exact hx)
  obtain ⟨w₁', hrun'⟩ := (hiff hplain (by rw [hname]; exact hquiet)).1 ⟨w₁, hrun⟩
  exact ⟨s, s', hs, hs', w, e, e', x, w₁, w₁', he, he', hx, hid, hquiet, hrun, hrun', hlisting,
    hmatches w₁ w₁' hrun hrun'⟩

/-- Where cards come before branches, that an account has a card is seen before its branches have gone,
and with them the card. -/
theorem delete_follows_names : ∃ s s' : Schema, Schema.ofDefs EntityDef.bank = .ok s ∧
    Schema.ofDefs (EntityDef.bank.map (·.rename EntityDef.relocate)) = .ok s' ∧
      s.Separate ∧ s.KeysOfKinds ∧ s.Unstamped ∧
      ∃ w w' : Work, s.Holds s.classes w.tables ∧ w.tables.Unique ∧ w.Renames EntityDef.relocate w' ∧
        w.deleting = [] ∧ w'.deleting = [] ∧
        ∃ e e' x, s.entity? "account" = some e ∧ s'.entity? "account" = some e' ∧
          w.tables.Has "account" x ∧ (∃ w₁, (delete s e x).run w = .ok () w₁) ∧
            ∃ w₁, (delete s' e' x).run w' =
              .error (.restrictViolation "account" "card" "account") w₁ := by
  obtain ⟨s, s', w, e, e', x, hs, hs', hsep, hkinds, hplain, hholds, hunique, hnow, hfresh, -, he, he', hx,
    hfound⟩ := exists_enrolled 1 (P := fun s s' w e e' x =>
      match (delete s e x).run w, (delete s' e' x).run (w.rename EntityDef.relocate) with
        | .ok _ _, .error err _ =>
          match err with
          | .restrictViolation n m r => decide (n = "account" ∧ m = "card" ∧ r = "account")
          | _ => false
        | .ok _ _, .ok _ _ => false
        | .error _ _, .ok _ _ => false
        | .error _ _, .error _ _ => false) (by decide +kernel)
  refine ⟨s, s', hs, hs', hsep, hkinds, hplain, w, _, hholds, hunique, hnow, hfresh, ?_, e, e', x, he, he',
    hx, ?_⟩
  · rw [Work.rename, hfresh]
    rfl
  · split at hfound
    · next hrun hrun' =>
      split at hfound
      · obtain ⟨rfl, rfl, rfl⟩ := of_decide_eq_true hfound
        exact ⟨⟨_, hrun⟩, _, hrun'⟩
      · cases hfound
    · cases hfound
    · cases hfound
    · cases hfound

end Client

end RelationalStore

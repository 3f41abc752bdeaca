import RelationalStore.Proofs.UniqueGroups

/- What a schema promises (`Schema.Linked`), which requests rely on without looking again: an entity
   has the fields, keys and relations that its definition declares; an owning relation references
   the primary key or a unique group of its target; any other one is the other end of exactly one
   owning relation; an entity knows each relation that references it, once.

   Definitions are resolved one by one, and each looks its targets up by their names in all of them.
   Names are not repeated, so the look does not depend on the order (`find?_perm`), and entities end
   up in the order of their names. So definitions in any order make the same schema, or none
   (`Schema.ofDefs_perm`). -/
namespace RelationalStore
open SortedMap

/-! ### Any order of definitions -/

/-- Elements with names of their own are found wherever they stand. -/
theorem find?_perm {α : Type} {name : α → String} {xs ys : List α} (h : xs.Perm ys)
    (hnodup : (xs.map name).Nodup) (n : String) :
    xs.find? (name · == n) = ys.find? (name · == n) := by
  have hnodup' : (ys.map name).Nodup := (h.map name).nodup_iff.1 hnodup
  cases hx : xs.find? (name · == n) with
  | none =>
    rw [eq_comm, List.find?_eq_none]
    exact fun y hy => List.find?_eq_none.1 hx y (h.mem_iff.2 hy)
  | some x =>
    have hname : name x = n := by simpa using List.find?_some hx
    rw [← hname]
    exact (find?_of_nodup hnodup' (h.mem_iff.1 (List.mem_of_find?_eq_some hx))).symm

/-- The map of pairs with keys of their own does not depend on their order. -/
theorem SortedMap.ofList_perm {ν : Type} {xs ys : List (String × ν)} (h : xs.Perm ys)
    (hnodup : (xs.map (·.1)).Nodup) : ofList xs = ofList ys := by
  have hnodup' : (ys.map (·.1)).Nodup := (h.map _).nodup_iff.1 hnodup
  have hmem {pairs : List (String × ν)} (hpairs : (pairs.map (·.1)).Nodup) (p : String × ν) :
      p ∈ (ofList pairs).entries ↔ p ∈ pairs := by
    rw [← (ordered_ofList pairs).get?_eq_some_iff (k := p.1) (v := p.2)]
    exact ⟨mem_of_get?_ofList, get?_ofList_of_mem hpairs⟩
  have hentries : (ofList xs).entries = (ofList ys).entries :=
    eq_of_increasing (·.1) (ordered_ofList xs).sorted (ordered_ofList ys).sorted fun p => by
      rw [hmem hnodup, hmem hnodup', h.mem_iff]
  exact congrArg SortedMap.mk hentries

namespace EntityDef
variable {all all' : List EntityDef}

theorem resolve_perm (h : all.Perm all') (hnodup : (all.map (·.name)).Nodup) :
    resolve all = resolve all' := by
  have hrelation : resolveRelation all = resolveRelation all' := by
    funext e r
    rw [resolveRelation, resolveRelation, find?_perm h hnodup]
  funext e
  rw [resolve, resolve, hrelation]

end EntityDef

namespace Schema
variable {defs defs' : List EntityDef} {s : Schema}

theorem nodup_ofDefs (h : ofDefs defs = .ok s) : (defs.map (·.name)).Nodup := by
  obtain ⟨resolved, hresolved, hnames, -⟩ := ofDefs_ok h
  rwa [map_eq_of_forall₂ (hresolved.imp fun d e hde => (EntityDef.resolve_ok hde).2.2.2.2.1)] at hnames

/-- The schema of definitions that are resolved. -/
theorem ofDefs_of_resolved (hnodup : (defs.map (·.name)).Nodup) {resolved : List Entity}
    (hresolved : List.Forall₂ (fun d e => d.resolve defs = .ok e) defs resolved) :
    ofDefs defs =
      let byName := SortedMap.ofList (resolved.map fun e => (e.name, e))
      (byName.values.mapM (Entity.withDependents byName.values)).map fun entities =>
        ⟨SortedMap.ofList (entities.map fun e => (e.name, e))⟩ := by
  have hmap : defs.mapM (EntityDef.resolve defs) = .ok resolved := Except.mapM_eq_ok.2 hresolved
  unfold ofDefs
  simp only [hnodup, decide_true, Bool.not_true, Bool.false_eq_true, if_false, hmap]
  rfl

/-- Definitions in another order make the same schema. -/
theorem ofDefs_perm (hperm : defs.Perm defs') (h : ofDefs defs = .ok s) : ofDefs defs' = .ok s := by
  have hnodup := nodup_ofDefs h
  obtain ⟨resolved, hresolved, hnames, -⟩ := ofDefs_ok h
  -- The entities are those from before in another order.
  obtain ⟨resolved', hresolved', hperm'⟩ := List.perm_comp_forall₂ hperm.symm hresolved
  rw [EntityDef.resolve_perm hperm hnodup] at hresolved'
  rw [ofDefs_of_resolved hnodup hresolved] at h
  rw [ofDefs_of_resolved ((hperm.map _).nodup_iff.1 hnodup) hresolved']
  have hsame : SortedMap.ofList (resolved'.map fun e => (e.name, e)) =
      SortedMap.ofList (resolved.map fun e => (e.name, e)) := by
    refine (SortedMap.ofList_perm (hperm'.symm.map _) ?_).symm
    rwa [List.map_map]
  rw [hsame]
  exact h

end Schema

/-! ### Relations and their other ends -/

namespace RelationDef

/-- The relation of the one that holds the key, as it is declared. -/
def owner (r : RelationDef) : Relation :=
  ⟨r.name, r.target, .oneOwning, r.fields, r.references, r.onDelete⟩

/-- The relation of the one that holds no key, as it is declared; the key is that of the other end. -/
def referenced (r : RelationDef) (near far : List String) : Relation :=
  ⟨r.name, r.target, if r.toMany then .many else .oneReferenced, near, far, .noAction⟩

end RelationDef

/-- The entity is as it is declared: what its definition lists it has, in that order, and nothing
else. -/
structure Entity.Declared (e : Entity) (d : EntityDef) : Prop where
  name : e.name = d.name
  fields : e.fields = d.fields
  idFields : e.idFields = (d.fields.filter (·.id)).map (·.name)
  relations : List.Forall₂
    (fun rd r => r = if rd.isOwning then rd.owner else rd.referenced r.near r.far) d.relations
      e.relations
  selectors : ∀ g, g ∈ e.uniqueSelectors ↔ g ∈ d.declaredGroups

/-- What requests rely on in a schema of these definitions. -/
structure Schema.Linked (s : Schema) (defs : List EntityDef) : Prop where
  /-- There is an entity for each definition. -/
  entities : ∀ n, (s.entity? n).isSome ↔ n ∈ defs.map (·.name)
  /-- It has what that definition declares. -/
  declared : ∀ d ∈ defs, ∃ e, s.entity? d.name = some e ∧ e.Declared d
  /-- The fields of a foreign key are the entity's own, as many as it references, and these are the
  primary key or a unique group of the target. -/
  owning : ∀ n e, s.entity? n = some e → ∀ r ∈ e.owningRelations, ∃ t, s.entity? r.target = some t ∧
    r.near ≠ [] ∧ r.near.length = r.far.length ∧ (∀ f ∈ r.near, (e.field? f).isSome) ∧
    (∀ f ∈ r.far, (t.field? f).isSome) ∧ r.far ∈ t.uniqueSelectors
  /-- A relation without a key is the other end of one that leads back, the only one of the name that
  its declaration gives, if it gives one. -/
  referenced : ∀ n e, s.entity? n = some e → ∀ r ∈ e.relations, r.isOwning = false →
    ∃ d ∈ defs, d.name = n ∧ ∃ rd ∈ d.relations, rd.name = r.name ∧ rd.target = r.target ∧
      ∃ t, s.entity? r.target = some t ∧ ∃ o,
        (∀ o', (o' ∈ t.owningRelations ∧ o'.target = n ∧ ∀ name ∈ rd.opposite, o'.name = name) ↔
          o' = o) ∧ r.near = o.far ∧ r.far = o.near
  /-- The dependents of an entity are the owning relations that lead to it, each of them once. -/
  dependents : ∀ n e, s.entity? n = some e →
    (e.dependents.map fun d => (d.entity, d.relation)).Nodup ∧ ∀ d, d ∈ e.dependents ↔
      ∃ c, s.entity? d.entity = some c ∧ ∃ r ∈ c.owningRelations, r.target = n ∧ d = c.dependentOf r
  /-- A key that a deletion clears may be null in each field. -/
  clearable : ∀ n e, s.entity? n = some e → ∀ d ∈ e.dependents, d.onDelete = .setNull →
    ∃ c, s.entity? d.entity = some c ∧
      ∀ name ∈ d.fields, ∃ f ∈ c.field? name, f.required = false ∧ f.id = false

namespace EntityDef
variable {all : List EntityDef} {d target : EntityDef} {e : Entity}

/-- What selects one row at most is one of the groups that are declared. -/
theorem mem_declaredGroups {fields : List String} (h : d.isUniqueSelector fields = true) :
    fields ∈ d.declaredGroups := by
  unfold isUniqueSelector at h
  rw [Bool.or_eq_true, Bool.or_eq_true] at h
  rw [declaredGroups, List.mem_cons, List.mem_append]
  rcases h with (hid | hsingle) | hgroup
  · exact .inl (by simpa using Eq.symm (by simpa using hid : d.idFields = fields))
  · split at hsingle
    · next name =>
      obtain ⟨f, hf, hfield⟩ := List.any_eq_true.1 hsingle
      simp only [Bool.and_eq_true, Bool.or_eq_true, beq_iff_eq] at hfield
      obtain ⟨rfl, hunique⟩ := hfield
      by_cases hsole : f.id = true ∧ d.idFields.length = 1
      · -- The field is the whole primary key.
        obtain ⟨id, hid⟩ := List.length_eq_one_iff.1 hsole.2
        have hmem : f.name ∈ d.idFields :=
          List.mem_map_of_mem (List.mem_filter.2 ⟨hf, hsole.1⟩)
        rw [hid, List.mem_singleton] at hmem
        exact .inl (by rw [hid, hmem])
      · refine .inr (.inl (List.mem_map.2 ⟨f, List.mem_filter.2 ⟨hf, ?_⟩, rfl⟩))
        simp only [Bool.and_eq_true, Bool.not_eq_true', Bool.and_eq_false_iff, beq_eq_false_iff_ne]
        rcases hunique with hunique | hunique
        · refine ⟨hunique, ?_⟩
          by_cases hid : f.id = true
          · exact .inr fun hlen => hsole ⟨hid, hlen⟩
          · exact .inl (by simpa using hid)
        · exact absurd hunique hsole
    · cases hsingle
  · exact .inr (.inr (by simpa using hgroup))

theorem nodup_relationNames (h : d.resolve all = .ok e) : (d.relations.map (·.name)).Nodup := by
  obtain ⟨-, -, -, hrelations, -⟩ := resolve_ok h
  rw [← Schema.map_eq_of_forall₂ (hrelations.imp fun _ _ => name_of_resolveRelation)]
  exact (relationNames_of_resolve h).1

/-- A relation is resolved to what it is declared as. -/
theorem declared_of_resolveRelation {rd : RelationDef} {r : Relation}
    (h : d.resolveRelation all rd = .ok r) :
    r = if rd.isOwning then rd.owner else rd.referenced r.near r.far := by
  obtain ⟨target, -, -, howning, hreferenced⟩ := resolveRelation_ok h
  cases hr : rd.isOwning with
  | true => exact (resolveOwning_ok (howning hr)).1
  | false =>
    have hform := hreferenced hr
    unfold resolveReferenced at hform
    split at hform
    · cases hform
      rfl
    · cases hform
    · cases hform

/-- An entity is resolved to what it is declared as. -/
theorem declared_of_resolve (h : d.resolve all = .ok e) : e.Declared d where
  name := (resolve_ok h).2.2.2.2.1
  fields := (resolve_ok h).2.2.2.2.2.1
  idFields := (resolve_ok h).2.2.2.2.2.2
  relations := (resolve_ok h).2.2.2.1.imp fun _ _ => declared_of_resolveRelation
  selectors := (groups_of_resolve h).2

/-- The owning relations of an entity are those that are declared, each as it is declared. -/
theorem mem_owning_of_resolve (h : d.resolve all = .ok e) (o : Relation) :
    o ∈ e.owningRelations ↔ ∃ rd ∈ d.relations, rd.isOwning = true ∧ o = rd.owner := by
  obtain ⟨-, -, -, hrelations, -⟩ := resolve_ok h
  have hform {rd : RelationDef} {r : Relation} (hr : d.resolveRelation all rd = .ok r)
      (howning : rd.isOwning = true) : r = rd.owner := by
    rw [declared_of_resolveRelation hr, if_pos howning]
  constructor
  · intro ho
    obtain ⟨ho, howning⟩ := List.mem_filter.1 ho
    obtain ⟨rd, hrd, hresolve⟩ := exists_of_forall₂_right hrelations ho
    rw [(target_of_resolveRelation hresolve).2] at howning
    exact ⟨rd, hrd, howning, hform hresolve howning⟩
  · rintro ⟨rd, hrd, howning, rfl⟩
    obtain ⟨r, hr, hresolve⟩ := exists_of_forall₂_left hrelations hrd
    rw [← hform hresolve howning]
    refine List.mem_filter.2 ⟨hr, ?_⟩
    rw [(target_of_resolveRelation hresolve).2, howning]

/-- A relation without a key has one owner. -/
theorem owners_of_resolveReferenced {rd : RelationDef} {r : Relation}
    (h : d.resolveReferenced target rd = .ok r) :
    ∃ o, d.owners target rd = [o] ∧ r.near = o.references ∧ r.far = o.fields := by
  unfold resolveReferenced at h
  split at h
  · next o ho =>
    cases h
    exact ⟨o, ho, rfl, rfl⟩
  · cases h
  · cases h

end EntityDef

namespace Schema
variable {defs : List EntityDef} {s : Schema}

/-- An entity of the schema is resolved from the one definition of its name. -/
theorem resolve_of_entity (h : ofDefs defs = .ok s) {n : String} {e : Entity}
    (he : s.entity? n = some e) : ∃ d ∈ defs, d.name = n ∧ ∃ e₀, d.resolve defs = .ok e₀ ∧
      e = { e₀ with dependents := e.dependents } := by
  obtain ⟨-, d, hd, e₀, hde, hname, heq⟩ := entity_ofDefs h he
  exact ⟨d, hd, (EntityDef.resolve_ok hde).2.2.2.2.1.symm.trans hname, e₀, hde, heq⟩

/-- What an owning relation references selects one row of the target at most. -/
theorem unique_far_ofDefs (h : ofDefs defs = .ok s) {n : String} {e : Entity}
    (he : s.entity? n = some e) {r : Relation} (hr : r ∈ e.owningRelations) :
    ∃ t, s.entity? r.target = some t ∧ (∀ f ∈ r.far, (t.field? f).isSome) ∧
      r.far ∈ t.uniqueSelectors := by
  obtain ⟨d, hd, -, e₀, hde, heq⟩ := resolve_of_entity h he
  have hr₀ : r ∈ e₀.owningRelations := by rw [heq] at hr; exact hr
  obtain ⟨rd, hrd, howning, rfl⟩ := (EntityDef.mem_owning_of_resolve hde r).1 hr₀
  obtain ⟨-, -, -, hrelations, -⟩ := EntityDef.resolve_ok hde
  obtain ⟨r', -, hresolve⟩ := exists_of_forall₂_left hrelations hrd
  obtain ⟨td, htd, htname, hform, -⟩ := EntityDef.resolveRelation_ok hresolve
  obtain ⟨-, -, -, hfar, hunique⟩ := EntityDef.resolveOwning_ok (hform howning)
  obtain ⟨t₀, t, htde, ht, hteq⟩ := exists_entity_ofDefs h htd
  refine ⟨t, (congrArg s.entity? htname).symm.trans ht, fun f hf => ?_, ?_⟩
  · obtain ⟨-, -, -, -, -, hfields, -⟩ := EntityDef.resolve_ok htde
    rw [isSome_field?, hteq, hfields]
    simpa [EntityDef.hasField] using hfar f hf
  · rw [hteq]
    exact ((EntityDef.groups_of_resolve htde).2 _).2 (EntityDef.mem_declaredGroups hunique)

/-- A relation without a key is the other end of one owning relation, and of no other one. -/
theorem owner_ofDefs (h : ofDefs defs = .ok s) {n : String} {e : Entity}
    (he : s.entity? n = some e) {r : Relation} (hr : r ∈ e.relations) (hfree : r.isOwning = false) :
    ∃ d ∈ defs, d.name = n ∧ ∃ rd ∈ d.relations, rd.name = r.name ∧ rd.target = r.target ∧
      ∃ t, s.entity? r.target = some t ∧ ∃ o,
        (∀ o', (o' ∈ t.owningRelations ∧ o'.target = n ∧ ∀ name ∈ rd.opposite, o'.name = name) ↔
          o' = o) ∧ r.near = o.far ∧ r.far = o.near := by
  obtain ⟨d, hd, hname, e₀, hde, heq⟩ := resolve_of_entity h he
  have hr₀ : r ∈ e₀.relations := by rw [heq] at hr; exact hr
  obtain ⟨-, -, -, hrelations, -⟩ := EntityDef.resolve_ok hde
  obtain ⟨rd, hrd, hresolve⟩ := exists_of_forall₂_right hrelations hr₀
  obtain ⟨htarget, howning⟩ := EntityDef.target_of_resolveRelation hresolve
  rw [hfree, eq_comm] at howning
  obtain ⟨td, htd, htname, -, hform⟩ := EntityDef.resolveRelation_ok hresolve
  obtain ⟨o, howners, hnear, hfar⟩ := EntityDef.owners_of_resolveReferenced (hform howning)
  obtain ⟨t₀, t, htde, ht, hteq⟩ := exists_entity_ofDefs h htd
  have hdname : d.name = n := hname
  have howned : t.owningRelations = t₀.owningRelations := by rw [hteq]; rfl
  -- What is declared to lead back is an owner, since the relation itself holds no key.
  have hown (od : RelationDef) : od ∈ d.owners td rd ↔ od ∈ td.relations ∧ od.isOwning = true ∧
      od.target = n ∧ ∀ name ∈ rd.opposite, od.name = name := by
    have hself : od ∈ td.relations → od.isOwning = true → d.name ≠ td.name ∨ od.name ≠ rd.name := by
      intro hod hodOwning
      by_contra hsame
      simp only [ne_eq, not_or, not_not] at hsame
      obtain rfl := List.inj_on_of_nodup_map (nodup_ofDefs h) hd htd hsame.1
      obtain rfl := List.inj_on_of_nodup_map (EntityDef.nodup_relationNames hde) hod hrd hsame.2
      rw [howning] at hodOwning
      cases hodOwning
    rw [EntityDef.owners, List.mem_filter, hdname]
    simp only [Bool.and_eq_true, beq_iff_eq, Bool.or_eq_true, bne_iff_ne, Option.all_eq_true]
    constructor
    · rintro ⟨hod, ⟨⟨htarget, hodOwning⟩, hopposite⟩, -⟩
      exact ⟨hod, hodOwning, htarget, hopposite⟩
    · rintro ⟨hod, hodOwning, htarget, hopposite⟩
      exact ⟨hod, ⟨⟨htarget, hodOwning⟩, hopposite⟩, hdname ▸ hself hod hodOwning⟩
  refine ⟨d, hd, hname, rd, hrd, (EntityDef.name_of_resolveRelation hresolve).symm, htarget.symm, t,
    by rw [htarget, ← htname]; exact ht, o.owner, fun o' => ?_, hnear, hfar⟩
  rw [howned, EntityDef.mem_owning_of_resolve htde]
  constructor
  · rintro ⟨⟨od, hod, hodOwning, rfl⟩, hleads, hopposite⟩
    have hmem := (hown od).2 ⟨hod, hodOwning, hleads, hopposite⟩
    rw [howners, List.mem_singleton] at hmem
    rw [hmem]
  · rintro rfl
    obtain ⟨ho, hoOwning, hleads, hopposite⟩ :=
      (hown o).1 (by rw [howners]; exact List.mem_singleton_self o)
    exact ⟨⟨o, ho, hoOwning, rfl⟩, hleads, hopposite⟩

/-- An entity knows each relation that references it once. -/
theorem nodup_dependents_ofDefs (h : ofDefs defs = .ok s) {n : String} {e : Entity}
    (he : s.entity? n = some e) : (e.dependents.map fun d => (d.entity, d.relation)).Nodup := by
  obtain ⟨resolved, hresolved, -, entities, hmem, hget, -, -, hnodup⟩ := ofDefs_ok h
  obtain ⟨e₀, -, rfl, rfl⟩ := (hget n e).1 he
  show ((Entity.dependentsOn entities e₀.name).map fun d => (d.entity, d.relation)).Nodup
  rw [Entity.dependentsOn, List.map_flatMap, List.nodup_flatMap]
  constructor
  · intro c hc
    obtain ⟨d, -, hde⟩ := exists_of_forall₂_right hresolved ((hmem c).1 hc)
    have hnames := (EntityDef.relationNames_of_resolve hde).1
    rw [List.map_map]
    refine List.Nodup.of_map Prod.snd ?_
    rw [List.map_map]
    exact hnames.sublist ((List.filter_sublist.trans List.filter_sublist).map _)
  · refine (List.pairwise_map.1 hnodup).imp fun {c c'} hne => ?_
    intro p hp hp'
    obtain ⟨d, hd, rfl⟩ := List.mem_map.1 hp
    obtain ⟨d', hd', heq⟩ := List.mem_map.1 hp'
    obtain ⟨r, -, rfl⟩ := List.mem_map.1 hd
    obtain ⟨r', -, rfl⟩ := List.mem_map.1 hd'
    exact hne (Prod.mk.inj heq).1.symm

theorem Linked.ofDefs (h : ofDefs defs = .ok s) : s.Linked defs where
  entities n := by
    constructor
    · intro hn
      obtain ⟨e, he⟩ := Option.isSome_iff_exists.1 hn
      obtain ⟨d, hd, hname, -⟩ := resolve_of_entity h he
      exact List.mem_map.2 ⟨d, hd, hname⟩
    · intro hn
      obtain ⟨d, hd, rfl⟩ := List.mem_map.1 hn
      obtain ⟨-, e, -, he, -⟩ := exists_entity_ofDefs h hd
      exact Option.isSome_iff_exists.2 ⟨e, he⟩
  declared d hd := by
    obtain ⟨e₀, e, hresolve, he, heq⟩ := exists_entity_ofDefs h hd
    have hdeclared := EntityDef.declared_of_resolve hresolve
    exact ⟨e, he, by rw [heq]; exact { hdeclared with }⟩
  owning n e he r hr := by
    obtain ⟨t, ht, hfar, hunique⟩ := unique_far_ofDefs h he hr
    obtain ⟨hne, hlen, hnear⟩ := key_ofDefs h he hr
    exact ⟨t, ht, hne, hlen, hnear, hfar, hunique⟩
  referenced _ _ he _ hr hfree := owner_ofDefs h he hr hfree
  dependents n e he := by
    obtain rfl := (Resolved.ofDefs h).name he
    exact ⟨nodup_dependents_ofDefs h he, (Resolved.ofDefs h).dependents he⟩
  clearable n e he d hd hclears := by
    have hresolved := Resolved.ofDefs h
    obtain ⟨c, hc, r, hr, -, hform⟩ := (hresolved.dependents he d).1 hd
    have hnull := hresolved.nullable he d hd hclears
    refine ⟨c, hc, fun name hname => ?_⟩
    rw [hform] at hname hnull
    obtain ⟨f, hf⟩ := Option.isSome_iff_exists.1 ((key_ofDefs h hc hr).2.2 name hname)
    have hfield := List.all_eq_true.1 hnull f (List.mem_filterMap.2 ⟨name, hname, hf⟩)
    exact ⟨f, hf, by simpa using hfield⟩

/-- Definitions in any order make the same schema or none, and in a schema relations have their two
ends. -/
theorem ofDefs_linked (defs : List EntityDef) :
    (∀ defs', defs.Perm defs' → ∀ s, ofDefs defs = .ok s ↔ ofDefs defs' = .ok s) ∧
      ∀ s, ofDefs defs = .ok s → s.Linked defs :=
  ⟨fun _ hperm _ => ⟨ofDefs_perm hperm, ofDefs_perm hperm.symm⟩, fun _ => .ofDefs⟩

end Schema

/-! ### Desks -/

/-- Desks in rooms, and people of whom each has a desk, a boss and a mentor. -/
def EntityDef.office : List EntityDef :=
  [{ name := "person",
     fields := [{ name := "id", kind := .int, id := true }, { name := "bossId", kind := .int },
       { name := "mentorMail", kind := .string }, { name := "mail", kind := .string, unique := true },
       { name := "room", kind := .string }, { name := "place", kind := .int }],
     relations := [{ RelationDef.owning "boss" "person" ["bossId"] ["id"] with onDelete := .setNull },
       { RelationDef.many "reports" "person" with opposite := some "boss" },
       .owning "mentor" "person" ["mentorMail"] ["mail"],
       { RelationDef.one "pupil" "person" with opposite := some "mentor" },
       .owning "desk" "desk" ["room", "place"] ["room", "place"]],
     uniqueGroups := [["room", "place"]] },
   { name := "desk",
     fields := [{ name := "room", kind := .string, id := true },
       { name := "place", kind := .int, id := true }],
     relations := [.one "person" "person"] }]

/-- Desks may be declared first. -/
theorem Schema.ofDefs_linked_office : ∃ s, ofDefs EntityDef.office = .ok s ∧
    EntityDef.office.Perm EntityDef.office.reverse ∧ ofDefs EntityDef.office.reverse = .ok s ∧
    s.Linked EntityDef.office := by
  have hmade : (ofDefs EntityDef.office).toOption.isSome := by decide +kernel
  obtain ⟨s, hs⟩ := Option.isSome_iff_exists.1 hmade
  have hs := Except.toOption_eq_some.1 hs
  have hperm : EntityDef.office.Perm EntityDef.office.reverse := (List.reverse_perm _).symm
  exact ⟨s, hs, hperm, ((ofDefs_linked EntityDef.office).1 _ hperm s).1 hs,
    (ofDefs_linked EntityDef.office).2 s hs⟩

end RelationalStore

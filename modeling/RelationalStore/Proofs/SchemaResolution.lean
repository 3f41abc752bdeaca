import RelationalStore.Proofs.MapEntries
import RelationalStore.Proofs.OperationTriple
import RelationalStore.Schema.Resolution

/- What holds of every schema that is made of definitions. An entity is stored under its own name
   and its fields have names of their own; relations lead to entities, and one that holds no key
   mirrors one that does; the dependents of an entity are the relations that reference it. -/
namespace RelationalStore
open SortedMap

/-- A schema as `ofDefs` makes it. -/
structure Schema.Resolved (s : Schema) : Prop where
  ordered : Ordered s.entities
  name : ∀ {n e}, s.entity? n = some e → e.name = n
  field : ∀ {n e}, s.entity? n = some e → ∀ f ∈ e.fields, e.field? f.name = some f
  increment : ∀ {n e}, s.entity? n = some e → ∀ f ∈ e.fields,
    f.default = some .autoIncrement → f.kind = .int
  idFields : ∀ {n e}, s.entity? n = some e →
    e.idFields = (e.fields.filter (·.id)).map (·.name) ∧ e.idFields ≠ []
  target : ∀ {n e}, s.entity? n = some e → ∀ r ∈ e.relations, ∃ t, s.entity? r.target = some t
  key : ∀ {n e}, s.entity? n = some e → ∀ r ∈ e.owningRelations,
    r.near ≠ [] ∧ r.near.length = r.far.length ∧ ∀ f ∈ r.near, (e.field? f).isSome
  mirrored : ∀ {n e}, s.entity? n = some e → ∀ r ∈ e.relations, r.isOwning = false →
    ∃ t, s.entity? r.target = some t ∧
      ∃ o ∈ t.owningRelations, o.target = e.name ∧ o.near = r.far ∧ o.far = r.near
  dependents : ∀ {n e}, s.entity? n = some e → ∀ d, d ∈ e.dependents ↔
    ∃ c, s.entity? d.entity = some c ∧
      ∃ r ∈ c.owningRelations, r.target = e.name ∧ d = c.dependentOf r
  nullable : ∀ {n e}, s.entity? n = some e → ∀ d ∈ e.dependents,
    d.onDelete = .setNull → d.nullable = true

theorem Schema.Resolved.mem_values {s : Schema} (hs : s.Resolved) {e : Entity}
    (he : s.entity? e.name = some e) : e ∈ s.entities.values :=
  hs.ordered.mem_values_iff.2 ⟨e.name, he⟩

theorem Schema.Resolved.id_of_mem_idFields {s : Schema} (hs : s.Resolved) {n : String} {e : Entity}
    (he : s.entity? n = some e) {f : FieldDef} (hf : f ∈ e.fields) (hid : f.name ∈ e.idFields) :
    f.id = true := by
  rw [(hs.idFields he).1] at hid
  obtain ⟨g, hg, hname⟩ := List.mem_map.1 hid
  obtain ⟨hg, hgid⟩ := List.mem_filter.1 hg
  have hsame := hs.field he g hg
  rw [hname, hs.field he f hf] at hsame
  cases hsame
  exact hgid

/-- Where fields have names of their own, a row that is made field by field has what was made for
each. -/
theorem Entity.value_ofList {e : Entity} (hnames : ∀ f ∈ e.fields, e.field? f.name = some f)
    {D : FieldDef → Value → Prop} {values : List (String × Value)}
    (h : List.Forall₂ (fun f p => p.1 = f.name ∧ D f p.2) e.fields values) :
    ∀ f ∈ e.fields, D f (Row.value (.ofList values) f.name) := by
  intro f hf
  have hkey : f.name ∈ values.map (·.1) := by
    obtain ⟨p, hp, hname, -⟩ := exists_of_forall₂_left h hf
    exact List.mem_map.2 ⟨p, hp, hname⟩
  obtain ⟨v, hv⟩ := Option.isSome_iff_exists.1 (isSome_get?_ofList.2 hkey)
  obtain ⟨g, hg, hname, hvalue⟩ := exists_of_forall₂_right h (mem_of_get?_ofList hv)
  have hfound := hnames f hf
  rw [show f.name = g.name from hname, hnames g hg] at hfound
  cases hfound
  rw [Row.value, hv]
  exact hvalue

/-! ### One definition -/

namespace EntityDef
variable {all : List EntityDef} {d : EntityDef} {e : Entity}

theorem refuseIf_ok {condition : Bool} {f : SchemaFault} (h : d.refuseIf condition f = .ok ()) :
    condition = false := by
  unfold refuseIf at h
  split at h
  · cases h
  · next hc => simpa using hc

theorem checkFields_ok {names : List String} {fields : List FieldDef}
    (h : d.checkFields names fields = .ok ()) :
    (fields.map (·.name)).Nodup ∧ (∀ f ∈ fields, f.name ∉ names) ∧
      ∀ f ∈ fields, f.default = some .autoIncrement → f.kind = .int := by
  induction fields generalizing names with
  | nil => simp
  | cons f rest ih =>
    obtain ⟨⟨⟩, -, h⟩ := Except.bind_eq_ok.1 h
    obtain ⟨⟨⟩, hdup, h⟩ := Except.bind_eq_ok.1 h
    obtain ⟨⟨⟩, -, h⟩ := Except.bind_eq_ok.1 h
    obtain ⟨⟨⟩, hinc, h⟩ := Except.bind_eq_ok.1 h
    obtain ⟨⟨⟩, -, h⟩ := Except.bind_eq_ok.1 h
    obtain ⟨hnodup, hnew, hkind⟩ := ih h
    have hdup : f.name ∉ names := by simpa using refuseIf_ok hdup
    refine ⟨?_, ?_, ?_⟩
    · rw [List.map_cons, List.nodup_cons]
      refine ⟨fun hmem => ?_, hnodup⟩
      obtain ⟨g, hg, heq⟩ := List.mem_map.1 hmem
      exact hnew g hg (by simp [heq])
    · intro g hg
      rcases List.mem_cons.1 hg with rfl | hg
      · exact hdup
      · exact fun hmem => hnew g hg (List.mem_cons_of_mem _ hmem)
    · intro g hg hd
      rcases List.mem_cons.1 hg with rfl | hg
      · have := refuseIf_ok hinc
        simpa [isAutoIncrement, hd] using this
      · exact hkind g hg hd

/-- What a resolved definition is made of. -/
theorem resolve_ok (h : d.resolve all = .ok e) :
    d.checkFields [] d.fields = .ok () ∧ d.idFields ≠ [] ∧
      (∃ groups, d.addGroups d.fieldGroups d.uniqueGroups = .ok groups ∧ e.uniqueGroups = groups) ∧
      List.Forall₂ (fun r resolved => d.resolveRelation all r = .ok resolved) d.relations
        e.relations ∧
      e.name = d.name ∧ e.fields = d.fields ∧ e.idFields = d.idFields := by
  obtain ⟨⟨⟩, -, h⟩ := Except.bind_eq_ok.1 h
  obtain ⟨⟨⟩, hfields, h⟩ := Except.bind_eq_ok.1 h
  obtain ⟨⟨⟩, -, h⟩ := Except.bind_eq_ok.1 h
  obtain ⟨⟨⟩, hid, h⟩ := Except.bind_eq_ok.1 h
  obtain ⟨groups, hgroups, h⟩ := Except.bind_eq_ok.1 h
  obtain ⟨relations, hrelations, h⟩ := Except.bind_eq_ok.1 h
  cases h
  refine ⟨hfields, ?_, ⟨groups, hgroups, rfl⟩, Except.mapM_eq_ok.1 hrelations, rfl, rfl, rfl⟩
  simpa using refuseIf_ok hid

theorem resolveOwning_ok {target : EntityDef} {r : RelationDef} {resolved : Relation}
    (h : d.resolveOwning target r = .ok resolved) :
    resolved = ⟨r.name, r.target, .oneOwning, r.fields, r.references, r.onDelete⟩ ∧
      r.fields.length = r.references.length ∧ (∀ f ∈ r.fields, d.hasField f) ∧
      (∀ f ∈ r.references, target.hasField f) ∧ target.isUniqueSelector r.references := by
  obtain ⟨⟨⟩, -, h⟩ := Except.bind_eq_ok.1 h
  obtain ⟨⟨⟩, hlen, h⟩ := Except.bind_eq_ok.1 h
  cases hnear : r.fields.find? fun f => !d.hasField f with
  | some missing => simp [hnear, fault, bind, Except.bind] at h
  | none =>
    cases hfar : r.references.find? fun f => !target.hasField f with
    | some missing => simp [hnear, hfar, fault, bind, Except.bind] at h
    | none =>
      simp only [hnear, hfar] at h
      obtain ⟨⟨⟩, -, h⟩ := Except.bind_eq_ok.1 h
      obtain ⟨⟨⟩, -, h⟩ := Except.bind_eq_ok.1 h
      obtain ⟨⟨⟩, hselector, h⟩ := Except.bind_eq_ok.1 h
      cases h
      refine ⟨rfl, by simpa using refuseIf_ok hlen, by simpa using hnear, by simpa using hfar, ?_⟩
      simpa using refuseIf_ok hselector

theorem resolveReferenced_ok {target : EntityDef} {r : RelationDef} {resolved : Relation}
    (h : d.resolveReferenced target r = .ok resolved) :
    ∃ o ∈ target.relations, o.target = d.name ∧ o.isOwning = true ∧
      resolved.name = r.name ∧ resolved.target = r.target ∧ resolved.isOwning = false ∧
      resolved.near = o.references ∧ resolved.far = o.fields := by
  unfold resolveReferenced at h
  split at h
  · next o ho =>
    cases h
    have hmem : o ∈ d.owners target r := by rw [ho]; exact List.mem_singleton_self o
    simp only [owners, List.mem_filter, Bool.and_eq_true, beq_iff_eq] at hmem
    refine ⟨o, hmem.1, hmem.2.1.1.1, hmem.2.1.1.2, rfl, rfl, ?_, rfl, rfl⟩
    cases r.toMany <;> rfl
  · cases h
  · cases h

/-- A relation that is resolved has a target among the definitions. -/
theorem resolveRelation_ok {r : RelationDef} {resolved : Relation}
    (h : d.resolveRelation all r = .ok resolved) :
    ∃ target ∈ all, target.name = r.target ∧
      (r.isOwning = true → d.resolveOwning target r = .ok resolved) ∧
      (r.isOwning = false → d.resolveReferenced target r = .ok resolved) := by
  unfold resolveRelation at h
  split at h
  · cases h
  · next target ht =>
    refine ⟨target, List.mem_of_find?_eq_some ht, by simpa using List.find?_some ht, ?_, ?_⟩
    · intro hr
      rwa [if_pos hr] at h
    · intro hr
      rwa [hr, if_neg Bool.false_ne_true] at h

theorem target_of_resolveRelation {r : RelationDef} {resolved : Relation}
    (h : d.resolveRelation all r = .ok resolved) :
    resolved.target = r.target ∧ resolved.isOwning = r.isOwning := by
  obtain ⟨target, -, -, howning, hreferenced⟩ := resolveRelation_ok h
  cases hr : r.isOwning with
  | true =>
    rw [(resolveOwning_ok (howning hr)).1]
    exact ⟨rfl, rfl⟩
  | false =>
    obtain ⟨-, -, -, -, -, ht, ho, -⟩ := resolveReferenced_ok (hreferenced hr)
    exact ⟨ht, ho⟩

end EntityDef

/-! ### Dependents -/

theorem Entity.mem_dependentsOn {entities : List Entity} {target : String} {d : Dependent} :
    d ∈ Entity.dependentsOn entities target ↔
      ∃ c ∈ entities, ∃ r ∈ c.owningRelations, r.target = target ∧ d = c.dependentOf r := by
  simp only [dependentsOn, List.mem_flatMap, List.mem_map, List.mem_filter, beq_iff_eq]
  constructor
  · intro hex
    obtain ⟨c, hc, r, ⟨hr, ht⟩, rfl⟩ := hex
    exact ⟨c, hc, r, hr, ht, rfl⟩
  · intro hex
    obtain ⟨c, hc, r, hr, ht, rfl⟩ := hex
    exact ⟨c, hc, r, ⟨hr, ht⟩, rfl⟩

theorem Entity.withDependents_ok {entities : List Entity} {e e' : Entity}
    (h : Entity.withDependents entities e = .ok e') :
    e' = { e with dependents := dependentsOn entities e.name } ∧
      ∀ d ∈ dependentsOn entities e.name, d.onDelete = .setNull → d.nullable = true := by
  unfold withDependents at h
  simp only at h
  split at h
  · cases h
  · next hnone =>
    cases h
    refine ⟨rfl, fun d hd ho => ?_⟩
    have := List.find?_eq_none.1 hnone d hd
    simpa [ho] using this

/-! ### The schema -/

namespace Schema
variable {defs : List EntityDef} {s : Schema}

theorem map_eq_of_forall₂ {α β γ : Type} {f : α → γ} {g : β → γ} {xs : List α} {ys : List β}
    (h : List.Forall₂ (fun x y => g y = f x) xs ys) : ys.map g = xs.map f := by
  induction h with
  | nil => rfl
  | cons hxy _ ih => rw [List.map_cons, List.map_cons, hxy, ih]

/-- The entities of a list by their names. -/
theorem get?_byName {entities : List Entity} (hnodup : (entities.map (·.name)).Nodup) (n : String)
    (e : Entity) :
    (SortedMap.ofList (entities.map fun e => (e.name, e))).get? n = some e ↔
      e ∈ entities ∧ e.name = n := by
  constructor
  · intro hn
    obtain ⟨e', he', heq⟩ := List.mem_map.1 (mem_of_get?_ofList hn)
    cases heq
    exact ⟨he', rfl⟩
  · intro hmem
    obtain ⟨he, rfl⟩ := hmem
    refine get?_ofList_of_mem ?_ (List.mem_map_of_mem he)
    rwa [List.map_map]

theorem mem_values_byName {entities : List Entity} (hnodup : (entities.map (·.name)).Nodup)
    (e : Entity) :
    e ∈ (SortedMap.ofList (entities.map fun e => (e.name, e))).values ↔ e ∈ entities := by
  rw [(ordered_ofList _).mem_values_iff]
  simp [get?_byName hnodup]

/-- Whatever the order of a list is, by their names its entities are each there once. -/
theorem nodup_values_byName {entities : List Entity} (hnodup : (entities.map (·.name)).Nodup) :
    ((SortedMap.ofList (entities.map fun e => (e.name, e))).values.map (·.name)).Nodup := by
  have hkeys : ∀ m : SortedMap String Entity, (∀ p ∈ m.entries, p.2.name = p.1) →
      m.values.map (·.name) = m.keys := by
    intro m hm
    rw [SortedMap.values, SortedMap.keys, List.map_map]
    exact List.map_congr_left hm
  rw [hkeys]
  · exact (ordered_ofList _).nodup_keys
  · intro p hp
    exact ((get?_byName hnodup p.1 p.2).1 ((ordered_ofList _).get?_eq_some_iff.2 hp)).2

/-- The entities of a schema are the resolved definitions, each with its dependents. -/
theorem ofDefs_ok (h : ofDefs defs = .ok s) :
    ∃ resolved : List Entity,
      List.Forall₂ (fun d e => d.resolve defs = .ok e) defs resolved ∧
      (resolved.map (·.name)).Nodup ∧
      ∃ entities : List Entity, (∀ e, e ∈ entities ↔ e ∈ resolved) ∧
        (∀ n e, s.entity? n = some e ↔ ∃ e₀ ∈ entities, e₀.name = n ∧
          e = { e₀ with dependents := Entity.dependentsOn entities n }) ∧
        (∀ n, ∀ d ∈ Entity.dependentsOn entities n, (s.entity? n).isSome →
          d.onDelete = .setNull → d.nullable = true) ∧
        Ordered s.entities ∧ (entities.map (·.name)).Nodup := by
  unfold ofDefs at h
  by_cases hnodup : (defs.map (·.name)).Nodup
  · simp only [hnodup, decide_true, Bool.not_true, Bool.false_eq_true, if_false] at h
    obtain ⟨resolved, hresolved, h⟩ := Except.bind_eq_ok.1 h
    obtain ⟨entities, hentities, h⟩ := Except.bind_eq_ok.1 h
    cases h
    have hresolved := Except.mapM_eq_ok.1 hresolved
    have hentities := Except.mapM_eq_ok.1 hentities
    have hnames : (resolved.map (·.name)).Nodup := by
      rw [map_eq_of_forall₂ (hresolved.imp fun d e hde => (EntityDef.resolve_ok hde).2.2.2.2.1)]
      exact hnodup
    -- The names after the dependents were added are those from before.
    have hafter : (entities.map (·.name)).Nodup := by
      rw [map_eq_of_forall₂ (hentities.imp fun e e' he => by rw [(Entity.withDependents_ok he).1])]
      exact nodup_values_byName hnames
    refine ⟨resolved, hresolved, hnames, _, mem_values_byName hnames, fun n e => ?_,
      fun n d hd hn ho => ?_, ordered_ofList _, nodup_values_byName hnames⟩
    · rw [entity?, get?_byName hafter]
      constructor
      · intro hmem
        obtain ⟨he, rfl⟩ := hmem
        obtain ⟨e₀, he₀, hwith⟩ := exists_of_forall₂_right hentities he
        have hform := (Entity.withDependents_ok hwith).1
        have hname : e.name = e₀.name := by rw [hform]
        exact ⟨e₀, he₀, hname.symm, by rw [hname]; exact hform⟩
      · intro hmade
        obtain ⟨e₀, he₀, rfl, rfl⟩ := hmade
        obtain ⟨e', he', hwith⟩ := exists_of_forall₂_left hentities he₀
        rw [(Entity.withDependents_ok hwith).1] at he'
        exact ⟨he', rfl⟩
    · obtain ⟨e, he⟩ := Option.isSome_iff_exists.1 hn
      obtain ⟨hmem, rfl⟩ := (get?_byName hafter n e).1 he
      obtain ⟨e₀, -, hwith⟩ := exists_of_forall₂_right hentities hmem
      obtain ⟨hform, hnull⟩ := Entity.withDependents_ok hwith
      exact hnull d (by rw [hform] at hd; exact hd) ho
  · simp [hnodup, throw, throwThe, MonadExceptOf.throw, bind, Except.bind] at h

/-- An entity of the schema, with the definition it was made of. -/
theorem entity_ofDefs (h : ofDefs defs = .ok s) {n : String} {e : Entity}
    (he : s.entity? n = some e) :
    e.name = n ∧ ∃ d ∈ defs, ∃ e₀, d.resolve defs = .ok e₀ ∧ e₀.name = n ∧
      e = { e₀ with dependents := e.dependents } := by
  obtain ⟨resolved, hresolved, -, entities, hmem, hget, -⟩ := ofDefs_ok h
  obtain ⟨e₀, he₀, rfl, rfl⟩ := (hget n e).1 he
  obtain ⟨d, hd, hde⟩ := exists_of_forall₂_right hresolved ((hmem e₀).1 he₀)
  exact ⟨rfl, d, hd, e₀, hde, rfl, rfl⟩

/-- Each definition makes an entity of its name. -/
theorem exists_entity_ofDefs (h : ofDefs defs = .ok s) {d : EntityDef} (hd : d ∈ defs) :
    ∃ e₀ e, d.resolve defs = .ok e₀ ∧ s.entity? d.name = some e ∧
      e = { e₀ with dependents := e.dependents } := by
  obtain ⟨resolved, hresolved, -, entities, hmem, hget, -⟩ := ofDefs_ok h
  obtain ⟨e₀, he₀, hde⟩ := exists_of_forall₂_left hresolved hd
  have hname := (EntityDef.resolve_ok hde).2.2.2.2.1
  exact ⟨e₀, _, hde, (hget d.name _).2 ⟨e₀, (hmem e₀).2 he₀, hname, rfl⟩, rfl⟩

theorem field?_of_mem {e : Entity} (hnodup : (e.fields.map (·.name)).Nodup) {f : FieldDef}
    (hf : f ∈ e.fields) : e.field? f.name = some f :=
  find?_of_nodup hnodup hf

theorem isSome_field? {e : Entity} {name : String} :
    (e.field? name).isSome ↔ ∃ f ∈ e.fields, f.name = name := by
  simp [Entity.field?, List.find?_isSome]

/-- A relation of an entity of the schema, with the definitions both were made of. -/
theorem relation_ofDefs (h : ofDefs defs = .ok s) {n : String} {e : Entity}
    (he : s.entity? n = some e) {r : Relation} (hr : r ∈ e.relations) :
    ∃ d : EntityDef, d.name = e.name ∧ d.fields = e.fields ∧ ∃ rd : RelationDef,
      d.resolveRelation defs rd = .ok r ∧ r.target = rd.target ∧ r.isOwning = rd.isOwning := by
  obtain ⟨hname, d, -, e₀, hde, hname₀, heq⟩ := entity_ofDefs h he
  obtain ⟨-, -, -, hrelations, hdname, hfields, -⟩ := EntityDef.resolve_ok hde
  rw [congrArg Entity.relations heq] at hr
  obtain ⟨rd, -, hrd⟩ := exists_of_forall₂_right hrelations hr
  refine ⟨d, ?_, ?_, rd, hrd, EntityDef.target_of_resolveRelation hrd⟩
  · rw [hname, ← hname₀, hdname]
  · rw [congrArg Entity.fields heq, hfields]

theorem target_ofDefs (h : ofDefs defs = .ok s) {n : String} {e : Entity}
    (he : s.entity? n = some e) {r : Relation} (hr : r ∈ e.relations) :
    ∃ t, s.entity? r.target = some t := by
  obtain ⟨d, -, -, rd, hrd, htarget, -⟩ := relation_ofDefs h he hr
  obtain ⟨td, htd, htname, -⟩ := EntityDef.resolveRelation_ok hrd
  obtain ⟨-, t, -, ht, -⟩ := exists_entity_ofDefs h htd
  rw [htarget, ← htname]
  exact ⟨t, ht⟩

theorem key_ofDefs (h : ofDefs defs = .ok s) {n : String} {e : Entity}
    (he : s.entity? n = some e) {r : Relation} (hr : r ∈ e.owningRelations) :
    r.near ≠ [] ∧ r.near.length = r.far.length ∧ ∀ f ∈ r.near, (e.field? f).isSome := by
  obtain ⟨hr, howning⟩ := List.mem_filter.1 hr
  obtain ⟨d, -, hfields, rd, hrd, -, hsame⟩ := relation_ofDefs h he hr
  rw [hsame] at howning
  obtain ⟨td, -, -, hresolve, -⟩ := EntityDef.resolveRelation_ok hrd
  obtain ⟨rfl, hlen, hnear, -⟩ := EntityDef.resolveOwning_ok (hresolve howning)
  refine ⟨by simpa [RelationDef.isOwning] using howning, hlen, fun f hf => ?_⟩
  rw [isSome_field?, ← hfields]
  simpa [EntityDef.hasField] using hnear f hf

/-- A relation that holds no key itself is the other end of one that does. -/
theorem mirrored_ofDefs (h : ofDefs defs = .ok s) {n : String} {e : Entity}
    (he : s.entity? n = some e) {r : Relation} (hr : r ∈ e.relations)
    (howning : r.isOwning = false) :
    ∃ t, s.entity? r.target = some t ∧ ∃ o ∈ t.owningRelations,
      o.target = e.name ∧ o.near = r.far ∧ o.far = r.near := by
  obtain ⟨d, hdname, -, rd, hrd, htarget, hsame⟩ := relation_ofDefs h he hr
  rw [hsame] at howning
  obtain ⟨td, htd, htname, -, hreferenced⟩ := EntityDef.resolveRelation_ok hrd
  obtain ⟨o, ho, hotarget, hoOwning, -, -, -, hnear, hfar⟩ :=
    EntityDef.resolveReferenced_ok (hreferenced howning)
  obtain ⟨t₀, t, htde, ht, hteq⟩ := exists_entity_ofDefs h htd
  obtain ⟨-, -, -, htrelations, -⟩ := EntityDef.resolve_ok htde
  obtain ⟨o', ho', hresolve⟩ := exists_of_forall₂_left htrelations ho
  obtain ⟨td', -, -, howner, -⟩ := EntityDef.resolveRelation_ok hresolve
  obtain ⟨hform, -⟩ := EntityDef.resolveOwning_ok (howner hoOwning)
  refine ⟨t, by rw [htarget, ← htname]; exact ht, o', List.mem_filter.2 ⟨?_, ?_⟩, ?_, ?_, ?_⟩
  · rw [congrArg Entity.relations hteq]
    exact ho'
  · rw [hform]
    rfl
  · rw [hform, ← hdname, hotarget]
  · rw [hform, hfar]
  · rw [hform, hnear]

theorem Resolved.ofDefs (h : ofDefs defs = .ok s) : s.Resolved where
  ordered := by
    obtain ⟨-, -, -, -, -, -, -, ho, -⟩ := ofDefs_ok h
    exact ho
  name he := (entity_ofDefs h he).1
  field he f hf := by
    obtain ⟨-, d, -, e₀, hde, -, heq⟩ := entity_ofDefs h he
    obtain ⟨hfields, -, -, -, -, hsame, -⟩ := EntityDef.resolve_ok hde
    have hfieldsEq : _ = d.fields := (congrArg Entity.fields heq).trans hsame
    refine field?_of_mem ?_ hf
    rw [hfieldsEq]
    exact (EntityDef.checkFields_ok hfields).1
  increment he f hf := by
    obtain ⟨-, d, -, e₀, hde, -, heq⟩ := entity_ofDefs h he
    obtain ⟨hfields, -, -, -, -, hsame, -⟩ := EntityDef.resolve_ok hde
    rw [congrArg Entity.fields heq, hsame] at hf
    exact (EntityDef.checkFields_ok hfields).2.2 f hf
  idFields he := by
    obtain ⟨-, d, -, e₀, hde, -, heq⟩ := entity_ofDefs h he
    obtain ⟨-, hid, -, -, -, hfields, hids⟩ := EntityDef.resolve_ok hde
    rw [congrArg Entity.idFields heq, congrArg Entity.fields heq, hfields, hids]
    exact ⟨rfl, hid⟩
  target he _ hr := target_ofDefs h he hr
  key he _ hr := key_ofDefs h he hr
  mirrored he _ hr howning := mirrored_ofDefs h he hr howning
  dependents he d := by
    obtain ⟨resolved, -, -, entities, -, hget, -⟩ := ofDefs_ok h
    obtain ⟨e₀, -, rfl, rfl⟩ := (hget _ _).1 he
    rw [Entity.mem_dependentsOn]
    constructor
    · intro hdependent
      obtain ⟨c, hc, r, hr, ht, rfl⟩ := hdependent
      exact ⟨_, (hget c.name _).2 ⟨c, hc, rfl, rfl⟩, r, hr, ht, rfl⟩
    · intro hdependent
      obtain ⟨c, hc, r, hr, ht, hd⟩ := hdependent
      obtain ⟨c₀, hc₀, -, rfl⟩ := (hget _ _).1 hc
      exact ⟨c₀, hc₀, r, hr, ht, hd⟩
  nullable he d hd ho := by
    obtain ⟨resolved, -, -, entities, -, hget, hnull, -⟩ := ofDefs_ok h
    have hsome : (s.entity? _).isSome := Option.isSome_iff_exists.2 ⟨_, he⟩
    obtain ⟨e₀, -, rfl, rfl⟩ := (hget _ _).1 he
    exact hnull _ d hd hsome ho

end Schema

/-! ### Keys that are held at the other end -/

/-- The rows of the target hold the key of the relation. -/
structure Schema.Held (s : Schema) (r : Relation) (target : Entity) : Prop where
  child : s.entity? target.name = some target
  name : target.name = r.target
  owned : r.isOwning = false
  source : ∃ e, s.entity? e.name = some e ∧ r ∈ e.relations

namespace Schema.Held
variable {s : Schema} {r : Relation} {target : Entity} (h : s.Held r target) (hs : s.Resolved)
include h hs

/-- The other end of the relation. -/
theorem exists_owner : ∃ o ∈ target.owningRelations, o.near = r.far ∧ o.far = r.near := by
  obtain ⟨e, he, hr⟩ := h.source
  obtain ⟨t, ht, o, ho, -, hnear, hfar⟩ := hs.mirrored he r hr h.owned
  rw [← h.name, h.child] at ht
  cases ht
  exact ⟨o, ho, hnear, hfar⟩

theorem length_far : r.near.length = r.far.length := by
  obtain ⟨o, ho, hnear, hfar⟩ := h.exists_owner hs
  obtain ⟨-, hlen, -⟩ := hs.key h.child o ho
  rw [← hnear, ← hfar, hlen]

theorem isSome_field? {f : String} (hf : f ∈ r.far) : (target.field? f).isSome := by
  obtain ⟨o, ho, hnear, -⟩ := h.exists_owner hs
  exact (hs.key h.child o ho).2.2 f (by rwa [hnear])

end Schema.Held

end RelationalStore

import RelationalStore.Proofs.MatchingRows
import RelationalStore.Proofs.ReadPipeline

/- What a query attaches to a row (`View.Shows`): under each relation that it names, the answer to
   the query that is given for the relation, among the rows of the target whose fields have the
   values of the row's own ones. The row is taken as it is stored, so a field that is not selected
   is there when relations are loaded, and is left out afterwards.

   `attachAll_ok` follows the entries of a selection one after the other: none changes the fields of
   a record, and the last one that names a relation stands. The rows that a relation joins to a row
   are looked for by the primary key or by an index; in every state that a run leads to, these are
   the rows that a look at every row of the target gives (`Client.rowsWhere_eq_scan`), in their
   order, so the answers to a query among them are the same. The records in such an answer are
   attached to in the same way, which is how a query within a query is read to any depth. -/
namespace RelationalStore
open SortedMap Read

/-! ### The names of relations -/

namespace EntityDef
variable {all : List EntityDef} {d : EntityDef} {e : Entity}

theorem checkRelationNames_ok {names : List String} {relations : List RelationDef}
    (h : d.checkRelationNames names relations = .ok ()) :
    (relations.map (·.name)).Nodup ∧ ∀ r ∈ relations, r.name ∉ names ∧ r.name ≠ "_count" := by
  induction relations generalizing names with
  | nil => exact ⟨.nil, by simp⟩
  | cons r rest ih =>
    obtain ⟨⟨⟩, hname, h⟩ := Except.bind_eq_ok.1 h
    obtain ⟨⟨⟩, hdup, h⟩ := Except.bind_eq_ok.1 h
    obtain ⟨hnodup, hrest⟩ := ih h
    have hdup : r.name ∉ names := by simpa using refuseIf_ok hdup
    have hcount : r.name ≠ "_count" := by
      intro heq
      rw [heq] at hname
      cases hname
    refine ⟨?_, fun r' hr' => ?_⟩
    · rw [List.map_cons, List.nodup_cons]
      refine ⟨fun hmem => ?_, hnodup⟩
      obtain ⟨r', hr', heq⟩ := List.mem_map.1 hmem
      exact (hrest r' hr').1 (by simp [heq])
    · rcases List.mem_cons.1 hr' with rfl | hr'
      · exact ⟨hdup, hcount⟩
      · exact ⟨fun hmem => (hrest r' hr').1 (List.mem_cons_of_mem _ hmem), (hrest r' hr').2⟩

theorem name_of_resolveRelation {r : RelationDef} {resolved : Relation}
    (h : d.resolveRelation all r = .ok resolved) : resolved.name = r.name := by
  obtain ⟨target, -, -, howning, hreferenced⟩ := resolveRelation_ok h
  cases hr : r.isOwning with
  | true => rw [(resolveOwning_ok (howning hr)).1]
  | false =>
    obtain ⟨-, -, -, -, hname, -⟩ := resolveReferenced_ok (hreferenced hr)
    exact hname

theorem relationNames_of_resolve (h : d.resolve all = .ok e) :
    (e.relations.map (·.name)).Nodup ∧
      ∀ r ∈ e.relations, r.name ∉ e.fields.map (·.name) ∧ r.name ≠ "_count" := by
  obtain ⟨-, -, -, hrelations, -, hfields, -⟩ := resolve_ok h
  have hnames : e.relations.map (·.name) = d.relations.map (·.name) :=
    Schema.map_eq_of_forall₂ (hrelations.imp fun _ _ => name_of_resolveRelation)
  obtain ⟨⟨⟩, -, h⟩ := Except.bind_eq_ok.1 h
  obtain ⟨⟨⟩, -, h⟩ := Except.bind_eq_ok.1 h
  obtain ⟨⟨⟩, hchecked, -⟩ := Except.bind_eq_ok.1 h
  obtain ⟨hnodup, hnew⟩ := checkRelationNames_ok hchecked
  rw [hnames, hfields]
  refine ⟨hnodup, fun r hr => ?_⟩
  obtain ⟨rd, hrd, hname⟩ := List.mem_map.1 (hnames ▸ List.mem_map_of_mem hr)
  rw [← hname]
  simpa using hnew rd hrd

end EntityDef

namespace Entity

/-- Each relation is found under its name, which is no field's and not that of the counts. -/
def Distinguishes (e : Entity) : Prop :=
  ∀ r ∈ e.relations, e.relation? r.name = some r ∧ e.field? r.name = none ∧ r.name ≠ "_count"

end Entity

theorem Schema.distinguishes_ofDefs {defs : List EntityDef} {s : Schema} (h : ofDefs defs = .ok s)
    {n : String} {e : Entity} (he : s.entity? n = some e) : e.Distinguishes := by
  obtain ⟨-, d, -, e₀, hde, -, heq⟩ := entity_ofDefs h he
  obtain ⟨hnodup, hnew⟩ := EntityDef.relationNames_of_resolve hde
  have hrelations : e.relations = e₀.relations := by rw [heq]
  have hfields : e.fields = e₀.fields := by rw [heq]
  rw [← hrelations, ← hfields] at hnew
  rw [← hrelations] at hnodup
  refine fun r hr => ⟨find?_of_nodup hnodup hr, ?_, (hnew r hr).2⟩
  refine List.find?_eq_none.2 fun f hf hname => (hnew r hr).1 (List.mem_map.2 ⟨f, hf, ?_⟩)
  simpa using hname

/-! ### What is attached -/

/-- The query that an entry of a selection loads a relation with, unless it loads none. -/
def Selected.query? : Selected → Option Query
  | .flag false => none
  | .flag true => some {}
  | .count _ => some {}
  | .nested q => some q

/-- The query that a selection loads a relation with: the last entry that loads it stands. -/
def Selection.query? (name : String) : Selection → Option Query
  | [] => none
  | (n, selected) :: rest => (query? name rest).or (if n = name then selected.query? else none)

/-- A way to the rows of an entity whose fields have the values of a key. -/
abbrev Search := View → Entity → List String → Key → Read (List Row)

namespace View

/-- The answer to a query among the rows that have the values of a key. -/
def findManyWhere (search : Search) (v : View) (e : Entity) (fields : List String) (key : Key)
    (q : Query) : Read (List Record) := do
  let rows ← search v e fields key
  v.attach e (← v.readRows e q rows) q

/-- What a relation is loaded with for a row: the answer to the query among the rows whose fields
have the values of the row's own ones, or nothing where one of these is null. -/
def Loads (search : Search) (v : View) (r : Relation) (row : Row) (q : Query) (related : Related) :
    Prop :=
  ∃ target records, v.schema.entity? r.target = some target ∧ related = .ofRecords r records ∧
    if (Key.ofRow r.near row).hasNull then records = []
    else v.findManyWhere search target r.far (Key.ofRow r.near row) q = .ok records

/-- What a selection adds to a record for each relation, where `wanted` is the query that the relation
is loaded with. -/
structure Adds (search : Search) (v : View) (e : Entity) (wanted : String → Option Query)
    (record record' : Record) : Prop where
  fields : record'.fields = record.fields
  relations : ∀ r ∈ e.relations,
    match wanted r.name with
    | none => record'.relation? r.name = record.relation? r.name
    | some q => ∃ related,
      record'.relation? r.name = some related ∧ v.Loads search r record.fields q related

/-- What a query makes of a row: a record with the fields that are selected, and with the relations
that are. -/
structure Shows (search : Search) (v : View) (e : Entity) (q : Query) (row : Row) (record : Record) :
    Prop where
  fields : record.fields =
    q.select.elim row fun select => row.filter fun name _ => Selection.selects select name
  relations : ∀ r ∈ e.relations,
    match Selection.query? r.name q.projections with
    | none => record.relation? r.name = none
    | some sub => ∃ related, record.relation? r.name = some related ∧ v.Loads search r row sub related

variable {v : View} {e target : Entity} {q : Query} {r : Relation} {row : Row} {rows : List Row}
  {record record' : Record} {records : List Record} {name : String}

/-! ### One relation -/

theorem readRows_plain (rows : List Row) : v.readRows e {} rows = .ok rows := by
  have hkeys : rows.mapM (fun row => v.sortKeys e (some row) []) = .ok (rows.map fun _ => []) :=
    Except.mapM_ok _ rows
  have hsort : v.sort e [] rows = .ok rows :=
    sort_of_keys hkeys (List.pairwise_map.2 (List.pairwise_of_forall fun _ _ => rfl))
  rw [readRows]
  simp only [pure_bind, hsort, Except.ok_bind]
  rfl

/-- A row without a key is joined to no record. -/
theorem Loads.null (ht : v.schema.entity? r.target = some target)
    (hnull : (Key.ofRow r.near row).hasNull) : v.Loads rowsWhere r row q (.ofRecords r []) :=
  ⟨target, [], ht, rfl, by rw [if_pos hnull]⟩

theorem Loads.of_lacksKey (ht : v.schema.entity? r.target = some target) (h : lacksKey r row) :
    v.Loads rowsWhere r row q (.one none) := by
  rw [lacksKey, Bool.and_eq_true] at h
  have howning : r.cardinality = .oneOwning := beq_iff_eq.1 h.1
  have hone : Related.ofRecords r [] = .one none := by
    rw [Related.ofRecords, Relation.isToMany, howning]
    rfl
  rw [← hone]
  exact .null ht h.2

theorem Loads.of_relatedRows (ht : v.schema.entity? r.target = some target)
    (hrows : v.relatedRows r row = .ok rows) {result : List Row}
    (hresult : v.readRows target q rows = .ok result)
    (hrecords : v.attach target result q = .ok records) :
    v.Loads rowsWhere r row q (.ofRecords r records) := by
  rw [relatedRows] at hrows
  by_cases hnull : (Key.ofRow r.near row).hasNull
  · rw [if_pos hnull] at hrows
    obtain rfl : [] = rows := Except.ok.inj hrows
    obtain rfl := List.subperm_nil.1 (readRows_subperm hresult)
    obtain rfl := List.forall₂_nil_left_iff.1 (attach_eq_ok.1 hrecords).2
    exact .null ht hnull
  · rw [if_neg hnull, Schema.require, ht] at hrows
    refine ⟨target, records, ht, rfl, ?_⟩
    rw [if_neg hnull, findManyWhere]
    change v.rowsWhere target r.far (Key.ofRow r.near row) = .ok rows at hrows
    rw [hrows, Except.ok_bind, hresult, Except.ok_bind, hrecords]

/-! ### The entries of a selection -/

namespace Adds
variable {search : Search} {wanted wanted' : String → Option Query} {related : Related}
  {sub : Option Query}

theorem of_same (hfields : record'.fields = record.fields)
    (hrelations : record'.relations = record.relations)
    (hwanted : ∀ r ∈ e.relations, wanted r.name = none) : v.Adds search e wanted record record' where
  fields := hfields
  relations r hr := by
    rw [hwanted r hr]
    exact congrArg (·.get? r.name) hrelations

theorem attach (he : e.Distinguishes) (hr : e.relation? name = some r)
    (hloads : v.Loads search r record.fields q related) :
    v.Adds search e (fun n => if name = n then some q else none) record
      (record.attach name related) where
  fields := rfl
  relations r' hr' := by
    by_cases hname : name = r'.name
    · obtain rfl : r = r' := by
        rw [hname, (he r' hr').1] at hr
        exact (Option.some.inj hr).symm
      rw [if_pos hname]
      exact ⟨related, by rw [← hname]; exact get?_insert_self .., hloads⟩
    · rw [if_neg hname]
      exact get?_insert_of_ne hname

/-- Of what two selections load, one after the other, that of the second stands. -/
theorem trans {record'' : Record} (h : v.Adds search e wanted record record')
    (h' : v.Adds search e wanted' record' record'') :
    v.Adds search e (fun n => (wanted' n).or (wanted n)) record record'' where
  fields := h'.fields.trans h.fields
  relations r hr := by
    have hfirst := h.relations r hr
    have hsecond := h'.relations r hr
    rw [h.fields] at hsecond
    cases hwanted' : wanted' r.name with
    | none =>
      rw [hwanted'] at hsecond
      rw [Option.none_or, hsecond]
      exact hfirst
    | some q =>
      rw [hwanted'] at hsecond
      exact hsecond

end Adds

/-- A count changes nothing else of a record. -/
theorem yields_attachCount (e : Entity) (record : Record) (wanted : Relation × Option Filter) :
    Yields (v.attachCount e record wanted)
      (fun record' => ∃ n, record' = record.attachCount wanted.1.name n) fun _ => True := by
  refine .ite (fun _ => .error trivial) fun _ => .andThen .any fun rows => ?_
  split
  · exact .pure ⟨_, rfl⟩
  · exact .andThen .any fun target => .andThen .any fun kept => .pure ⟨_, rfl⟩

theorem attachCounts_ok {counts : CountSelection}
    (h : v.attachCounts e record counts = .ok record') :
    record'.fields = record.fields ∧ record'.relations = record.relations := by
  have hfold : ∀ wanted : List (Relation × Option Filter), Yields (wanted.foldlM (v.attachCount e) record)
      (fun record₂ => record₂.fields = record.fields ∧ record₂.relations = record.relations)
      fun _ => True := by
    refine fun wanted => .foldlM ⟨rfl, rfl⟩ fun record₁ hsame p _ => ?_
    refine (yields_attachCount e record₁ p).mono (fun record₂ h => ?_) fun _ _ => trivial
    obtain ⟨n, rfl⟩ := h
    exact hsame
  have hyields : Yields (v.attachCounts e record counts)
      (fun record₂ => record₂.fields = record.fields ∧ record₂.relations = record.relations)
      fun _ => True := by
    cases counts with
    | all => exact hfold _
    | relations entries => exact .andThen .any hfold
  rw [h] at hyields
  exact hyields

/-- The record of a row has what the entries of the query's selection attach, and of its fields those
that are selected. -/
theorem record_eq (hq : q.select = none ∨ q.load = none) (row : Row) :
    v.record e q row = (v.attachAll e (.ofRow row) q.projections).map fun whole =>
      q.select.elim whole fun select => whole.keepFields (Selection.selects select) := by
  obtain ⟨filter, order, select, load, take, skip, distinct, data, skipDuplicates⟩ := q
  cases select with
  | none =>
    cases load with
    | none =>
      rw [record, attach, Query.projections, Option.getD_none, List.nil_append, attachAll]
      rfl
    | some load =>
      rw [record, attach, List.mapM_cons, List.mapM_nil, Query.projections, Option.getD_none,
        List.nil_append, Option.getD_some]
      cases v.attachAll e (.ofRow row) load <;> rfl
  | some select =>
    obtain rfl : load = none := by simpa using hq
    rw [record, attach, List.mapM_cons, List.mapM_nil, Query.projections, Option.getD_none,
      List.append_nil, Option.getD_some]
    cases v.attachAll e (.ofRow row) select <;> rfl

theorem record_ok (h : v.record e q row = .ok record) :
    ∃ whole, v.attachAll e (.ofRow row) q.projections = .ok whole ∧
      record = q.select.elim whole fun select => whole.keepFields (Selection.selects select) := by
  obtain ⟨found, hfound, -⟩ := Except.bind_eq_ok.1 h
  rw [record_eq (attach_ok hfound)] at h
  obtain ⟨whole, hwhole, hrecord⟩ := Except.map_eq_ok.1 h
  exact ⟨whole, hwhole, hrecord.symm⟩

section
variable (he : e.Distinguishes)
include he

theorem adds_attachPlainly (record : Record) (name : String) :
    Yields (v.attachPlainly e record name)
      (v.Adds rowsWhere e (fun n => if name = n then some {} else none) record) fun _ => True := by
  refine .ite (fun _ => .error trivial) fun _ => .ite (fun hfield => .pure ?_) fun _ => ?_
  · refine .of_same rfl rfl fun r hr => if_neg fun hname => ?_
    rw [hname, (he r hr).2.1] at hfield
    cases hfield
  · refine .of_ok (fun record' h => ?_) fun _ _ => trivial
    obtain ⟨r, hr, h⟩ := Except.bind_eq_ok.1 h
    have hr := Option.elim_ok_eq_ok.1 hr
    obtain ⟨⟨⟩, hrequire, h⟩ := Except.bind_eq_ok.1 h
    obtain ⟨target, htarget, -⟩ := Except.bind_eq_ok.1 hrequire
    have ht := Option.elim_ok_eq_ok.1 htarget
    split at h
    · next hlacks =>
      cases h
      exact .attach he hr (.of_lacksKey ht hlacks)
    · obtain ⟨rows, hrows, h⟩ := Except.bind_eq_ok.1 h
      cases h
      have hrecords : v.attach target rows {} = .ok (rows.map .ofRow) := by rw [attach]
      exact .attach he hr (.of_relatedRows ht hrows (readRows_plain rows) hrecords)

theorem adds_attachOne (record : Record) (name : String) (selected : Selected) :
    Yields (v.attachOne e record name selected)
      (v.Adds rowsWhere e (fun n => if name = n then selected.query? else none) record)
      fun _ => True := by
  cases selected with
  | flag wanted =>
    cases wanted with
    | false => exact .ok (.of_same rfl rfl fun _ _ => ite_self none)
    | true =>
      rw [attachOne]
      exact adds_attachPlainly he record name
  | count counts =>
    rw [attachOne]
    refine .ite (fun hcount => ?_) fun _ => adds_attachPlainly he record name
    refine .of_ok (fun record' h => ?_) fun _ _ => trivial
    obtain ⟨hfields, hrelations⟩ := attachCounts_ok h
    -- No relation has the name of the counts.
    exact .of_same hfields hrelations fun r hr =>
      if_neg fun hname => (he r hr).2.2 (hname.symm.trans hcount)
  | nested sub =>
    rw [attachOne]
    refine .ite (fun _ => .error trivial) fun _ => .ite (fun _ => .error trivial) fun _ => ?_
    refine .of_ok (fun record' h => ?_) fun _ _ => trivial
    obtain ⟨r, hr, h⟩ := Except.bind_eq_ok.1 h
    have hr := Option.elim_ok_eq_ok.1 hr
    obtain ⟨target, htarget, h⟩ := Except.bind_eq_ok.1 h
    have ht := Option.elim_ok_eq_ok.1 htarget
    split at h
    · next hlacks =>
      cases h
      exact .attach he hr (.of_lacksKey ht hlacks)
    · obtain ⟨rows, hrows, h⟩ := Except.bind_eq_ok.1 h
      obtain ⟨result, hresult, h⟩ := Except.bind_eq_ok.1 h
      obtain ⟨records, hrecords, h⟩ := Except.bind_eq_ok.1 h
      cases h
      exact .attach he hr (.of_relatedRows ht hrows hresult hrecords)

theorem attachAll_ok {entries : Selection} (h : v.attachAll e record entries = .ok record') :
    v.Adds rowsWhere e (Selection.query? · entries) record record' := by
  induction entries generalizing record with
  | nil =>
    rw [attachAll] at h
    cases h
    exact .of_same rfl rfl fun _ _ => rfl
  | cons entry rest ih =>
    obtain ⟨name, selected⟩ := entry
    rw [attachAll] at h
    obtain ⟨record₁, hone, hrest⟩ := Except.bind_eq_ok.1 h
    have hadds := adds_attachOne (v := v) he record name selected
    rw [hone] at hadds
    exact hadds.trans (ih hrest)

theorem record_shows (h : v.record e q row = .ok record) : v.Shows rowsWhere e q row record := by
  obtain ⟨whole, hwhole, rfl⟩ := record_ok h
  have hadds := attachAll_ok he hwhole
  cases hselect : q.select with
  | none => exact ⟨by rw [hselect]; exact hadds.fields, hadds.relations⟩
  | some select =>
    refine ⟨?_, hadds.relations⟩
    rw [hselect]
    exact congrArg (SortedMap.filter fun name _ => Selection.selects select name) hadds.fields

/-- What a query makes of rows, each on its own. -/
theorem attach_shows (h : v.attach e rows q = .ok records) :
    List.Forall₂ (v.Shows rowsWhere e q) rows records :=
  (attach_eq_ok.1 h).2.imp fun _ _ => record_shows he

end

theorem Shows.mono {search search' : Search} (h : v.Shows search e q row record)
    (hloads : ∀ r ∈ e.relations, ∀ sub related,
      v.Loads search r row sub related → v.Loads search' r row sub related) :
    v.Shows search' e q row record where
  fields := h.fields
  relations r hr := by
    have hrelation := h.relations r hr
    split
    · next hquery =>
      rw [hquery] at hrelation
      exact hrelation
    · next sub hquery =>
      rw [hquery] at hrelation
      obtain ⟨related, hrelated, hloaded⟩ := hrelation
      exact ⟨related, hrelated, hloads r hr sub related hloaded⟩

theorem findManyWhere_plain (search : Search) (v : View) (e : Entity) (fields : List String)
    (key : Key) :
    v.findManyWhere search e fields key {} = (search v e fields key).map (·.map .ofRow) := by
  rw [findManyWhere]
  cases search v e fields key with
  | error err => rfl
  | ok rows =>
    rw [Except.ok_bind, readRows_plain, Except.ok_bind, attach]
    rfl

end View

/-! ### The rows at the other end -/

section
variable {s : Schema} {κ : String → String → NumberClass} {tables : Tables} (h : s.Holds κ tables)
  (hs : s.Resolved) (hkinds : s.KeysOfKinds) {e : Entity} (he : s.entity? e.name = some e)
  {r : Relation} (hr : r ∈ e.relations) {target : Entity} (ht : s.entity? r.target = some target)
  {row : Row} (hrow : row.Within (κ e.name))
include h hs hkinds he hr ht hrow

/-- What a row is joined by keeps to the classes at the other end. -/
theorem Schema.Holds.fits_joined : (Key.ofRow r.near row).Fits (κ target.name) r.far := by
  have hname := hs.name ht
  cases howning : r.isOwning with
  | true =>
    rw [hname]
    exact h.fits_near hs hkinds he (List.mem_filter.2 ⟨hr, howning⟩) hrow
  | false =>
    obtain ⟨t, ht', o, ho, htarget, hnear, hfar⟩ := hs.mirrored he r hr howning
    obtain rfl : target = t := Option.some.inj (ht.symm.trans ht')
    rw [← hnear, ← hfar]
    refine h.fits_link hs hkinds (by rw [hname, ht]) ho ?_
    rw [htarget]
    exact hrow

/-- A look at the rows that a relation joins to a row of a table and a look at all rows. -/
theorem Schema.Holds.rowsWhere_eq_scan (hnames : (target.tableDef.indexes.map (·.name)).Nodup)
    (hnull : (Key.ofRow r.near row).hasNull = false) (tx : Transaction) :
    View.rowsWhere ⟨s, tables, tx⟩ target r.far (Key.ofRow r.near row) =
      Client.scan ⟨s, tables, tx⟩ target r.far (Key.ofRow r.near row) :=
  h.rowsWhere_eq (by rw [hs.name ht, ht]) (.inr hnames) tx (h.fits_joined hs hkinds he hr ht hrow)
    hnull

end

namespace Client

/-- Whatever was done with a client before: what a query attaches to the rows of a table are the
answers to the queries within it among the rows that a look at every row of the target gives. -/
theorem attach_shows_scan {defs : List EntityDef} {s : Schema} (hs : Schema.ofDefs defs = .ok s)
    (hkinds : s.KeysOfKinds) {c₀ : Client} (hc₀ : c₀.Opened s) {κ : String → String → NumberClass}
    (hholds : s.Holds κ c₀.store.tables) {actions : List Action}
    (hactions : ∀ a ∈ actions, a.Regular κ c₀.store.tables)
    (hnames : ∀ e ∈ s.entities.values, (e.tableDef.indexes.map (·.name)).Nodup) {e : Entity}
    (he : s.entity? e.name = some e) (tx : Transaction) {rows : List Row} {q : Query}
    {records : List Record} :
    let v : View := ⟨s, (actions.foldl after c₀).store.tables, tx⟩
    (∀ row ∈ rows, v.tables.Has e.name row) → v.attach e rows q = .ok records →
      List.Forall₂ (v.Shows scan e q) rows records := by
  intro v hrows hrecords
  have hresolved := Schema.Resolved.ofDefs hs
  obtain ⟨-, hheld⟩ := holds_foldl hresolved hkinds hc₀ hholds hactions
  have hloads : ∀ row ∈ rows, ∀ r ∈ e.relations, ∀ sub related,
      v.Loads View.rowsWhere r row sub related → v.Loads scan r row sub related := by
    intro row hrow r hr sub related hloaded
    obtain ⟨target, records, ht, hrelated, hanswer⟩ := hloaded
    refine ⟨target, records, ht, hrelated, ?_⟩
    split at hanswer
    · next hnull => rwa [if_pos hnull]
    · next hnull =>
      have htarget := hnames target (hresolved.mem_values (by rw [hresolved.name ht]; exact ht))
      rw [if_neg hnull, ← hanswer, View.findManyWhere, View.findManyWhere]
      rw [hheld.rowsWhere_eq_scan hresolved hkinds he hr ht (hheld.within (hrows row hrow)) htarget
        (Bool.eq_false_iff.2 hnull)]
  have hshows := View.attach_shows (Schema.distinguishes_ofDefs hs he) hrecords
  exact ((List.forall₂_and_left _ _).2 ⟨hloads, hshows⟩).imp fun row record h => h.2.mono h.1

/-- A transaction that reads of meters and readings. -/
def browse : Transaction := { id := 0, mode := .readOnly, scope := ["meter", "reading"] }

/-- The notes of the readings, and the meters that they are of. -/
def notes : Query := { select := some [("note", .flag true), ("meter", .flag true)] }

/-- What records tell of a reading: the number of its meter as far as it is selected, and the number
of the meter that was loaded. -/
def meters (records : List Record) : List (Option String × Option String) :=
  records.map fun record =>
    ((record.get? "meterId").map Value.text,
      (record.one? "meter").map fun meter => (meter.fields.value "id").text)

/-- The meters are found by a field that is not selected. -/
theorem attach_shows_scan_measured : ∃ (c₀ : Client) (e : Entity) (rows : List Row)
    (records : List Record),
    Schema.ofDefs EntityDef.readings = .ok c₀.schema ∧ c₀.Opened c₀.schema ∧
      c₀.schema.Holds c₀.schema.classes c₀.store.tables ∧ c₀.schema.KeysOfKinds ∧
      (∀ a ∈ measure, a.Regular c₀.schema.classes c₀.store.tables) ∧
      c₀.schema.entity? "reading" = some e ∧
      let c := measure.foldl after c₀
      let v : View := ⟨c₀.schema, c.store.tables, browse⟩
      v.rows e = .ok rows ∧ v.attach e rows notes = .ok records ∧
        meters records = [(none, some "1"), (none, some "2"), (none, some "1")] ∧
        List.Forall₂ (v.Shows scan e notes) rows records := by
  have hruns : (openMemory EntityDef.readings).toOption.any fun c₀ =>
      let c := measure.foldl after c₀
      let v : View := ⟨c₀.schema, c.store.tables, browse⟩
      c₀.schema.KeysOfKinds ∧
        (∀ e ∈ c₀.schema.entities.values, (e.tableDef.indexes.map (·.name)).Nodup) ∧
        (c₀.schema.entity? "reading").any fun e => (v.rows e).toOption.any fun rows =>
          (v.attach e rows notes).toOption.any fun records =>
            meters records = [(none, some "1"), (none, some "2"), (none, some "1")] := by
    decide +kernel
  obtain ⟨c₀, hs, hc₀, hholds, hkinds, hnames, hfound⟩ := exists_openMemory hruns
  obtain ⟨e, he, hfound⟩ := (Option.any_eq_true _ _).1 hfound
  obtain ⟨rows, hrows, hfound⟩ := (Option.any_eq_true _ _).1 hfound
  obtain ⟨records, hrecords, hmeters⟩ := (Option.any_eq_true _ _).1 hfound
  have hrows := Except.toOption_eq_some.1 hrows
  have hrecords := Except.toOption_eq_some.1 hrecords
  have hname : e.name = "reading" := (Schema.Resolved.ofDefs hs).name he
  refine ⟨c₀, e, rows, records, hs, hc₀, hholds, hkinds, regular_measure, he, hrows, hrecords,
    of_decide_eq_true hmeters, ?_⟩
  refine attach_shows_scan hs hkinds hc₀ hholds regular_measure hnames (by rw [hname]; exact he) _
    (fun row hrow => ?_) hrecords
  obtain ⟨t, ht, hlist⟩ := Except.bind_eq_ok.1 hrows
  cases hlist
  exact View.gives_has _ _ _ _ t ht row hrow

/-- The readings of a meter that was never there, and then a meter with the number of one of them. -/
def mismeter : List Action :=
  mismeasure ++ [.ask "meter" (.create (.ofFields [("id", .int twin)])) none]

/-- The readings of the meters, as they are loaded with them. -/
def readingsOf (v : View) (e : Entity) : Read (List (List String)) := do
  let records ← v.attach e (← v.rows e) { load := some [("readings", .flag true)] }
  return records.map fun record =>
    (record.many "readings").map fun reading => (reading.fields.value "id").text

/-- Readings that were put past the engine can be loaded with a meter whose number they do not have,
while the same query among the readings with its number does not find them. -/
theorem attach_shows_mixed : ∃ (c₀ : Client) (meter reading : Entity) (records : List Record),
    Schema.ofDefs EntityDef.readings = .ok c₀.schema ∧ c₀.Opened c₀.schema ∧
      c₀.schema.Holds c₀.schema.classes c₀.store.tables ∧ c₀.schema.KeysOfKinds ∧
      (∀ e ∈ c₀.schema.entities.values, (e.tableDef.indexes.map (·.name)).Nodup) ∧
      c₀.schema.entity? "meter" = some meter ∧ c₀.schema.entity? "reading" = some reading ∧
      let c := mismeter.foldl after c₀
      let v : View := ⟨c₀.schema, c.store.tables, browse⟩
      c.strays "meter" = [] ∧ c.strays "reading" = [] ∧
        readingsOf v meter = .ok [["2", "3"]] ∧
        v.findManyWhere scan reading ["meterId"] ⟨[.int twin]⟩ {} = .ok records ∧
        records.map (fun record => (record.fields.value "id").text) = ["3"] := by
  have hruns : (openMemory EntityDef.readings).toOption.any fun c₀ =>
      let c := mismeter.foldl after c₀
      let v : View := ⟨c₀.schema, c.store.tables, browse⟩
      c₀.schema.KeysOfKinds ∧
        (∀ e ∈ c₀.schema.entities.values, (e.tableDef.indexes.map (·.name)).Nodup) ∧
        c.strays "meter" = [] ∧ c.strays "reading" = [] ∧
        (c₀.schema.entity? "meter").any fun meter => (c₀.schema.entity? "reading").any fun reading =>
          (readingsOf v meter).toOption = some [["2", "3"]] ∧
            (scan v reading ["meterId"] ⟨[.int twin]⟩).toOption.any fun rows =>
              rows.map (fun row => (row.value "id").text) = ["3"] := by
    decide +kernel
  obtain ⟨c₀, hs, hc₀, hholds, hkinds, hnames, hmeters, hreadings, hfound⟩ := exists_openMemory hruns
  obtain ⟨meter, hmeter, hfound⟩ := (Option.any_eq_true _ _).1 hfound
  obtain ⟨reading, hreading, hfound⟩ := (Option.any_eq_true _ _).1 hfound
  obtain ⟨hloaded, hfound⟩ := of_decide_eq_true hfound
  obtain ⟨rows, hrows, hids⟩ := (Option.any_eq_true _ _).1 hfound
  have hrows := Except.toOption_eq_some.1 hrows
  refine ⟨c₀, meter, reading, rows.map .ofRow, hs, hc₀, hholds, hkinds, hnames, hmeter, hreading,
    hmeters, hreadings, Except.toOption_eq_some.1 hloaded, ?_, ?_⟩
  · rw [View.findManyWhere_plain, hrows]
    rfl
  · rw [List.map_map]
    exact of_decide_eq_true hids

end Client

end RelationalStore

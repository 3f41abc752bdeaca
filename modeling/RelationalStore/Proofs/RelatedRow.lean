import RelationalStore.Proofs.FilterSets
import RelationalStore.Proofs.LoadedRelations
import RelationalStore.Proofs.SchemaLinks
import RelationalStore.Proofs.UniqueSelectors

/- The row at the other end of a to-one relation. Filters ask whether any related row passes, an
   order takes the first one, and so does what is loaded. All of them are about one row
   (`View.Meets`) where there is one related row at most.

   That is so where a unique group of the target is among the fields that the relation looks at
   (`Schema.LeadsToOne`): related rows share these values, and no two rows share those of a unique
   group. A foreign key references a unique group, so the relations that hold one lead to one row in
   every schema. The other ends need a foreign key that is unique, which a schema does not ask for:
   without one a row can get a second related row (`Client.related_twice`). -/
namespace RelationalStore
open SortedMap Read

/-- The fields that a relation looks at hold a unique group of its target. -/
def Schema.LeadsToOne (s : Schema) (r : Relation) : Prop :=
  ∃ t ∈ s.entity? r.target, ∃ group ∈ t.uniqueSelectors, group ⊆ r.far

instance (s : Schema) (r : Relation) : Decidable (s.LeadsToOne r) := by
  unfold Schema.LeadsToOne
  infer_instance

/-- A relation that holds the key leads to one row. -/
theorem Schema.leadsToOne_of_owning {defs : List EntityDef} {s : Schema} (hs : ofDefs defs = .ok s)
    {n : String} {e : Entity} (he : s.entity? n = some e) {r : Relation}
    (hr : r ∈ e.owningRelations) : s.LeadsToOne r := by
  obtain ⟨t, ht, -, hunique⟩ := unique_far_ofDefs hs he hr
  exact ⟨t, ht, r.far, hunique, List.Subset.refl _⟩

/-! ### Looks at the other end -/

namespace View

/-- Whether a test holds of a row, or of there being none. -/
def suits (v : View) (target : Entity) (found : Option Row) : RelationTarget → Read Bool
  | .absent => .ok found.isNone
  | .passing f => found.elim (.ok false) fun x => v.lets target x f

/-- Whatever looks from a row along a to-one relation meets this row, or none. -/
structure Meets (v : View) (e : Entity) (r : Relation) (row : Row) (target : Entity)
    (found : Option Row) : Prop where
  related : v.relatedRows r row = .ok found.toList
  /-- Filters, with an operator or without. -/
  is : ∀ t, v.meetsTest e r row { is := some t } = v.suits target found t
  isNot : ∀ t, v.meetsTest e r row { isNot := some t } = Read.not (v.suits target found t)
  nested : ∀ f, v.meetsOne e row r.name (.nested f) = v.suits target found (.passing f)
  isNull : v.meetsOne e row r.name .isNull = v.suits target found .absent
  /-- Orders. -/
  sorted : ∀ clauses, v.leafKeys e (some row) r.name (.relation clauses) =
    v.sortKeys target found clauses
  /-- What is loaded. A query for the related row can leave it out. -/
  loaded : ∀ record : Record, record.fields = row → v.attachOne e record r.name (.flag true) =
    .ok (record.attach r.name (.one (found.map .ofRow)))
  asked : ∀ record : Record, record.fields = row → ∀ q record',
    v.attachOne e record r.name (.nested q) = .ok record' → ∃ answer : Option Record,
      record' = record.attach r.name (.one answer) ∧
        ∀ child ∈ answer, ∃ x ∈ found, v.attach target [x] q = .ok [child]

variable {v : View} {e target : Entity} {r : Relation} {row : Row} {found : Option Row}

/-- One test of one row. -/
theorem anyM_toList (f : Row → Read Bool) :
    found.toList.anyM f = found.elim (.ok false) f := by
  cases found with
  | none => rfl
  | some x =>
    rw [Option.toList_some, List.anyM, Option.elim_some]
    rcases f x with _ | ⟨_ | _⟩ <;> rfl

theorem all_single (a : Read Bool) : Read.all [a, .ok true] = a := by
  rcases a with _ | ⟨_ | _⟩ <;> rfl

theorem all_second (a : Read Bool) : Read.all [.ok true, a] = a := by
  rcases a with _ | ⟨_ | _⟩ <;> rfl

/-- A record of an answer to a query among one row or none is one of this row. -/
theorem attach_readRows_toList {q : Query} {kept : List Row} {records : List Record}
    (hkept : v.readRows target q found.toList = .ok kept)
    (hrecords : v.attach target kept q = .ok records) :
    ∀ child ∈ records.head?, ∃ x ∈ found, v.attach target [x] q = .ok [child] := by
  intro child hchild
  have hlength := (readRows_subperm hkept).length_le
  have hsame := (attach_eq_ok.1 hrecords).2.length_eq
  match kept, records with
  | [], [] => cases hchild
  | [x], [record] =>
    obtain rfl : record = child := by simpa using hchild
    exact ⟨x, by simpa using (readRows_subperm hkept).subset List.mem_cons_self, hrecords⟩
  | [], _ :: _ | [_], [] | [_], _ :: _ :: _ => simp at hsame
  | _ :: _ :: _, _ => cases found <;> simp at hlength

/-- With one related row at most, each look is a look at it. -/
theorem Meets.of_related (he : e.Distinguishes) (hr : r ∈ e.relations) (hone : r.isToMany = false)
    (ht : v.schema.entity? r.target = some target)
    (hrelated : v.relatedRows r row = .ok found.toList) : v.Meets e r row target found := by
  obtain ⟨hrelation, hfield, hcount⟩ := he r hr
  have hmany : ¬ r.isToMany = true := by rw [hone]; exact Bool.false_ne_true
  have hrequire : v.schema.require r.target = .ok target := by rw [Schema.require, ht]; rfl
  have hrequired : e.requireRelation r.name = .ok r := by rw [Entity.requireRelation, hrelation]; rfl
  have hunfield : ¬ (e.field? r.name).isSome = true := by rw [hfield]; exact Bool.false_ne_true
  have hsubject : e.subject r.name = .ok (.relation r) := by rw [Entity.subject, hfield, hrelation]
  have hplain : v.plainTarget e r = .ok target := by
    rw [plainTarget, hrequire, Except.ok_bind, if_neg hmany]
    rfl
  have hsuits (t : RelationTarget) : v.meetsTarget target found.toList t = v.suits target found t := by
    cases t with
    | absent => rw [meetsTarget, suits]; cases found <;> rfl
    | passing f => rw [meetsTarget, suits, anyM_toList]
  have hnone : lacksKey r row = true → found = none := by
    intro hlacks
    rw [lacksKey, Bool.and_eq_true] at hlacks
    rw [relatedRows, if_pos hlacks.2] at hrelated
    exact Option.toList_eq_nil_iff.1 (Except.ok.inj hrelated).symm
  constructor
  case related => exact hrelated
  case is =>
    intro t
    rw [meetsTest_one hrequire hrelated hmany, Option.elim_some, Option.elim_none, all_single, hsuits]
  case isNot =>
    intro t
    rw [meetsTest_one hrequire hrelated hmany, Option.elim_some, Option.elim_none, all_second, hsuits]
  case nested =>
    intro f
    rw [meetsOne, hsubject, Except.ok_bind]
    show (v.plainTarget e r >>= _) = _
    rw [hplain, Except.ok_bind, hrelated, Except.ok_bind, anyM_toList, suits]
  case isNull =>
    rw [meetsOne, meetsPlainly, hsubject, Except.ok_bind]
    show (v.plainTarget e r >>= _) = _
    rw [hplain, Except.ok_bind]
    show (v.relatedRows r row >>= _) = _
    rw [hrelated, Except.ok_bind, suits]
    cases found <;> rfl
  case sorted =>
    intro clauses
    rw [leafKeys, hrequired, Except.ok_bind, if_neg hmany, hrequire]
    show (v.oneRelated? r (some row) >>= _) = _
    rw [oneRelated?, hrelated]
    cases found <;> rfl
  case loaded =>
    rintro record rfl
    rw [attachOne, attachPlainly, if_neg hcount, if_neg hunfield, hrequired, Except.ok_bind, hrequire]
    show (if lacksKey r record.fields = true then _ else _) = _
    split
    · next hlacks =>
      rw [hnone hlacks]
      rfl
    · rw [hrelated, Except.ok_bind, Related.ofRecords, if_neg hmany]
      cases found <;> rfl
  case asked =>
    rintro record rfl q record' h
    rw [attachOne, if_neg hcount, if_neg hunfield, hrequired, Except.ok_bind, hrequire,
      Except.ok_bind] at h
    split at h
    · cases h
      exact ⟨none, rfl, by simp⟩
    · rw [hrelated, Except.ok_bind] at h
      obtain ⟨kept, hkept, h⟩ := Except.bind_eq_ok.1 h
      obtain ⟨records, hrecords, h⟩ := Except.bind_eq_ok.1 h
      cases h
      rw [Related.ofRecords, if_neg hmany]
      exact ⟨records.head?, rfl, attach_readRows_toList hkept hrecords⟩

end View

/-! ### One related row at most -/

theorem toList_head?_of_length_le_one {α : Type} {l : List α} (h : l.length ≤ 1) :
    l.head?.toList = l := by
  match l, h with
  | [], _ => rfl
  | [a], _ => rfl

/-- In tables without shared values a relation that leads to one row joins one row at most. -/
theorem Schema.Holds.exists_related {s : Schema} {κ : String → String → NumberClass} {tables : Tables}
    (h : s.Holds κ tables) (hs : s.Resolved) (hkinds : s.KeysOfKinds) (hunique : tables.Unique)
    {e : Entity} (he : s.entity? e.name = some e) {r : Relation} (hr : r ∈ e.relations)
    (hleads : s.LeadsToOne r) {target : Entity} (ht : s.entity? r.target = some target)
    (hnames : (target.tableDef.indexes.map (·.name)).Nodup) {row : Row}
    (hrow : row.Within (κ e.name)) {tx : Transaction} {all : List Row}
    (hall : View.rows ⟨s, tables, tx⟩ target = .ok all) : ∃ found : Option Row,
      View.relatedRows ⟨s, tables, tx⟩ r row = .ok found.toList ∧
        ∀ x, x ∈ found ↔ x ∈ all ∧ (Key.ofRow r.near row).hasNull = false ∧
          compare (Key.ofRow r.far x) (Key.ofRow r.near row) = .eq := by
  have hself : s.entity? target.name = some target := by rw [hs.name ht, ht]
  have hrequire : s.require r.target = .ok target := by rw [Schema.require, ht]; rfl
  cases hnull : (Key.ofRow r.near row).hasNull with
  | true =>
    refine ⟨none, ?_, by simp⟩
    rw [View.relatedRows, if_pos hnull]
    rfl
  | false =>
    have hfits := h.fits_joined hs hkinds he hr ht hrow
    have hscan := h.rowsWhere_eq_scan hs hkinds he hr ht hrow hnames hnull tx
    rw [Client.scan, hall] at hscan
    obtain ⟨t, htable, hlist⟩ := Except.bind_eq_ok.1 hall
    obtain ⟨-, -, htable⟩ := Transaction.table_ok htable
    cases hlist
    have hhas {x : Row} (hx : x ∈ t.toList) : tables.Has target.name x := ⟨t, htable, hx⟩
    obtain ⟨t', ht', group, hgroup, hsubset⟩ := hleads
    obtain rfl : target = t' := Option.some.inj (ht.symm.trans ht')
    -- Two rows that are joined share all fields that are looked at, so they share the unique group.
    have hone : (t.toList.filter fun x => (Key.ofRow r.far x).equiv (Key.ofRow r.near row)).length ≤ 1 := by
      refine (h.proper.proper htable).length_filter_le_one fun x hx y hy hxkey hykey => ?_
      have hxkey := Key.equiv_iff.1 hxkey
      have hykey := Key.equiv_iff.1 hykey
      have hfar {z : Row} (hz : z ∈ t.toList) : (Key.ofRow r.far z).Fits (κ target.name) r.far :=
        (h.within (hhas hz)).fits.key
      have hshared := (Key.compare_isLE_trans _ _).eq_trans (hfar hx) hfits (hfar hy) hxkey
        (Std.OrientedCmp.eq_symm hykey)
      have hvalues := Key.hasNull_ofRow.1 ((Key.hasNull_eq_of_compare hxkey).trans hnull)
      exact h.eq_of_shares hself hunique hgroup (hhas hx) (hhas hy)
        (Key.hasNull_ofRow.2 fun c hc => hvalues c (hsubset hc))
        (Key.compare_ofRow.2 fun c hc => Key.compare_ofRow.1 hshared c (hsubset hc))
    have hrelated : View.relatedRows ⟨s, tables, tx⟩ r row =
        .ok (t.toList.filter fun x => (Key.ofRow r.far x).equiv (Key.ofRow r.near row)) := by
      rw [View.relatedRows, if_neg (by rw [hnull]; exact Bool.false_ne_true)]
      exact (congrArg (· >>= _) hrequire).trans hscan
    have hlist := toList_head?_of_length_le_one hone
    refine ⟨_, hrelated.trans (congrArg Except.ok hlist.symm), fun x => ?_⟩
    refine Option.mem_toList.symm.trans ?_
    rw [hlist, List.mem_filter, Key.equiv_iff]
    simp

namespace Client

/-- Whatever was done with a client before: where a to-one relation holds the key, or the key at its
other end is unique, there is one related row at most, and filters, orders and loading are all about
it. -/
theorem meets_related {defs : List EntityDef} {s : Schema} (hs : Schema.ofDefs defs = .ok s)
    (hkinds : s.KeysOfKinds) {c₀ : Client} (hc₀ : c₀.Opened s) {κ : String → String → NumberClass}
    (hholds : s.Holds κ c₀.store.tables) {actions : List Action}
    (hactions : ∀ a ∈ actions, a.Regular κ c₀.store.tables)
    (hnames : ∀ e ∈ s.entities.values, (e.tableDef.indexes.map (·.name)).Nodup) {e : Entity}
    (he : s.entity? e.name = some e) {r : Relation} (hr : r ∈ e.relations)
    (hone : r.isToMany = false) (hkey : r.isOwning = true ∨ s.LeadsToOne r) (tx : Transaction) :
    let v : View := ⟨s, (actions.foldl after c₀).store.tables, tx⟩
    ∃ target, s.entity? r.target = some target ∧ ∀ all row, v.rows target = .ok all →
      v.tables.Has e.name row → ∃ found : Option Row, v.Meets e r row target found ∧
        ∀ x, x ∈ found ↔ x ∈ all ∧ (Key.ofRow r.near row).hasNull = false ∧
          compare (Key.ofRow r.far x) (Key.ofRow r.near row) = .eq := by
  intro v
  have hresolved := Schema.Resolved.ofDefs hs
  obtain ⟨-, hheld⟩ := holds_foldl hresolved hkinds hc₀ hholds hactions
  have hunique := unique_foldl hresolved hkinds hc₀ hholds hactions
  have hleads : s.LeadsToOne r :=
    hkey.elim (fun howning => Schema.leadsToOne_of_owning hs he (List.mem_filter.2 ⟨hr, howning⟩)) id
  obtain ⟨target, ht⟩ := hresolved.target he r hr
  refine ⟨target, ht, fun all row hall hrow => ?_⟩
  have htarget := hnames target (hresolved.mem_values (by rw [hresolved.name ht, ht]))
  obtain ⟨found, hrelated, hfound⟩ := hheld.exists_related hresolved hkinds hunique he hr hleads ht
    htarget (hheld.within hrow) hall
  exact ⟨found, .of_related (Schema.distinguishes_ofDefs hs he) hr hone ht hrelated, hfound⟩

end Client

/-! ### Users and profiles -/

/-- Users with a profile each, whose key to the user is unique or not. -/
def EntityDef.profiles (unique : Bool) : List EntityDef :=
  [{ name := "user", fields := [{ name := "id", kind := .int, id := true }],
     relations := [.one "profile" "profile"] },
   { name := "profile",
     fields := [{ name := "id", kind := .int, id := true },
       { name := "userId", kind := .int, unique := unique }],
     relations := [.owning "user" "user" ["userId"] ["id"]] }]

namespace Client

/-- A transaction that reads of users and profiles. -/
def visit : Transaction := { id := 0, mode := .readOnly, scope := ["profile", "user"] }

/-- Write data that creates a profile of the number. -/
def withProfile (id : Int) : String × FieldWrite :=
  ("profile", .relation { create := [⟨[("id", .literal (.int id))]⟩] })

/-- A user with a profile. -/
def join : List Action :=
  [.ask "user" (.create { data := some (.one ⟨[("id", .literal (.int 1)), withProfile 10]⟩) }) none]

/-- Another profile for the user. -/
def rejoin : List Action :=
  [.ask "user" (.update
    { filter := some (Filter.whereEquals {} "id" (.int 1)),
      data := some (.one ⟨[withProfile 11]⟩) }) none]

theorem regular_rejoin {κ : String → String → NumberClass} {first : Tables} :
    ∀ a ∈ join ++ rejoin, a.Regular κ first := by
  intro a ha
  simp only [join, rejoin, List.cons_append, List.nil_append, List.mem_cons, List.not_mem_nil,
    or_false] at ha
  rcases ha with rfl | rfl
  · exact ⟨_, .inl .create⟩
  · exact ⟨_, .inl .update⟩

/-- What a look along the relation of a row that has a number gives. -/
def along {α : Type} (c : Client) (entity name : String) (id : Int)
    (look : View → Entity → Relation → Row → Read α) : Option α := do
  let e ← c.schema.entity? entity
  let r ← e.relation? name
  let v : View := ⟨c.schema, c.store.tables, { id := 0, mode := .readOnly, scope := [entity, r.target] }⟩
  let row ← (← (v.row? e ⟨[.int id]⟩).toOption)
  (look v e r row).toOption

/-- The numbers of the related rows. -/
def relatedNumbers (v : View) (_ : Entity) (r : Relation) (row : Row) : Read (List String) := do
  return (← v.relatedRows r row).map fun x => (x.value "id").text

/-- Whether a filter says that the related row has a number. -/
def isNumber (id : Int) (v : View) (e : Entity) (r : Relation) (row : Row) : Read Bool :=
  v.meetsTest e r row { is := some (.passing (Filter.whereEquals {} "id" (.int id))) }

/-- The number of the record that is loaded. -/
def loadedNumber (v : View) (e : Entity) (r : Relation) (row : Row) : Read (Option String) := do
  let record ← v.attachOne e (.ofRow row) r.name (.flag true)
  return (record.one? r.name).map fun related => (related.fields.value "id").text

/-- With a unique key to the user a second profile is refused. -/
theorem meets_related_profile : ∃ (c₀ : Client) (e : Entity) (r : Relation) (row : Row)
    (target : Entity) (found : Option Row),
    Schema.ofDefs (EntityDef.profiles true) = .ok c₀.schema ∧ c₀.Opened c₀.schema ∧
      c₀.schema.Holds c₀.schema.classes c₀.store.tables ∧ c₀.schema.KeysOfKinds ∧
      (∀ e ∈ c₀.schema.entities.values, (e.tableDef.indexes.map (·.name)).Nodup) ∧
      c₀.schema.entity? "user" = some e ∧ r ∈ e.relations ∧ r.isToMany = false ∧
      r.isOwning = false ∧ c₀.schema.LeadsToOne r ∧
      let v : View := ⟨c₀.schema, ((join ++ rejoin).foldl after c₀).store.tables, visit⟩
      v.tables.Has "user" row ∧ v.Meets e r row target found ∧
        found.toList.map (fun x => (x.value "id").text) = ["10"] := by
  have hruns : (openMemory (EntityDef.profiles true)).toOption.any fun c₀ =>
      let v : View := ⟨c₀.schema, ((join ++ rejoin).foldl after c₀).store.tables, visit⟩
      c₀.schema.KeysOfKinds ∧
        (∀ e ∈ c₀.schema.entities.values, (e.tableDef.indexes.map (·.name)).Nodup) ∧
        (c₀.schema.entity? "user").any fun e => (e.relation? "profile").any fun r =>
          (r.isToMany = false ∧ r.isOwning = false ∧ c₀.schema.LeadsToOne r) ∧
          (v.row? e ⟨[.int 1]⟩).toOption.any fun row => row.any fun row =>
            (c₀.schema.entity? r.target).any fun target => (v.rows target).toOption.isSome ∧
              (v.relatedRows r row).toOption.any fun rows =>
                rows.map (fun x => (x.value "id").text) = ["10"] := by
    decide +kernel
  obtain ⟨c₀, hs, hc₀, hholds, hkinds, hnames, hfound⟩ := exists_openMemory hruns
  obtain ⟨e, he, hfound⟩ := (Option.any_eq_true _ _).1 hfound
  obtain ⟨r, hr, hfound⟩ := (Option.any_eq_true _ _).1 hfound
  obtain ⟨⟨hone, howning, hleads⟩, hfound⟩ := of_decide_eq_true hfound
  obtain ⟨looked, hlooked, hfound⟩ := (Option.any_eq_true _ _).1 hfound
  obtain ⟨row, rfl, hjoined⟩ := (Option.any_eq_true _ _).1 hfound
  obtain ⟨target, ht, hfound⟩ := (Option.any_eq_true _ _).1 hjoined
  obtain ⟨hall, hfound⟩ := of_decide_eq_true hfound
  obtain ⟨all, hall⟩ := Option.isSome_iff_exists.1 hall
  obtain ⟨rows, hrows, hnumbers⟩ := (Option.any_eq_true _ _).1 hfound
  have hname : e.name = "user" := (Schema.Resolved.ofDefs hs).name he
  have hr : r ∈ e.relations := List.mem_of_find?_eq_some hr
  have hrow : Tables.Has ((join ++ rejoin).foldl after c₀).store.tables e.name row := by
    have hread := (View.gives_has c₀.schema ((join ++ rejoin).foldl after c₀).store.tables
      visit).row? e ⟨[.int 1]⟩
    rw [Except.toOption_eq_some.1 hlooked] at hread
    exact hread row rfl
  obtain ⟨target', ht', hmeets⟩ := meets_related hs hkinds hc₀ hholds regular_rejoin hnames
    (by rw [hname]; exact he) hr hone (.inr hleads) visit
  obtain rfl : target = target' := Option.some.inj (ht.symm.trans ht')
  obtain ⟨found, hmeets, -⟩ := hmeets all row (Except.toOption_eq_some.1 hall) hrow
  have hsame := hmeets.related
  rw [Except.toOption_eq_some.1 hrows] at hsame
  rw [hname] at hrow
  refine ⟨c₀, e, r, row, target, found, hs, hc₀, hholds, hkinds, hnames, he, hr, hone, howning,
    hleads, hrow, hmeets, ?_⟩
  rw [← Except.ok.inj hsame]
  exact of_decide_eq_true hnumbers

/-- Without one a user gets a second profile. A filter finds either of them, and one of them is loaded
with the user. -/
theorem related_twice : ∃ c₀ : Client,
    Schema.ofDefs (EntityDef.profiles false) = .ok c₀.schema ∧ c₀.Opened c₀.schema ∧
      c₀.schema.Holds c₀.schema.classes c₀.store.tables ∧ c₀.schema.KeysOfKinds ∧
      (∀ e ∈ c₀.schema.entities.values, (e.tableDef.indexes.map (·.name)).Nodup) ∧
      (∃ e ∈ c₀.schema.entity? "user", ∃ r ∈ e.relation? "profile", r.isToMany = false) ∧
      let c := (join ++ rejoin).foldl after c₀
      c.along "user" "profile" 1 relatedNumbers = some ["10", "11"] ∧
        c.along "user" "profile" 1 (isNumber 10) = some true ∧
        c.along "user" "profile" 1 (isNumber 11) = some true ∧
        c.along "user" "profile" 1 loadedNumber = some (some "10") :=
  exists_openMemory (by decide +kernel)

end Client

/-- Places, stops at them, and riders who get on at a stop. A stop has the number of its place as a
number of another kind, and a rider that of the stop. -/
def EntityDef.riders : List EntityDef :=
  EntityDef.placedStops ++
    [{ name := "rider",
       fields := [{ name := "id", kind := .int, id := true }, { name := "km", kind := .float }],
       relations := [.owning "stop" "stop" ["km"] ["km"]] }]

namespace Client

/-- A rider who gets on at the second of two stops, and the first one comes to a place that is equal to
that of the second. -/
def ride : List Action :=
  [.ask "place" (.create (.ofFields [("id", .int (crowded - 1))])) none,
   .ask "place" (.create (.ofFields [("id", .int crowded)])) none,
   .ask "place" (.create (.ofFields [("id", .int (crowded + 1))])) none,
   placeStop 1 (crowded - 1), placeStop 2 (crowded + 1),
   .ask "rider" (.create { data := some (.one ⟨[("id", .literal (.int 1)), ("stop", .relation
     { connect := [Filter.whereEquals {} "id" (.int 2)] })]⟩) }) none,
   moveStop 1]

/-- A foreign key with numbers of another kind can lead to two rows that have unique numbers. -/
theorem related_mixed : ∃ c₀ : Client,
    Schema.ofDefs EntityDef.riders = .ok c₀.schema ∧ c₀.Opened c₀.schema ∧
      c₀.schema.Holds c₀.schema.classes c₀.store.tables ∧
      (∀ e ∈ c₀.schema.entities.values, (e.tableDef.indexes.map (·.name)).Nodup) ∧
      (∃ e ∈ c₀.schema.entity? "rider", ∃ r ∈ e.relation? "stop", r.isOwning = true) ∧
      (ride.foldl after c₀).along "rider" "stop" 1 relatedNumbers = some ["1", "2"] :=
  exists_openMemory (by decide +kernel)

end Client

end RelationalStore

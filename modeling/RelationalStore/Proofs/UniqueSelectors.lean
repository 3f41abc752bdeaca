import RelationalStore.Proofs.ConformingRows
import RelationalStore.Proofs.ReadPipeline
import RelationalStore.Proofs.SelectorEqualities
import RelationalStore.Proofs.UniqueRows

/- Unique selectors. A selector pins a group of fields where it equates each of them with a value
   (`Entity.Pins`). The rows that it lets through share these values, so in a table without shared
   values there is one at most if the group is a unique one (`Schema.Holds.eq_of_lets`).

   `findUnique` looks for the row with the values of the first unique group that has them all, and
   asks whether the selector lets it through. Every row that the selector lets through has these
   values, so the answer is that of a look at all rows (`Schema.Holds.findUnique_eq`). -/
namespace RelationalStore
open SortedMap Read

/-! ### Pinned groups -/

namespace Entity

/-- The selector equates each field of the group with a value. -/
def Pins (e : Entity) (f : Filter) (group : List String) : Prop :=
  ∀ name ∈ group, ∃ p ∈ e.equalities f, p.1 = name ∧ p.2.isNull = false

/-- The group is one of fields that are no lists. -/
def Scalars (e : Entity) (group : List String) : Prop :=
  ∀ name ∈ group, ∃ field ∈ e.field? name, field.list = false

instance (e : Entity) (f : Filter) (group : List String) : Decidable (e.Pins f group) := by
  unfold Pins
  infer_instance

instance (e : Entity) (group : List String) : Decidable (e.Scalars group) := by
  unfold Scalars
  infer_instance

end Entity

/-! ### The indexes of unique groups -/

namespace Entity
variable {e : Entity} {group : List String}

theorem subset_foldl_addKeyIndex {path : List String} {relations : List Relation}
    {indexes : List IndexDef} : indexes ⊆ relations.foldl (addKeyIndex path) indexes := by
  induction relations generalizing indexes with
  | nil => exact List.Subset.refl _
  | cons r rest ih =>
    refine List.Subset.trans ?_ ih
    unfold addKeyIndex
    split
    · exact List.Subset.refl _
    · exact List.subset_append_left _ _

/-- What is added are indexes over foreign keys, none of them unique. -/
theorem mem_foldl_addKeyIndex {path : List String} {relations : List Relation}
    {indexes : List IndexDef} {i : IndexDef} (hi : i ∈ relations.foldl (addKeyIndex path) indexes) :
    i ∈ indexes ∨ ∃ r ∈ relations, i = ⟨IndexDef.nameOf r.near, r.near, false⟩ := by
  induction relations generalizing indexes with
  | nil => exact .inl hi
  | cons r rest ih =>
    rcases ih hi with hi | ⟨r', hr', hadded⟩
    · unfold addKeyIndex at hi
      split at hi
      · exact .inl hi
      · rcases List.mem_append.1 hi with hi | hi
        · exact .inl hi
        · exact .inr ⟨r, List.mem_cons_self, List.mem_singleton.1 hi⟩
    · exact .inr ⟨r', List.mem_cons_of_mem r hr', hadded⟩

/-- An index has the name of its fields. -/
theorem name_of_mem_indexes {i : IndexDef} (hi : i ∈ e.tableDef.indexes) :
    i.name = IndexDef.nameOf i.fields := by
  rcases mem_foldl_addKeyIndex hi with hi | ⟨r, -, rfl⟩
  · obtain ⟨fields, -, rfl⟩ := List.mem_map.1 hi
    rfl
  · rfl

/-- A unique index is over a unique group. -/
theorem group_of_unique {i : IndexDef} (hi : i ∈ e.tableDef.indexes) (hu : i.unique = true) :
    i.fields ∈ e.uniqueGroups := by
  rcases mem_foldl_addKeyIndex hi with hi | ⟨r, -, rfl⟩
  · obtain ⟨fields, hfields, rfl⟩ := List.mem_map.1 hi
    exact hfields
  · cases hu

/-- A unique group has an index of its own. -/
theorem mem_indexes_of_group (hgroup : group ∈ e.uniqueGroups) :
    ⟨IndexDef.nameOf group, group, true⟩ ∈ e.tableDef.indexes :=
  subset_foldl_addKeyIndex (List.mem_map_of_mem hgroup)

end Entity

namespace Table

/-- The rows with a value of a unique group are found under the name of the group. -/
theorem indexFor?_group {κ : String → NumberClass} {t : Table} {e : Entity} {group : List String}
    (h : t.Sound κ) (hd : t.definition = e.tableDef) (hgroup : group ∈ e.uniqueGroups) :
    t.indexFor? group = some (IndexDef.nameOf group) := by
  have hmem := Entity.mem_indexes_of_group hgroup
  rw [← hd, ← h.definitions, List.mem_map] at hmem
  obtain ⟨i, hi, hdefinition⟩ := hmem
  rw [indexFor?]
  cases hfind : t.indexes.find? (·.definition.fields == group) with
  | none =>
    have hnot := List.find?_eq_none.1 hfind i hi
    simp [hdefinition] at hnot
  | some j =>
    have hfields : j.definition.fields = group := by simpa using List.find?_some hfind
    have hj := h.index_definition (List.mem_of_find?_eq_some hfind)
    rw [hd] at hj
    rw [Option.map_some, Entity.name_of_mem_indexes hj, hfields]

end Table

/-! ### Keys that are equal in each part -/

theorem Value.compareItems_map {α : Type} {f g : α → Value} {l : List α} :
    compareItems (l.map f) (l.map g) = .eq ↔ ∀ a ∈ l, compare (f a) (g a) = .eq := by
  induction l with
  | nil => exact ⟨nofun, fun _ => rfl⟩
  | cons a l ih =>
    rw [List.map_cons, List.map_cons, compareItems, List.forall_mem_cons, ← ih]
    cases compare (f a) (g a) <;> simp

/-- Two rows share the value of a group if they share that of each field. -/
theorem Key.compare_ofRow {columns : List String} {x y : Row} :
    compare (Key.ofRow columns x) (Key.ofRow columns y) = .eq ↔
      ∀ c ∈ columns, compare (x.value c) (y.value c) = .eq :=
  Value.compareItems_map

theorem Key.hasNull_ofRow {columns : List String} {row : Row} :
    (Key.ofRow columns row).hasNull = false ↔ ∀ c ∈ columns, (row.value c).isNull = false := by
  simp [Key.hasNull, Key.ofRow]

/-! ### Rows that share a value of a unique group -/

/-- Where rows that pass a test are the same, one row of a table passes it at most. -/
theorem Table.Proper.length_filter_le_one {κ : String → NumberClass} {t : Table} (h : t.Proper κ)
    {p : Row → Bool} (hone : ∀ x ∈ t.toList, ∀ y ∈ t.toList, p x = true → p y = true → x = y) :
    (t.toList.filter p).length ≤ 1 := by
  have hpairs := h.sorted.pairwise_toList.filter p
  have hmem {row : Row} (hrow : row ∈ t.toList.filter p) := List.mem_filter.1 hrow
  match hkept : t.toList.filter p with
  | [] => simp
  | [_] => simp
  | x :: y :: rest =>
    rw [hkept] at hpairs hmem
    obtain ⟨hx, hpx⟩ := hmem List.mem_cons_self
    obtain ⟨hy, hpy⟩ := hmem (List.mem_cons_of_mem _ List.mem_cons_self)
    refine absurd ?_ (List.rel_of_pairwise_cons hpairs List.mem_cons_self)
    rw [hone x hx y hy hpx hpy]
    exact Std.ReflOrd.compare_self

/-- In tables without shared values, rows that share a value of a unique group are the same. -/
theorem Schema.Holds.eq_of_shares {s : Schema} {κ : String → String → NumberClass} {tables : Tables}
    {e : Entity} {group : List String} {x y : Row} (h : s.Holds κ tables)
    (he : s.entity? e.name = some e) (hunique : tables.Unique) (hgroup : group ∈ e.uniqueSelectors)
    (hx : tables.Has e.name x) (hy : tables.Has e.name y) (hnull : (Key.ofRow group x).hasNull = false)
    (hshared : compare (Key.ofRow group x) (Key.ofRow group y) = .eq) : x = y := by
  rcases List.mem_cons.1 hgroup with rfl | hgroup
  · exact h.eq_of_keyOf he hx hy hshared
  · obtain ⟨t, ht, hx⟩ := hx
    obtain ⟨t', ht', hy⟩ := hy
    obtain rfl : t = t' := Option.some.inj (ht.symm.trans ht')
    obtain ⟨k, hx⟩ := Table.mem_toList_iff.1 hx
    obtain ⟨l, hy⟩ := Table.mem_toList_iff.1 hy
    have hi := Entity.mem_indexes_of_group hgroup
    rw [← h.definition e t he ht] at hi
    have hsame := hunique e.name t ht _ hi rfl _ hx _ hy hnull
      ⟨(Key.hasNull_eq_of_compare hshared).symm.trans hnull, hshared⟩
    exact congrArg Prod.snd hsame

/-! ### What a selector leads to -/

theorem Read.findM?_ok {α : Type} {l : List α} {f : α → Read Bool} {p : α → Bool}
    (h : ∀ a ∈ l, f a = .ok (p a)) : l.findM? f = .ok (l.find? p) := by
  induction l with
  | nil => rfl
  | cons a l ih =>
    obtain ⟨ha, hl⟩ := List.forall_mem_cons.1 h
    rw [List.findM?, ha, Except.ok_bind, List.find?_cons]
    cases p a with
    | true => rfl
    | false => exact ih hl

namespace Schema.Holds
variable {s : Schema} {κ : String → String → NumberClass} {tables : Tables} {e : Entity}
  {f : Filter} {group : List String} {tx : Transaction} {x y : Row}

section
variable (h : s.Holds κ tables) (hs : s.Resolved) (he : s.entity? e.name = some e)
include h hs he

/-- What a literal stands for keeps to the class of its field. -/
theorem within_coerce {name : String} {field : FieldDef} (hfield : e.field? name = some field)
    {literal : Json} {v : Value} (hv : e.coerce field literal = .ok v) :
    v.within (κ e.name name) ∧ v.isNull = literal.isNull := by
  have hyields := e.coerce_yields field literal
  rw [hv] at hyields
  have hname : field.name = name := by simpa using List.find?_some hfield
  rw [h.classes e he, ← hname, Schema.classes_field hs he (List.mem_of_find?_eq_some hfield)]
  exact ⟨field.within_of_takes hyields.1, hyields.2⟩

/-- The rows that a selector lets through share a value of the group that it pins. -/
theorem shares_of_lets (htells : e.TellsGroups) (hscalars : e.Scalars group)
    (hpins : e.Pins f group) (hx : tables.Has e.name x) (hy : tables.Has e.name y)
    (hxlets : View.lets ⟨s, tables, tx⟩ e x f = .ok true)
    (hylets : View.lets ⟨s, tables, tx⟩ e y f = .ok true) :
    (Key.ofRow group x).hasNull = false ∧
      compare (Key.ofRow group x) (Key.ofRow group y) = .eq := by
  have hshared : ∀ name ∈ group, (x.value name).isNull = false ∧
      compare (x.value name) (y.value name) = .eq := by
    intro name hname
    obtain ⟨field, hfield, hlist⟩ := hscalars name hname
    obtain ⟨⟨n, literal⟩, hmem, hsame, hnull⟩ := hpins name hname
    obtain rfl : name = n := hsame.symm
    obtain ⟨v, hv, hxv⟩ := View.equal_of_lets htells hfield hlist f hxlets hmem
    obtain ⟨v', hv', hyv⟩ := View.equal_of_lets htells hfield hlist f hylets hmem
    obtain rfl : v = v' := Except.ok.inj (hv.symm.trans hv')
    obtain ⟨hwithin, hvnull⟩ := h.within_coerce hs he hfield hv
    rw [hnull] at hvnull
    have hxv := hxv hvnull
    refine ⟨(Value.isNull_eq_of_compare hxv).trans hvnull, ?_⟩
    exact (Value.compare_isLE_trans _).eq_trans (h.within hx name) hwithin (h.within hy name) hxv
      (Std.OrientedCmp.eq_symm (hyv hvnull))
  exact ⟨Key.hasNull_ofRow.2 fun c hc => (hshared c hc).1,
    Key.compare_ofRow.2 fun c hc => (hshared c hc).2⟩

section
variable (hunique : tables.Unique) (htells : e.TellsGroups) (hgroup : group ∈ e.uniqueSelectors)
  (hscalars : e.Scalars group) (hpins : e.Pins f group)
include hunique htells hgroup hscalars hpins

/-- Of the rows of a table without shared values a selector that pins a unique group lets through
one at most. -/
theorem eq_of_lets (hx : tables.Has e.name x) (hy : tables.Has e.name y)
    (hxlets : View.lets ⟨s, tables, tx⟩ e x f = .ok true)
    (hylets : View.lets ⟨s, tables, tx⟩ e y f = .ok true) : x = y := by
  obtain ⟨hnull, hshared⟩ := h.shares_of_lets hs he htells hscalars hpins hx hy hxlets hylets
  exact h.eq_of_shares he hunique hgroup hx hy hnull hshared

/-- At most one row of the table is let through. -/
theorem length_filter_lets {rows : List Row} (hrows : View.rows ⟨s, tables, tx⟩ e = .ok rows) :
    (rows.filter fun row => (View.lets ⟨s, tables, tx⟩ e row f).toOption.any id).length ≤ 1 := by
  obtain ⟨t, ht, hlist⟩ := Except.bind_eq_ok.1 hrows
  cases hlist
  obtain ⟨-, -, ht⟩ := Transaction.table_ok ht
  have hlets {row : Row} (hrow : (View.lets ⟨s, tables, tx⟩ e row f).toOption.any id) :
      View.lets ⟨s, tables, tx⟩ e row f = .ok true := by
    obtain ⟨held, hheld, hid⟩ := (Option.any_eq_true _ _).1 hrow
    rw [Except.toOption_eq_some.1 hheld, show held = true from hid]
  refine (h.proper.proper ht).length_filter_le_one fun x hx y hy hpx hpy => ?_
  exact h.eq_of_lets hs he hunique htells hgroup hscalars hpins ⟨t, ht, hx⟩ ⟨t, ht, hy⟩
    (hlets hpx) (hlets hpy)

end

end

/-- Whichever way the row with a value of a unique group is looked for, it is found among all rows. -/
theorem candidates_eq (h : s.Holds κ tables) (he : s.entity? e.name = some e)
    (hnames : (e.tableDef.indexes.map (·.name)).Nodup) (hgroup : group ∈ e.uniqueSelectors)
    {key : Key} (hkey : key.Fits (κ e.name) group) (hnull : key.hasNull = false) {α : Type}
    (finish : List Row → Read α) :
    (if group = e.idFields then do finish (← View.row? ⟨s, tables, tx⟩ e key).toList
      else do finish (← (← View.table ⟨s, tables, tx⟩ e).lookup (IndexDef.nameOf group) key)) =
      (View.rows ⟨s, tables, tx⟩ e >>= fun rows =>
        finish (rows.filter fun row => (Key.ofRow group row).equiv key)) := by
  have hrows := h.rowsWhere_eq he (.inr hnames) tx hkey hnull
  rw [View.rowsWhere] at hrows
  rw [View.row?]
  cases ht : View.table ⟨s, tables, tx⟩ e with
  | error err =>
    rw [View.rows, ht]
    split <;> rfl
  | ok t =>
    obtain ⟨-, -, htable⟩ := Transaction.table_ok ht
    rw [View.rows, ht] at hrows ⊢
    split
    · next hid =>
      rw [Except.ok_bind, if_pos hid] at hrows
      exact congrArg (· >>= finish) hrows
    · next hid =>
      have hgroup := (List.mem_cons.1 hgroup).resolve_left hid
      have hindex :=
        Table.indexFor?_group (h.proper.proper htable).toSound (h.definition e t he htable) hgroup
      rw [Except.ok_bind, if_neg hid, hindex] at hrows
      exact congrArg (· >>= finish) hrows

end Schema.Holds

/-! ### The row that a selector names -/

namespace Schema.Holds
variable {s : Schema} {κ : String → String → NumberClass} {tables : Tables} {e : Entity}
  {f : Filter} {group : List String} {tx : Transaction} {fixed : SortedMap String Value}

/-- The values that a selector fixes in the group that it selects are of the classes of its
fields. -/
theorem fits_selected (h : s.Holds κ tables) (hs : s.Resolved) (he : s.entity? e.name = some e)
    (hfixed : e.fixedBy f = .ok fixed) (hselected : e.selectedGroup? fixed = some group) :
    (Key.ofRow group fixed).Fits (κ e.name) group ∧ (Key.ofRow group fixed).hasNull = false := by
  obtain ⟨fixed', hfixed', hfixes⟩ := e.fixedBy_fixes f (e.literals_of_fixedBy f hfixed)
  obtain rfl : fixed = fixed' := Except.ok.inj (hfixed.symm.trans hfixed')
  have hvalues : ∀ c ∈ group, (Row.value fixed c).isNull = false := by
    have hall := List.find?_some hselected
    simpa using hall
  have hfits : Row.Fits (κ e.name) group fixed := by
    intro c hc
    obtain ⟨field, literal, hfield, -, -, hcoerce⟩ := hfixes.exists_literal (hvalues c hc)
    exact (h.within_coerce hs he hfield hcoerce).1
  exact ⟨hfits.key, Key.hasNull_ofRow.2 hvalues⟩

/-- What is found with the values that were fixed is the first row that is let through. -/
theorem findUnique_eq (h : s.Holds κ tables) (hs : s.Resolved) (he : s.entity? e.name = some e)
    (hnames : (e.tableDef.indexes.map (·.name)).Nodup) (htells : e.TellsGroups)
    (hfixed : e.fixedBy f = .ok fixed) (hselected : e.selectedGroup? fixed = some group)
    {rows : List Row} (hrows : View.rows ⟨s, tables, tx⟩ e = .ok rows) {p : Row → Bool}
    (hlets : ∀ row ∈ rows, View.lets ⟨s, tables, tx⟩ e row f = .ok (p row)) :
    View.findUnique ⟨s, tables, tx⟩ e f = .ok (rows.filter p).head? := by
  obtain ⟨fixed', hfixed', hfixes⟩ := e.fixedBy_fixes f (e.literals_of_fixedBy f hfixed)
  obtain rfl : fixed = fixed' := Except.ok.inj (hfixed.symm.trans hfixed')
  have hvalues : ∀ c ∈ group, (Row.value fixed c).isNull = false := by
    have hall := List.find?_some hselected
    simpa using hall
  obtain ⟨hfits, hnull⟩ := h.fits_selected hs he hfixed hselected
  have hkept : ∀ row ∈ rows, p row = true → (Key.ofRow group row).equiv (Key.ofRow group fixed) := by
    intro row hrow hp
    refine Key.equiv_iff.2 (Key.compare_ofRow.2 fun c hc => ?_)
    obtain ⟨field, literal, hfield, hlist, hmem, hcoerce⟩ := hfixes.exists_literal (hvalues c hc)
    obtain ⟨v, hv, hequal⟩ :=
      View.equal_of_lets htells hfield hlist f (hp ▸ hlets row hrow) hmem
    obtain rfl : Row.value fixed c = v := Except.ok.inj (hcoerce.symm.trans hv)
    exact hequal (hvalues c hc)
  unfold View.findUnique
  rw [hfixed, Except.ok_bind, hselected]
  refine (h.candidates_eq he hnames (List.mem_of_find?_eq_some hselected) hfits hnull
    fun candidates => candidates.findM? _).trans ?_
  rw [hrows, Except.ok_bind, Read.findM?_ok fun row hrow => hlets row (List.mem_filter.1 hrow).1,
    ← List.head?_filter, List.filter_filter]
  refine congrArg (fun kept : List Row => Except.ok kept.head?) (List.filter_congr fun row hrow => ?_)
  cases hp : p row with
  | false => rfl
  | true => exact hkept row hrow hp

/-- What is found by its primary key is there and has that key. -/
theorem has_selected (h : s.Holds κ tables) (hs : s.Resolved) (he : s.entity? e.name = some e)
    (hfixed : e.fixedBy f = .ok fixed) (hselected : e.selectedGroup? fixed = some e.idFields) {x : Row}
    (hx : View.findUnique ⟨s, tables, tx⟩ e f = .ok (some x)) :
    tables.Has e.name x ∧ compare (Key.ofRow e.idFields fixed) (e.keyOf x) = .eq := by
  unfold View.findUnique at hx
  rw [hfixed, Except.ok_bind, hselected] at hx
  simp only [if_true] at hx
  obtain ⟨found, hfound, hfirst⟩ := Except.bind_eq_ok.1 hx
  replace hfirst : found.toList.findM? (fun row => View.lets ⟨s, tables, tx⟩ e row f) = .ok (some x) :=
    hfirst
  have hmem : x ∈ found.toList := by
    have hyields := Yields.findM? (E := fun _ => True) (l := found.toList)
      (f := fun row => View.lets ⟨s, tables, tx⟩ e row f) fun _ _ => .any
    rw [hfirst] at hyields
    exact hyields x rfl
  exact (h.row?_iff he hfound (h.fits_selected hs he hfixed hselected).1).1 (Option.mem_toList.1 hmem)

end Schema.Holds

namespace Client

/-- Whatever was done with a client before: of the rows of a table a selector that pins the primary
key or a unique group lets through one at most, and what is found with it is what a look at every row
would give. -/
theorem findUnique_filters {defs : List EntityDef} {s : Schema} (hs : Schema.ofDefs defs = .ok s)
    (hkinds : s.KeysOfKinds) {c₀ : Client} (hc₀ : c₀.Opened s) {κ : String → String → NumberClass}
    (hholds : s.Holds κ c₀.store.tables) {actions : List Action}
    (hactions : ∀ a ∈ actions, a.Regular κ c₀.store.tables) {e : Entity}
    (he : s.entity? e.name = some e) (hnames : (e.tableDef.indexes.map (·.name)).Nodup)
    (htells : e.TellsGroups) {f : Filter} {group : List String} (hgroup : group ∈ e.uniqueSelectors)
    (hscalars : e.Scalars group) (hpins : e.Pins f group) (tx : Transaction) {rows : List Row} :
    let v : View := ⟨s, (actions.foldl after c₀).store.tables, tx⟩
    v.rows e = .ok rows →
      (rows.countP fun row => (v.lets e row f).toOption.any id) ≤ 1 ∧
      ∀ kept, v.select e rows f = .ok kept →
        (∀ found, v.findUnique e f = .ok found → found.toList = kept) ∧
        (e.Literals (e.equalities f) →
          (∀ p ∈ e.equalities f, p.1 ∈ group → p.2.isNull = false) →
            ∃ found, v.findUnique e f = .ok found) := by
  intro v hrows
  have hresolved := Schema.Resolved.ofDefs hs
  obtain ⟨-, hheld⟩ := holds_foldl hresolved hkinds hc₀ hholds hactions
  have hunique := unique_foldl hresolved hkinds hc₀ hholds hactions
  have hone := hheld.length_filter_lets hresolved he hunique htells hgroup hscalars hpins hrows
  refine ⟨by rwa [List.countP_eq_length_filter], fun kept hkept => ?_⟩
  have hlets := Read.ok_of_filterM hkept
  obtain rfl := View.select_ok hkept
  have hfind {fixed : SortedMap String Value} {g : List String} (hfixed : e.fixedBy f = .ok fixed)
      (hselected : e.selectedGroup? fixed = some g) :=
    hheld.findUnique_eq hresolved he hnames htells hfixed hselected hrows hlets
  constructor
  · intro found hfound
    obtain ⟨fixed, hfixed, hsearch⟩ := Except.bind_eq_ok.1 hfound
    cases hselected : e.selectedGroup? fixed with
    | none =>
      rw [hselected] at hsearch
      cases hsearch
    | some g =>
      rw [hfind hfixed hselected] at hfound
      cases hfound
      -- There is one such row at most, so the first is all of them.
      generalize rows.filter _ = kept at hone
      match kept, hone with
      | [], _ => rfl
      | [row], _ => rfl
  · intro hliterals hnulls
    obtain ⟨fixed, hfixed, hfixes⟩ := e.fixedBy_fixes f hliterals
    have hvalues : ∀ name ∈ group, (Row.value fixed name).isNull = false := by
      intro name hname
      obtain ⟨field, hfield, hlist⟩ := hscalars name hname
      obtain ⟨⟨n, literal⟩, hmem, hsame, -⟩ := hpins name hname
      obtain rfl : name = n := hsame.symm
      obtain ⟨value, hvalue⟩ := Option.isSome_iff_exists.1 (hfixes.fixed _ hmem field hfield hlist)
      obtain ⟨field', literal', hfield', -, hmem', hcoerce⟩ := hfixes.of_empty hvalue
      have hnull := (hheld.within_coerce hresolved he hfield' hcoerce).2
      rw [Row.value, hvalue]
      exact hnull.trans (hnulls _ hmem' hname)
    cases hselected : e.selectedGroup? fixed with
    | none =>
      have hnot := List.find?_eq_none.1 hselected group hgroup
      exact absurd (List.all_eq_true.2 fun name hname => by simp [hvalues name hname]) hnot
    | some g => exact ⟨_, hfind hfixed hselected⟩

end Client

/-! ### Stops of lines -/

/-- Stops, of which each has a number of its own on its line, a place of its own and names of its
own. -/
def EntityDef.stops : List EntityDef :=
  [{ name := "stop",
     fields := [{ name := "id", kind := .int, id := true }, { name := "line", kind := .string },
       { name := "number", kind := .int }, { name := "km", kind := .float, unique := true },
       { name := "names", kind := .string, list := true, unique := true }],
     uniqueGroups := [["line", "number"]] }]

namespace Client

/-- A transaction that reads of stops. -/
def travel : Transaction := { id := 0, mode := .readOnly, scope := ["stop"] }

/-- Two stops of one line and a stop of another one. -/
def lay : List Action :=
  [.ask "stop" (.create (.ofFields [("id", .int 1), ("line", .string "A"), ("number", .int 1),
     ("names", .array [])])) none,
   .ask "stop" (.create (.ofFields [("id", .int 2), ("line", .string "A"), ("number", .int 2),
     ("names", .array [.string "Mill"])])) none,
   .ask "stop" (.create (.ofFields [("id", .int 3), ("line", .string "B"), ("number", .int 2),
     ("names", .array [.string "Dam"])])) none]

/-- The selector of the stop with a number on a line. -/
def stopOf (line : String) (number : Int) : Filter :=
  (Filter.whereEquals {} "line" (.string line)).whereEquals "number" (.int number)

/-- The second stop of the first line, asked for by the name of the group, with its number said once
more, and with alternatives. -/
def secondStop : Filter :=
  { conditions := [("number", .scalar { equals := some (.int 2), gt := some (.int 1) }),
      ("line_number", .nested (stopOf "A" 2))],
    alternatives := some [{ conditions := [("km", .isNull)] }, Filter.whereEquals {} "id" (.int 1)] }

theorem findUnique_filters_stops : ∃ (c₀ : Client) (e : Entity) (rows kept : List Row)
    (found : Option Row),
    Schema.ofDefs EntityDef.stops = .ok c₀.schema ∧ c₀.Opened c₀.schema ∧
      c₀.schema.Holds c₀.schema.classes c₀.store.tables ∧ c₀.schema.KeysOfKinds ∧
      (∀ a ∈ lay, a.Regular c₀.schema.classes c₀.store.tables) ∧
      c₀.schema.entity? "stop" = some e ∧ (e.tableDef.indexes.map (·.name)).Nodup ∧ e.TellsGroups ∧
      ["line", "number"] ∈ e.uniqueSelectors ∧ e.Scalars ["line", "number"] ∧
      e.Pins secondStop ["line", "number"] ∧
      let v : View := ⟨c₀.schema, (lay.foldl after c₀).store.tables, travel⟩
      v.rows e = .ok rows ∧ (rows.countP fun row => (v.lets e row secondStop).toOption.any id) ≤ 1 ∧
        v.select e rows secondStop = .ok kept ∧ v.findUnique e secondStop = .ok found ∧
        found.toList = kept ∧ kept.map (fun row => (row.value "id").text) = ["2"] := by
  have hruns : (openMemory EntityDef.stops).toOption.any fun c₀ =>
      let v : View := ⟨c₀.schema, (lay.foldl after c₀).store.tables, travel⟩
      c₀.schema.KeysOfKinds ∧ (c₀.schema.entity? "stop").any fun e =>
        ((e.tableDef.indexes.map (·.name)).Nodup ∧ e.TellsGroups ∧
          ["line", "number"] ∈ e.uniqueSelectors ∧ e.Scalars ["line", "number"] ∧
          e.Pins secondStop ["line", "number"] ∧ (v.findUnique e secondStop).toOption.isSome) ∧
        (v.rows e).toOption.any fun rows => (v.select e rows secondStop).toOption.any fun kept =>
          kept.map (fun row => (row.value "id").text) = ["2"] := by
    decide +kernel
  obtain ⟨c₀, hs, hc₀, hholds, hkinds, hstop⟩ := exists_openMemory hruns
  obtain ⟨e, he, hstop⟩ := (Option.any_eq_true _ _).1 hstop
  obtain ⟨⟨hnames, htells, hgroup, hscalars, hpins, hsome⟩, hstop⟩ := of_decide_eq_true hstop
  obtain ⟨rows, hrows, hstop⟩ := (Option.any_eq_true _ _).1 hstop
  obtain ⟨kept, hkept, hids⟩ := (Option.any_eq_true _ _).1 hstop
  obtain ⟨found, hfound⟩ := Option.isSome_iff_exists.1 hsome
  have hrows := Except.toOption_eq_some.1 hrows
  have hkept := Except.toOption_eq_some.1 hkept
  have hfound := Except.toOption_eq_some.1 hfound
  have hname : e.name = "stop" := (Schema.Resolved.ofDefs hs).name he
  have hregular : ∀ a ∈ lay, a.Regular c₀.schema.classes c₀.store.tables := by
    intro a ha
    simp only [lay, List.mem_cons, List.not_mem_nil, or_false] at ha
    rcases ha with rfl | rfl | rfl <;> exact ⟨_, .inl .create⟩
  obtain ⟨hone, hfilters⟩ := findUnique_filters hs hkinds hc₀ hholds hregular
    (by rw [hname]; exact he) hnames htells hgroup hscalars hpins travel hrows
  refine ⟨c₀, e, rows, kept, found, hs, hc₀, hholds, hkinds, hregular, he, hnames, htells, hgroup,
    hscalars, hpins, hrows, hone, hkept, hfound, (hfilters kept hkept).1 found hfound,
    of_decide_eq_true hids⟩

/-- The numbers of the stops that a selector lets through, by a look at all of them. -/
def stopsThrough (c : Client) (e : Entity) (f : Filter) : Option (List String) := do
  let v : View := ⟨c.schema, c.store.tables, travel⟩
  let kept ← (v.rows e >>= fun rows => v.select e rows f).toOption
  return kept.map fun row => (row.value "id").text

/-- The number of the stop that a selector names. -/
def stopNamed (c : Client) (e : Entity) (f : Filter) : Option (List String) := do
  let v : View := ⟨c.schema, c.store.tables, travel⟩
  let found ← (v.findUnique e f).toOption
  return found.toList.map fun row => (row.value "id").text

/-- All stops have values of their kinds, and the selector pins a unique group. What a look at all of
them lets through, and what it names; nothing where this fails. -/
def Contrasts (c : Client) (f : Filter) (group : List String) (through named : Option (List String)) :
    Prop :=
  c.strays "stop" = [] ∧ ∃ e ∈ c.schema.entity? "stop",
    (e.tableDef.indexes.map (·.name)).Nodup ∧ group ∈ e.uniqueSelectors ∧ e.Pins f group ∧
      c.stopsThrough e f = through ∧ c.stopNamed e f = named

instance (c : Client) (f : Filter) (group : List String) (through named : Option (List String)) :
    Decidable (c.Contrasts f group through named) := by
  unfold Contrasts
  infer_instance

/-- A number that is equal to the numbers next to it when they are floating-point numbers. -/
def crowded : Int := 18014398509481984

/-- The selector of the stop at this place. -/
def atCrowded : Filter := Filter.whereEquals {} "km" (.float (.ofInt crowded))

/-- A stop that is put past the engine. -/
def putStop (id : Int) (km : Value) : Action :=
  .put 1 "stop" (SortedMap.ofList [("id", .int id), ("line", .null), ("number", .null), ("km", km),
    ("names", .null)])

/-- Two stops come to the same place, one after the other. Each time a third one is at a place next to
it, under which the index enters the new one. -/
def relay : List Action :=
  [.begin ["stop"] .readWrite, putStop 1 (.int (crowded - 1)), putStop 2 (.int (crowded + 1)),
   putStop 1 (.float (.ofInt crowded)), .delete 1 "stop" ⟨[.int 2]⟩,
   putStop 3 (.int (crowded - 1)), putStop 2 (.int crowded), putStop 3 (.float (.ofInt crowded)),
   .delete 1 "stop" ⟨[.int 2]⟩, .commit 1]

end Client

/-- Stops with a relation that is called like the group. -/
def EntityDef.twinStops : List EntityDef :=
  [{ name := "stop",
     fields := [{ name := "id", kind := .int, id := true }, { name := "line", kind := .string },
       { name := "number", kind := .int }, { name := "twinId", kind := .int }],
     relations := [.owning "line_number" "stop" ["twinId"] ["id"]],
     uniqueGroups := [["line", "number"]] }]

/-- Places with whole numbers, and stops that are at places by other ones. -/
def EntityDef.placedStops : List EntityDef :=
  [{ name := "place", fields := [{ name := "id", kind := .int, id := true }] },
   { name := "stop",
     fields := [{ name := "id", kind := .int, id := true },
       { name := "km", kind := .float, unique := true }],
     relations := [.owning "place" "place" ["km"] ["id"]] }]

namespace Client

/-- A stop, and its twin. -/
def twins : List Action :=
  [.ask "stop" (.create (.ofFields [("id", .int 1), ("line", .string "A"), ("number", .int 1)])) none,
   .ask "stop" (.create (.ofFields [("id", .int 2), ("line", .string "A"), ("number", .int 2),
     ("twinId", .int 1)])) none]

/-- Creates a stop that is connected to a place. -/
def placeStop (id place : Int) : Action :=
  .ask "stop" (.create { data := some (.one ⟨[("id", .literal (.int id)), ("place", .relation
    { connect := [Filter.whereEquals {} "id" (.int place)] })]⟩) }) none

/-- Asks for the stop with a number. -/
def ofStop (id : Int) : Query := { filter := some (Filter.whereEquals {} "id" (.int id)) }

def toCrowded : WriteData := ⟨[("km", .literal (.float (.ofInt crowded)))]⟩

def moveStop (id : Int) : Action :=
  .ask "stop" (.update { ofStop id with data := some (.one toCrowded) }) none

def closeStop (id : Int) : Action := .ask "stop" (.delete (ofStop id)) none

/-- The same without writes past the engine, where stops get the numbers of places. -/
def relocate : List Action :=
  [.ask "place" (.create (.ofFields [("id", .int (crowded - 1))])) none,
   .ask "place" (.create (.ofFields [("id", .int crowded)])) none,
   .ask "place" (.create (.ofFields [("id", .int (crowded + 1))])) none,
   placeStop 1 (crowded - 1), placeStop 2 (crowded + 1), moveStop 1, closeStop 2,
   placeStop 3 (crowded - 1), placeStop 2 crowded, moveStop 3, closeStop 2]

/-- Where numbers of another kind were put past the engine, or came from a relation, two rows can
share a value of a unique field, also when all values are of their kinds again. And a look at all rows
can give something where a selector fails: with a literal of another kind that no row comes to, with a
null for a field of the group under its name, and with a list. A relation with the name of the group
is what a look at all rows takes this name for. -/
theorem findUnique_filters_mixed :
    (∃ c₀ : Client, Schema.ofDefs EntityDef.stops = .ok c₀.schema ∧ c₀.Opened c₀.schema ∧
      c₀.schema.Holds c₀.schema.classes c₀.store.tables ∧ c₀.schema.KeysOfKinds ∧
      (relay.foldl after c₀).Contrasts atCrowded ["km"] (some ["1", "3"]) (some ["3"]) ∧
      let c := lay.foldl after c₀
      c.Contrasts ((Filter.whereEquals {} "id" (.int 9)).whereEquals "line" (.int 5)) ["id"]
          (some []) none ∧
        c.Contrasts ((stopOf "A" 1).and "line_number" (.nested
          ((Filter.whereEquals {} "number" (.int 1)).and "line" (.scalar { equals := some .null }))))
          ["line", "number"] (some []) none ∧
        c.Contrasts (Filter.whereEquals {} "names" (.array [])) ["names"] (some ["1"]) none) ∧
    (∃ c₀ : Client, Schema.ofDefs EntityDef.twinStops = .ok c₀.schema ∧ c₀.Opened c₀.schema ∧
      c₀.schema.Holds c₀.schema.classes c₀.store.tables ∧ c₀.schema.KeysOfKinds ∧
      (twins.foldl after c₀).Contrasts
        { conditions := [("line_number", .nested (stopOf "A" 1))] } ["line", "number"]
        (some ["2"]) (some [])) ∧
    ∃ c₀ : Client, Schema.ofDefs EntityDef.placedStops = .ok c₀.schema ∧ c₀.Opened c₀.schema ∧
      c₀.schema.Holds c₀.schema.classes c₀.store.tables ∧
      (relocate.foldl after c₀).Contrasts atCrowded ["km"] (some ["1", "3"]) (some ["3"]) :=
  ⟨exists_openMemory (by decide +kernel), exists_openMemory (by decide +kernel),
    exists_openMemory (by decide +kernel)⟩

end Client

end RelationalStore

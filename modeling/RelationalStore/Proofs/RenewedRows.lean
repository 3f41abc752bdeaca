import RelationalStore.Proofs.LinkedRows
import RelationalStore.Proofs.PayloadParts
import RelationalStore.Proofs.SchemaLinks
import RelationalStore.Proofs.KindedTables

/- Rows that clearing a foreign key stores anew. Where the time of the last write is a part of the
   primary key, the row with its key cleared stands beside the one it was made from, under a key of
   that time. No other row has such a time, unless it had it at first, since the clock only goes
   forward (`Schema.Dated.alone`). And what else can be referenced of such a row has a null in it,
   or the unique constraint would have refused it beside the first (`Schema.Dated.unshared`). So a
   new row is referenced by none but itself, or by one that had its time at first. -/
namespace RelationalStore
open SortedMap Read

/-! ### Instants -/

/-- The instant of a time; other values have none. -/
def Value.instant? : Value → Option Int
  | .datetime t => some t.nanoseconds
  | _ => none

theorem Value.instant?_congr {a b : Value} (h : Value.compare a b = .eq) :
    a.instant? = b.instant? := by
  have hrank := Value.rank_eq_of_compare h
  cases a <;> cases b <;> simp_all [Value.rank, Value.instant?]
  next t u => exact Std.LawfulEqOrd.eq_of_compare (a := t.nanoseconds) (b := u.nanoseconds) h

/-- The instants of the parts of a key. -/
def Key.instants (k : Key) : List (Option Int) := k.parts.map Value.instant?

/-- Equal keys have the same instants, whatever the numbers in them are. -/
theorem Key.instants_congr {a b : Key} (h : compare a b = .eq) : a.instants = b.instants := by
  obtain ⟨xs⟩ := a
  obtain ⟨ys⟩ := b
  change Value.compareItems xs ys = .eq at h
  show xs.map Value.instant? = ys.map Value.instant?
  induction xs generalizing ys with
  | nil =>
    cases ys with
    | nil => rfl
    | cons y ys => cases h
  | cons x xs ih =>
    cases ys with
    | nil => cases h
    | cons y ys =>
      simp only [Value.compareItems] at h
      split at h
      · next hxy => rw [List.map_cons, List.map_cons, Value.instant?_congr hxy, ih ys h]
      · next hne => exact absurd h hne

theorem Key.instants_ofRow (columns : List String) (row : Row) :
    (Key.ofRow columns row).instants = columns.map fun c => (row.value c).instant? :=
  List.map_map

/-- The instant is a value of the row. -/
def Row.Bears (row : Row) (i : Int) : Prop := ∃ c, (row.value c).instant? = some i

theorem Row.bears_of_instants {columns columns' : List String} {row row' : Row} {c : String} {i : Int}
    (h : (Key.ofRow columns' row').instants = (Key.ofRow columns row).instants) (hc : c ∈ columns)
    (hi : (row.value c).instant? = some i) : row'.Bears i := by
  rw [Key.instants_ofRow, Key.instants_ofRow] at h
  have hmem : some i ∈ columns'.map fun c => (row'.value c).instant? := by
    rw [h]
    exact List.mem_map.2 ⟨c, hc, hi⟩
  obtain ⟨c', -, hi'⟩ := List.mem_map.1 hmem
  exact ⟨c', hi'⟩

/-! ### Tables with their indexes -/

namespace Table
variable {κ : String → NumberClass} {t : Table} {key : Key} {row : Row}

theorem Sound.sorted (h : t.Sound κ) : t.Sorted κ where
  rows := h.rows
  stored := h.stored
  fits row hrow := by
    obtain ⟨k, hk⟩ := mem_toList_iff.1 hrow
    exact keyOf_fits (h.fits _ hk)

/-- A row that is found has the instants of what it is looked for by. -/
theorem Sound.instants_of_get? (h : t.Sound κ) (hrow : t.get? key = some row) :
    (t.keyOf row).instants = key.instants := by
  obtain ⟨p, hp, rfl⟩ := Option.map_eq_some_iff.1 hrow
  obtain ⟨hmem, hc⟩ := mem_of_entryAt? hp
  rw [Key.instants_congr hc, Key.instants_congr (h.stored p hmem)]

theorem Sound.instants_of_lookup (h : t.Sound κ) {index : String} {rows : List Row}
    (hrows : t.lookup index key = .ok rows) :
    ∀ row ∈ rows, ∃ columns, (Key.ofRow columns row).instants = key.instants := by
  intro row hrow
  unfold lookup at hrows
  split at hrows
  · next i hfound =>
    cases hrows
    have hi := List.mem_of_find?_eq_some hfound
    obtain ⟨k, hk, hget⟩ := List.mem_filterMap.1 hrow
    unfold Index.keysAt SortedMap.get? at hk
    cases hentry : entryAt? key i.entries.entries with
    | none => simp [hentry] at hk
    | some p =>
      obtain ⟨hp, hc⟩ := mem_of_entryAt? hentry
      rw [hentry] at hk
      -- The index has the keys of the rows with the value that was found.
      have hvalue := (h.indexes i hi).values.keys p hp
      have howned : k ∈ i.keysAt p.1 := by
        rw [(h.indexes i hi).keysAt_of_mem hp]
        exact hk
      obtain ⟨row', hrow', hholds⟩ := ((h.indexes i hi).owners p.1 hvalue k).1 howned
      have hsame : t.get? k = some row' :=
        (get?_eq_some_iff h.rows (h.rows.keys _ hrow')).2 ⟨k, hrow', Std.ReflOrd.compare_self⟩
      cases hget.symm.trans hsame
      exact ⟨i.definition.fields, by rw [Key.instants_congr hc, Key.instants_congr hholds.2]⟩
  · cases hrows

end Table

/-- A row is put only where no unique index has what it holds under another key. -/
theorem Transaction.checkUnique_of_put {tx tx' : Transaction} {tables tables' : Tables} {name : String}
    {row : Row} {key : Key} {t : Table} (h : tx.put tables name row = .ok (key, tx', tables'))
    (hfound : tables.get? name = some t) : t.checkUnique (t.keyOf row) row = .ok () := by
  obtain ⟨u, hu, h⟩ := Except.bind_eq_ok.1 h
  obtain ⟨⟨k, next⟩, hput, h⟩ := Except.bind_eq_ok.1 h
  cases hfound.symm.trans (tableToWrite_ok hu).2
  obtain ⟨hkey, -, hq, -⟩ := Table.put_ok hput
  rwa [hkey] at hq

/-- Each entity has the table that is declared for it, with rows and indexes in step, and the numbers in
each column of a key are of one class. -/
structure Schema.Indexed (s : Schema) (κ : String → String → NumberClass) (tables : Tables) : Prop where
  definition : ∀ {e t}, s.entity? e.name = some e → tables.get? e.name = some t →
    t.definition = e.tableDef
  sound : ∀ {e t}, s.entity? e.name = some e → tables.get? e.name = some t → t.Sound (κ e.name)

namespace Schema
variable {s : Schema} {κ : String → String → NumberClass} {tables tables' : Tables} {e c : Entity}
  {tx tx' : Transaction} {t : Table} {key : Key} {row y z : Row} {new : Option Row}

theorem Holds.indexed (h : s.Holds κ tables) : s.Indexed κ tables where
  definition he ht := h.definition _ _ he ht
  sound _ ht := (h.proper.proper ht).toSound

namespace Indexed

theorem keyOf (h : s.Indexed κ tables) (he : s.entity? e.name = some e)
    (ht : tables.get? e.name = some t) (row : Row) : t.keyOf row = e.keyOf row := by
  rw [Table.keyOf, h.definition he ht]
  rfl

theorem keyPath (h : s.Indexed κ tables) (he : s.entity? e.name = some e)
    (ht : tables.get? e.name = some t) : t.definition.keyPath = e.idFields := by
  rw [h.definition he ht]
  rfl

theorem fits (h : s.Indexed κ tables) (he : s.entity? e.name = some e) (hy : tables.Has e.name y) :
    y.Fits (κ e.name) e.tableDef.columns := by
  obtain ⟨t, ht, hrow⟩ := hy
  obtain ⟨k, hk⟩ := Table.mem_toList_iff.1 hrow
  rw [← h.definition he ht]
  exact (h.sound he ht).fits _ hk

theorem fits_keyOf (h : s.Indexed κ tables) (he : s.entity? e.name = some e)
    (hy : tables.Has e.name y) : (e.keyOf y).Fits (κ e.name) e.idFields :=
  ((h.fits he hy).mono TableDef.mem_columns_of_keyPath).key

theorem wrote (h : s.Indexed κ tables) (he : s.entity? e.name = some e)
    (hw : tx.Wrote tables e.name t key new tx' tables')
    (ha : e.tableDef.Accepts (κ e.name) key new) : s.Indexed κ tables' := by
  have hafter {n : String} {u : Table} (hu : tables'.get? n = some u) :
      n = e.name ∧ u = t.restore key new ∨ tables.get? n = some u := by
    rw [hw.tables, get?_insert_eq] at hu
    split at hu
    · next hn =>
      cases hu
      exact .inl ⟨hn.symm, rfl⟩
    · exact .inr hu
  refine ⟨fun {c u} hc hu => ?_, fun {c u} hc hu => ?_⟩
  · rcases hafter hu with ⟨hname, rfl⟩ | hu
    · cases entity_inj hc he hname
      rw [Table.definition_restore]
      exact h.definition hc hw.found
    · exact h.definition hc hu
  · rcases hafter hu with ⟨hname, rfl⟩ | hu
    · cases entity_inj hc he hname
      exact (h.sound hc hw.found).restore (by rwa [h.definition hc hw.found])
    · exact h.sound hc hu

theorem has_wrote (h : s.Indexed κ tables) (he : s.entity? e.name = some e)
    (hw : tx.Wrote tables e.name t key new tx' tables') (hkey : key.Fits (κ e.name) e.idFields)
    {n : String} : tables'.Has n z ↔ n = e.name ∧ z ∈ new ∨
      tables.Has n z ∧ (n = e.name → compare key (e.keyOf z) ≠ .eq) := by
  rw [hw.has_iff (h.sound he hw.found).sorted (by rwa [h.keyPath he hw.found]), h.keyOf he hw.found]

/-- A row that is found has an equal key. -/
theorem of_row? (h : s.Indexed κ tables) (he : s.entity? e.name = some e)
    (hkey : key.Fits (κ e.name) e.idFields)
    (hfound : View.row? ⟨s, tables, tx⟩ e key = .ok (some row)) :
    tables.Has e.name row ∧ compare key (e.keyOf row) = .eq := by
  obtain ⟨t, ht, hfound⟩ := Except.bind_eq_ok.1 hfound
  have ht := (Transaction.table_ok ht).2.2
  obtain ⟨hrow, hsame⟩ := ((h.sound he ht).sorted.get?_eq_some (by rwa [h.keyPath he ht])).1
    (Except.ok.inj hfound)
  rw [h.keyOf he ht] at hsame
  exact ⟨⟨t, ht, hrow⟩, hsame⟩

/-- The rows that are looked for by a key have its instants in some columns. -/
theorem rowsWhere_instants (h : s.Indexed κ tables) (he : s.entity? e.name = some e)
    {fields : List String} {rows : List Row}
    (hrows : View.rowsWhere ⟨s, tables, tx⟩ e fields key = .ok rows) :
    ∀ row ∈ rows, tables.Has e.name row ∧ ∃ columns, (Key.ofRow columns row).instants = key.instants := by
  intro row hrow
  have hhas : tables.Has e.name row := by
    have hgives := (View.gives_has s tables tx).rowsWhere e fields key
    rw [hrows] at hgives
    exact hgives row hrow
  refine ⟨hhas, ?_⟩
  obtain ⟨t, ht, hrows⟩ := Except.bind_eq_ok.1 hrows
  have hsound := h.sound he (Transaction.table_ok ht).2.2
  split at hrows
  · cases hrows
    exact ⟨t.definition.keyPath, hsound.instants_of_get? (by simpa using hrow)⟩
  · split at hrows
    · exact hsound.instants_of_lookup hrows row hrow
    · cases hrows
      exact ⟨fields, Key.instants_congr (Key.equiv_iff.1 (List.mem_filter.1 hrow).2)⟩

end Indexed

end Schema

/-! ### Rows that are stored anew -/

/-- The row with the fields cleared and the time of that. -/
def Entity.Renews (e : Entity) (fields : List String) (time : DateTime) (y z : Row) : Prop :=
  ∀ c, z.value c = if c ∈ e.stamps then .datetime time else if c ∈ fields then .null else y.value c

/-- The row is stored under a key with a time that is none of the old ones. -/
def Entity.Renewed (e : Entity) (old : List Int) (row : Row) : Prop :=
  (∃ c ∈ e.idFields, c ∈ e.stamps) ∧ ∃ i ∉ old, ∀ c ∈ e.stamps, (row.value c).instant? = some i

/-- By that time, a row has no other instants than the old ones and the times of its last write, which
no other row has, and nothing but these and nulls in what is unique, if it is stored anew. -/
structure Schema.Dated (s : Schema) (old : List Int) (tables : Tables) (time : Nat) : Prop where
  instants : ∀ {e row c i}, s.entity? e.name = some e → tables.Has e.name row →
    (row.value c).instant? = some i → i ∈ old ∨ c ∈ e.stamps ∧ i < time
  alone : ∀ {e row e' row' i}, s.entity? e.name = some e → tables.Has e.name row →
    s.entity? e'.name = some e' → tables.Has e'.name row' → i ∉ old → row.Bears i → row'.Bears i →
      e.name = e'.name ∧ compare (e.keyOf row) (e'.keyOf row') = .eq
  unshared : ∀ {e row}, s.entity? e.name = some e → tables.Has e.name row → e.Renewed old row →
    ∀ group ∈ e.uniqueGroups, (∀ c ∈ group, c ∉ e.stamps) → (Key.ofRow group row).hasNull = true

/-- The row with the key is the only one that has the instant. -/
def Schema.AloneWith (s : Schema) (e : Entity) (key : Key) (i : Int) (tables : Tables) : Prop :=
  ∀ {c z}, s.entity? c.name = some c → tables.Has c.name z → z.Bears i →
    c.name = e.name ∧ compare key (c.keyOf z) = .eq

namespace Entity
variable {e : Entity} {fields : List String} {time : DateTime} {y z : Row} {i : Int}

theorem renews_touched (e : Entity) (fields : List String) (time : DateTime) (y : Row) :
    e.Renews fields time y ((e.fields.filter (·.updatedAt)).foldl
      (fun row f => row.insert f.name (.datetime time)) (fields.foldl (fun row f => row.insert f .null) y)) := by
  intro c
  rw [Row.value, Row.get?_foldl_insert (fun g : FieldDef => g.name), ← stamps]
  split
  · rfl
  · exact Row.value_foldl_null fields y c

namespace Renews
variable (h : e.Renews fields time y z)
include h

theorem instant {c : String} (hi : (z.value c).instant? = some i) :
    c ∈ e.stamps ∧ i = time.nanoseconds ∨ c ∉ e.stamps ∧ (y.value c).instant? = some i := by
  rw [h c] at hi
  split at hi
  · next hc =>
    cases hi
    exact .inl ⟨hc, rfl⟩
  · next hc =>
    split at hi
    · cases hi
    · exact .inr ⟨hc, hi⟩

theorem within {κ : String → NumberClass} {columns : List String} (hy : y.Fits κ columns) :
    z.Fits κ columns := by
  intro c hc
  rw [h c]
  split
  · rfl
  · split
    · rfl
    · exact hy c hc

/-- A key without the time, and without a field that is cleared, stays. -/
theorem ofRow_eq {columns : List String} (hstamps : ∀ c ∈ columns, c ∉ e.stamps)
    (hfields : ∀ c ∈ columns, c ∉ fields) : Key.ofRow columns z = Key.ofRow columns y := by
  rw [Key.ofRow, Key.ofRow]
  refine congrArg Key.mk (List.map_congr_left fun c hc => ?_)
  rw [h c, if_neg (hstamps c hc), if_neg (hfields c hc)]

end Renews

end Entity

namespace Schema
variable {s : Schema} {κ : String → String → NumberClass} {tables tables' : Tables} {e : Entity}
  {tx tx' : Transaction} {t : Table} {key : Key} {row y z : Row} {old : List Int} {time : Nat}
  {fields : List String} {i : Int} {c : Entity}

theorem Dated.weaken {later : Nat} (h : s.Dated old tables time) (hlater : time ≤ later)
    (hhas : ∀ {n z}, tables'.Has n z → tables.Has n z) : s.Dated old tables' later where
  instants he hrow hi := by
    rcases h.instants he (hhas hrow) hi with hold | ⟨hc, hlt⟩
    · exact .inl hold
    · exact .inr ⟨hc, by omega⟩
  alone he hrow he' hrow' hi hbears hbears' :=
    h.alone he (hhas hrow) he' (hhas hrow') hi hbears hbears'
  unshared he hrow := h.unshared he (hhas hrow)

theorem Dated.bears (h : s.Dated old tables time) (he : s.entity? e.name = some e)
    (hrow : tables.Has e.name row) (hi : i ∉ old) (hbears : row.Bears i) : i < time := by
  obtain ⟨c, hc⟩ := hbears
  exact (h.instants he hrow hc).resolve_left hi |>.2

/-- The rows after one was stored with its key cleared. -/
structure Renewal (s : Schema) (κ : String → String → NumberClass) (e : Entity) (fields : List String)
    (time : Nat) (y z : Row) (tables tables' : Tables) : Prop where
  entity : s.entity? e.name = some e
  row : tables.Has e.name y
  renews : e.Renews fields ⟨time, 0⟩ y z
  indexed : s.Indexed κ tables'
  has : ∀ {n x}, tables'.Has n x → n = e.name ∧ x = z ∨ tables.Has n x
  unique : ∀ group ∈ e.uniqueGroups, (Key.ofRow group z).hasNull = false →
    Key.ofRow group y = Key.ofRow group z → (e.keyOf y).instants = (e.keyOf z).instants

theorem Indexed.renewal (h : s.Indexed κ tables) (he : s.entity? e.name = some e)
    (hy : tables.Has e.name y) (hz : e.Renews fields ⟨time, 0⟩ y z)
    (hput : tx.put tables e.name z = .ok (key, tx', tables')) :
    s.Renewal κ e fields time y z tables tables' := by
  obtain ⟨t, hw, rfl, hnull⟩ := Transaction.put_ok hput
  have hfits : z.Fits (κ e.name) e.tableDef.columns := hz.within (h.fits he hy)
  rw [h.keyOf he hw.found] at hw hnull
  have hkey : (e.keyOf z).Fits (κ e.name) e.idFields :=
    (hfits.mono TableDef.mem_columns_of_keyPath).key
  refine ⟨he, hy, hz, h.wrote he hw ⟨hkey, fun _ _ => hnull, ?_, ?_⟩, fun {n x} hx => ?_, ?_⟩
  · intro row hrow
    cases hrow
    exact Std.ReflOrd.compare_self
  · intro row hrow
    cases hrow
    exact hfits
  · rcases (h.has_wrote he hw hkey).1 hx with ⟨hname, hnew⟩ | ⟨hold, -⟩
    · exact .inl ⟨hname, (Option.some.inj hnew).symm⟩
    · exact .inr hold
  · intro group hgroup hpresent hshared
    obtain ⟨t', ht', hrow⟩ := hy
    cases ht'.symm.trans hw.found
    obtain ⟨k, hk⟩ := Table.mem_toList_iff.1 hrow
    have hsound := h.sound he hw.found
    have hindex : (⟨IndexDef.nameOf group, group, true⟩ : IndexDef) ∈ t.definition.indexes := by
      rw [h.definition he hw.found]
      exact Entity.mem_indexes_of_group hgroup
    have hsame : compare k (t.keyOf z) = .eq := by
      refine hsound.alone_of_checkUnique (by rwa [h.definition he hw.found])
        (Transaction.checkUnique_of_put hput hw.found) hindex rfl hk hpresent ?_
      rw [IndexDef.Holds, hshared]
      exact ⟨hpresent, Std.ReflOrd.compare_self⟩
    rw [← h.keyOf he hw.found, ← h.keyOf he hw.found, ← Key.instants_congr (hsound.stored _ hk)]
    exact Key.instants_congr hsame

theorem Dated.renewal (h : s.Dated old tables time) (hr : s.Renewal κ e fields time y z tables tables') :
    s.Dated old tables' (time + Supply.tick) := by
  have hlater := h.weaken (Nat.le_add_right time Supply.tick) fun hz => hz
  have hbefore {i : Int} (hi : i ∉ old) (hbears : z.Bears i) : i = time := by
    obtain ⟨c, hc⟩ := hbears
    rcases hr.renews.instant hc with ⟨-, rfl⟩ | ⟨hstamp, hc⟩
    · rfl
    · exact absurd ((h.instants hr.entity hr.row hc).resolve_left hi).1 hstamp
  -- No row that was there before has the time of this one.
  have hnew {c : Entity} {x : Row} (hc : s.entity? c.name = some c) (hx : tables.Has c.name x)
      {i : Int} (hi : i ∉ old) (hz : z.Bears i) (hbears : x.Bears i) : False := by
    have htime := hbefore hi hz
    have hlt := h.bears hc hx hi hbears
    omega
  refine ⟨fun {c x f i} hc hx hi => ?_, fun {c x c' x' i} hc hx hc' hx' hi hbears hbears' => ?_,
    fun {c x} hc hx hrenewed group hgroup hstamps => ?_⟩
  · rcases hr.has hx with ⟨hname, rfl⟩ | hx
    · cases entity_inj hc hr.entity hname
      rcases hr.renews.instant hi with ⟨hstamp, rfl⟩ | ⟨-, hi⟩
      · refine .inr ⟨hstamp, ?_⟩
        simp only [Supply.tick]
        omega
      · exact hlater.instants hc hr.row hi
    · exact hlater.instants hc hx hi
  · rcases hr.has hx with ⟨hname, rfl⟩ | hx <;> rcases hr.has hx' with ⟨hname', rfl⟩ | hx'
    · cases entity_inj hc hr.entity hname
      cases entity_inj hc' hr.entity hname'
      exact ⟨rfl, Std.ReflOrd.compare_self⟩
    · exact (hnew hc' hx' hi hbears hbears').elim
    · exact (hnew hc hx hi hbears' hbears).elim
    · exact h.alone hc hx hc' hx' hi hbears hbears'
  · rcases hr.has hx with ⟨hname, rfl⟩ | hx
    · cases entity_inj hc hr.entity hname
      obtain ⟨⟨f, hid, hstamp⟩, i, hi, hall⟩ := hrenewed
      by_contra hpresent
      rw [Bool.not_eq_true] at hpresent
      have hfields : ∀ f ∈ group, f ∉ fields := by
        intro f hf hcleared
        have hnull : (x.value f).isNull = true := by
          rw [hr.renews f, if_neg (hstamps f hf), if_pos hcleared]
          rfl
        have hany : (Key.ofRow group x).hasNull = true :=
          List.any_eq_true.2 ⟨x.value f, List.mem_map_of_mem hf, hnull⟩
        rw [hpresent] at hany
        cases hany
      -- What it was made from is still there, under another key.
      have hkeys := hr.unique group hgroup hpresent (hr.renews.ofRow_eq hstamps hfields).symm
      exact hnew hc hr.row hi ⟨f, hall f hstamp⟩ (Row.bears_of_instants hkeys hid (hall f hstamp))
    · exact h.unshared hc hx hrenewed group hgroup hstamps

/-- A row that is alone with an instant stays alone. -/
theorem AloneWith.renewal (h : s.AloneWith c key i tables) (hi : i ∉ old) (hpast : i < time)
    (hdated : s.Dated old tables time) (hr : s.Renewal κ e fields time y z tables tables') :
    s.AloneWith c key i tables' := by
  intro c' x hc' hx hbears
  rcases hr.has hx with ⟨hname, rfl⟩ | hx
  · obtain ⟨f, hf⟩ := hbears
    rcases hr.renews.instant hf with ⟨-, rfl⟩ | ⟨hstamp, hf⟩
    · exact absurd hpast (by simp)
    · exact absurd ((hdated.instants hr.entity hr.row hf).resolve_left hi).1 hstamp
  · exact h hc' hx hbears

end Schema

end RelationalStore

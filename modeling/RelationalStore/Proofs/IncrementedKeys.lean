import RelationalStore.Proofs.GainedRows
import RelationalStore.Proofs.KindedTables
import RelationalStore.Proofs.ReadPipeline

/- The next number of an incremented field. For a field that is the whole primary key it is looked
   for at the last key, and for any other one in all rows; both find the greatest number of the
   column (`Table.Reaches`), the first of them because rows are filed under their own numbers, in
   their order (`Table.Files`). So the number is greater than those that there are, and there is
   none after the greatest integer of 64 bits. -/
namespace RelationalStore
open SortedMap Read Operation

/-- Keys of one number are in the order of their numbers. -/
theorem Key.compare_int (m n : Int) : compare (⟨[.int m]⟩ : Key) ⟨[.int n]⟩ = compare m n := by
  show Value.compareItems [.int m] [.int n] = compare m n
  have hitem : Value.compare (.int m) (.int n) = compare m n := rfl
  cases h : compare m n <;> simp [Value.compareItems, hitem, h]

theorem Value.int?_eq_some_iff {v : Value} {n : Int} : v.int? = some n ↔ v = .int n := by
  cases v <;> simp [int?]

namespace Table
variable {t : Table} {column : String} {m n : Int}

/-- The column holds integers of 64 bits, and nulls. -/
def Counts (t : Table) (column : String) : Prop :=
  ∀ row ∈ t.toList, row.value column = .null ∨
    ∃ n, row.value column = .int n ∧ Json.isInt64 n = true

/-- The greatest number of the column, or zero if there is none. -/
def Reaches (t : Table) (column : String) (m : Int) : Prop :=
  (m = 0 ∧ ∀ row ∈ t.toList, ∀ n, row.value column ≠ .int n) ∨
    (∃ row ∈ t.toList, row.value column = .int m) ∧
      ∀ row ∈ t.toList, ∀ n, row.value column = .int n → n ≤ m

/-- The column is the primary key; each row is filed under its own number, and the rows are in the
order of these numbers. -/
structure Files (t : Table) (column : String) : Prop where
  path : t.definition.keyPath = [column]
  filed : ∀ p ∈ t.rows.entries, ∃ n : Int, p.1 = ⟨[.int n]⟩ ∧ p.2.value column = .int n
  sorted : t.rows.entries.Pairwise fun a b => compare a.1 b.1 = .lt

/-! What is asked of a table can be tested. -/

instance (t : Table) (column : String) : Decidable (t.Counts column) :=
  decidable_of_iff (∀ row ∈ t.toList, (row.value column).isNull ∨
      (row.value column).int?.any Json.isInt64) <|
    forall₂_congr fun row _ => by
      cases row.value column <;> simp [Value.isNull, Value.int?]

instance (t : Table) (column : String) : Decidable (t.Files column) :=
  decidable_of_iff (t.definition.keyPath = [column] ∧
      (∀ p ∈ t.rows.entries, (p.2.value column).int?.any fun n =>
        p.1.parts.map Value.int? = [some n]) ∧
      t.rows.entries.Pairwise fun a b => compare a.1 b.1 = .lt) <| by
    have hfiled (p : Key × Row) : (p.2.value column).int?.any
        (fun n => p.1.parts.map Value.int? = [some n]) ↔
          ∃ n : Int, p.1 = ⟨[.int n]⟩ ∧ p.2.value column = .int n := by
      obtain ⟨⟨parts⟩, row⟩ := p
      simp [Option.any_eq_true, List.map_eq_cons_iff, Value.int?_eq_some_iff, and_comm]
    simp only [hfiled]
    exact ⟨fun h => ⟨h.1, h.2.1, h.2.2⟩, fun h => ⟨h.path, h.filed, h.sorted⟩⟩

theorem Counts.int64 (h : t.Counts column) {row : Row} (hrow : row ∈ t.toList)
    (hn : row.value column = .int n) : Json.isInt64 n = true := by
  obtain hnull | ⟨k, hk, hfits⟩ := h row hrow
  · rw [hn] at hnull
    cases hnull
  · rw [hn] at hk
    cases hk
    exact hfits

theorem Counts.reaches_lt (h : t.Counts column) (hm : t.Reaches column m) : m < Json.intLimit := by
  obtain ⟨rfl, -⟩ | ⟨⟨row, hrow, hvalue⟩, -⟩ := hm
  · decide
  · have hfits := h.int64 hrow hvalue
    simp only [Json.isInt64, Bool.and_eq_true, decide_eq_true_eq] at hfits
    exact hfits.2

/-- A table whose primary key is a column of integers files its rows so. -/
theorem Typed.files {kinds : String → ScalarKind} (h : t.Typed kinds)
    (hpath : t.definition.keyPath = [column]) (hkind : kinds column = .int) : t.Files column where
  path := hpath
  filed p hp := by
    obtain ⟨⟨parts⟩, row⟩ := p
    have hkey := h.keys _ hp
    have hnonnull := h.nonnull _ hp
    have hstored := h.stored _ hp
    have hrow : (row.value column).isOf .int := by
      rw [← hkind]
      exact h.values _ hp column (TableDef.mem_columns_of_keyPath column (by rw [hpath]; simp))
    rw [keyOf, hpath] at hstored
    rw [hpath] at hkey
    -- The key is the one number that it holds, and the row has an equal one.
    cases hkey with
    | @cons _ v _ parts hv hrest =>
      cases hrest
      rw [hkind] at hv
      cases v with
      | null => cases hnonnull
      | int n =>
        refine ⟨n, rfl, ?_⟩
        change Value.compareItems [.int n] [row.value column] = .eq at hstored
        generalize row.value column = w at hrow hstored
        cases w with
        | null => cases hstored
        | int k =>
          have hequal : compare n k = .eq := (Key.compare_int n k).symm.trans hstored
          rw [Int.compare_eq_eq.1 hequal]
        | _ => cases hrow
      | _ => cases hv
  sorted := h.rows.sorted

/-! ### The greatest number -/

theorem reaches_max? (t : Table) (column : String) : t.Reaches column
    ((t.toList.filterMap fun row => (row.value column).int?).max?.getD 0) := by
  have hmem (n : Int) : n ∈ t.toList.filterMap (fun row => (row.value column).int?) ↔
      ∃ row ∈ t.toList, row.value column = .int n := by
    rw [List.mem_filterMap]
    exact exists_congr fun row => and_congr_right fun _ => Value.int?_eq_some_iff
  cases hmax : (t.toList.filterMap fun row => (row.value column).int?).max? with
  | none =>
    rw [List.max?_eq_none_iff] at hmax
    refine .inl ⟨rfl, fun row hrow n hn => ?_⟩
    have := (hmem n).2 ⟨row, hrow, hn⟩
    rw [hmax] at this
    cases this
  | some m =>
    obtain ⟨hm, hle⟩ := List.max?_eq_some_iff.1 hmax
    exact .inr ⟨(hmem m).1 hm, fun row hrow n hn => hle n ((hmem n).2 ⟨row, hrow, hn⟩)⟩

/-- The last row has the greatest number. -/
theorem Files.reaches_last (h : t.Files column) : t.Reaches column
    ((t.lastKey?.bind fun key => key.parts.head?.bind Value.int?).getD 0) := by
  rw [lastKey?, SortedMap.lastKey?]
  cases hlast : t.rows.entries.getLast? with
  | none =>
    rw [List.getLast?_eq_none_iff] at hlast
    refine .inl ⟨rfl, fun row hrow => ?_⟩
    rw [toList, SortedMap.values, hlast] at hrow
    cases hrow
  | some last =>
    obtain ⟨before, hentries⟩ := List.getLast?_eq_some_iff.1 hlast
    obtain ⟨m, hkey, hvalue⟩ := h.filed last (by rw [hentries]; simp)
    have hm : t.Reaches column m := by
      refine .inr ⟨⟨last.2, ?_, hvalue⟩, fun row hrow n hn => ?_⟩
      · rw [toList, SortedMap.values, hentries]
        simp
      · obtain ⟨p, hp, rfl⟩ := List.mem_map.1 hrow
        obtain ⟨k, hk, hown⟩ := h.filed p hp
        cases hn.symm.trans hown
        have hsorted := h.sorted
        rw [hentries] at hp hsorted
        rcases List.mem_append.1 hp with hbefore | hself
        · have hlt := (List.pairwise_append.1 hsorted).2.2 p hbefore last (by simp)
          rw [hk, hkey, Key.compare_int, Int.compare_eq_lt] at hlt
          exact hlt.le
        · cases List.mem_singleton.1 hself
          cases hown.symm.trans hvalue
          exact le_refl _
    simpa [hkey, Value.int?] using hm

end Table

/-- A field that is the whole primary key is looked up at the last key, and there it is found. -/
theorem Entity.reaches_lastNumber {e : Entity} {f : FieldDef} {t : Table}
    (hfiled : e.idFields = [f.name] → t.Files f.name) :
    t.Reaches f.name (e.lastNumber f t) := by
  simp only [lastNumber]
  split
  · next hsole => exact (hfiled hsole).reaches_last
  · exact t.reaches_max? f.name

/-! ### The next number -/

/-- The transaction of the work has the table of the entity. -/
def Work.Shows (w : Work) (e : Entity) (t : Table) : Prop :=
  w.transaction.table w.tables e.name = .ok t

theorem Work.Shows.get? {w : Work} {e : Entity} {t : Table} (h : w.Shows e t) :
    w.tables.get? e.name = some t := by
  have hview := View.table_other ⟨⟨∅⟩, w.tables, w.transaction⟩ e
  rwa [View.table, show w.transaction.table w.tables e.name = .ok t from h] at hview

namespace Operation
variable {s : Schema} {e : Entity} {f : FieldDef} {w : Work} {t : Table}

theorem run_nextIncrement (s : Schema) (f : FieldDef) (ht : w.Shows e t) :
    (nextIncrement s e f).run w =
      if e.lastNumber f t + 1 < Json.intLimit then .ok (.int (e.lastNumber f t + 1)) w
      else .error (.invalidValue e.name f.name .incrementOverflow) w := by
  have hlook : (look s fun v => v.table e).run w = .ok t w := run_look ht
  rw [nextIncrement, EStateM.run_bind, hlook]
  show (if e.lastNumber f t + 1 < Json.intLimit then _ else _ : Operation Value).run w = _
  split <;> rfl

/-- A field that is left out gets the next number, until the greatest integer is reached. -/
theorem run_absent (hd : f.default = some .autoIncrement) (hstamp : f.updatedAt = false)
    (ht : w.Shows e t) (time : DateTime) :
    (absent s e f time).run w =
      if e.lastNumber f t + 1 < Json.intLimit then .ok (.int (e.lastNumber f t + 1)) w
      else .error (.invalidValue e.name f.name .incrementOverflow) w := by
  rw [← run_nextIncrement s f ht]
  simp only [absent, hstamp, hd]
  rfl

/-- After the greatest integer no row is completed that lacks the field. -/
theorem fillDefaults_exhausted (hf : f ∈ e.fields) (hd : f.default = some .autoIncrement)
    (hstamp : f.updatedAt = false) (ht : w.Shows e t)
    (hlast : ¬ e.lastNumber f t + 1 < Json.intLimit) {row : Row} (hrow : row.get? f.name = none) :
    Triple (· = w) (fillDefaults s e row) (fun _ _ => False) fun _ w' => w.Since w' := by
  have hfield : Keeps w.Drawn (complete s e f w.supply.now.1 (row.get? f.name))
      (fun _ => False) fun _ => True := by
    intro w' hw'
    have ht' : w'.Shows e t := by
      obtain ⟨_, -, rfl⟩ := hw'
      exact ht
    have hfails : (complete s e f w.supply.now.1 none).run w' =
        .error (.invalidValue e.name f.name .incrementOverflow) w' :=
      (run_absent hd hstamp ht' _).trans (if_neg hlast)
    rw [hrow, hfails]
    exact ⟨hw', trivial⟩
  have hfields : Keeps w.Drawn (e.fields.mapM fun g => do
      return (g.name, ← complete s e g w.supply.now.1 (row.get? g.name)))
      (List.Forall₂ (fun g _ => g ≠ f) e.fields) fun _ => True :=
    Keeps.mapM_each fun g _ => by
      by_cases hg : g = f
      · subst hg
        exact Keeps.bind hfield fun _ h => h.elim
      · have hother := (drawn_complete w s e g (row.get? g.name)).mono
          (fun _ _ => trivial) fun _ _ => trivial
        exact Keeps.andThen hother fun _ => Keeps.pure hg
  refine Triple.bind (R := fun time w' => time = w.supply.now.1 ∧ w.Drawn w')
    (Triple.get fun w' hw => ?_) fun time => ?_
  · subst hw
    exact fun _ _ => ⟨rfl, _, ⟨0, rfl⟩, rfl⟩
  · intro w' hw
    obtain ⟨rfl, hw⟩ := hw
    refine Triple.bind (Triple.mono hfields (fun _ h => h) (fun _ _ h => h) fun _ _ h => h.1.since)
      (fun values w'' h => ?_) w' hw
    obtain ⟨_, -, hne⟩ := exists_of_forall₂_left h.2 hf
    exact absurd rfl hne

/-- What is made of data that leave a field out has no value there. -/
theorem keeps_createFields_left (hname : e.field? f.name = some f) {data : WriteData}
    (hplain : data.writesRelations = false) (hleft : data.last? f.name = none) :
    Keeps (· = w) (createFields s e ∅ data.fields) (fun row => row.get? f.name = none)
      fun _ => True := by
  refine Keeps.mono (keeps_createFields (· = w) s e hplain ∅) (fun row h => ?_) fun _ _ => trivial
  have hgiven : e.given? data f = none := by simp [Entity.given?, hleft]
  exact (h.2 f hname).trans (by rw [show e.given? ⟨data.fields⟩ f = none from hgiven]; rfl)

/-- After the greatest integer no row is stored for data that leave the field out. -/
theorem create_exhausted (hf : f ∈ e.fields) (hname : e.field? f.name = some f)
    (hd : f.default = some .autoIncrement) (hstamp : f.updatedAt = false) (ht : w.Shows e t)
    (hlast : ¬ e.lastNumber f t + 1 < Json.intLimit) {data : WriteData}
    (hplain : data.writesRelations = false) (hleft : data.last? f.name = none) :
    Triple (· = w) (create s e ∅ data) (fun _ _ => False) fun _ w' => w.Since w' := by
  rw [create_of_plain hplain]
  refine Triple.bind (R := fun _ _ => False) ?_ fun row _ h => h.elim
  refine Triple.bind (Triple.mono (keeps_createFields_left (w := w) hname hplain hleft)
    (fun _ h => h) (fun _ _ h => h) fun _ _ h => ⟨_, h.1⟩) fun row => Triple.of_eq fun w' hw => ?_
  obtain ⟨rfl, hrow⟩ := hw
  refine Triple.bind (Triple.mono (keeps_checkForeignKeys (· = w') s e row _) (fun _ h => h)
    (fun _ _ h => h.1) fun _ _ h => ⟨_, h.1⟩) fun _ => ?_
  exact fillDefaults_exhausted hf hd hstamp ht hlast hrow

end Operation

end RelationalStore

import RelationalStore.Proofs.LoadedRelations
import RelationalStore.Proofs.ClauseOrder

/- The views of one to-many relation: the records that a query attaches, the number that it counts,
   what the quantifiers of a filter say, and the key that an order reads. Each of them asks for the
   related rows itself and puts the filter to them in its own way, some up to the first row that
   decides. Where the filter fails on none of these rows, all of them tell of the same rows: those
   that it lets through, and all. `tally` is their number.

   What a query counts is followed through its selection, as what it loads is: the last count under
   a name stands, whatever else is attached before and after it (`attachAll_counts`). -/
namespace RelationalStore
open SortedMap Read

/-! ### What a selection counts -/

/-- The last entry under a name. -/
def lastUnder {α : Type} (name : String) : List (String × α) → Option α
  | [] => none
  | (n, a) :: rest => (lastUnder name rest).or (if n = name then some a else none)

/-- The relations that are counted, each with its filter. -/
def CountSelection.entries (e : Entity) : CountSelection → List (String × Option Filter)
  | .all => (e.relations.filter Relation.isToMany).map (·.name, none)
  | .relations entries => entries

/-- The filter that an entry of a selection counts a relation with, unless it does not count it. -/
def Selected.counted? (e : Entity) (name : String) : Selected → Option (Option Filter)
  | .flag _ => none
  | .nested _ => none
  | .count counts => lastUnder name (counts.entries e)

/-- The filter that a selection counts a relation with: the last entry that counts it stands. -/
def Selection.counted? (e : Entity) (name : String) : Selection → Option (Option Filter)
  | [] => none
  | (n, selected) :: rest =>
    (counted? e name rest).or (if n = "_count" then selected.counted? e name else none)

namespace View

/-- How many of the rows an optional filter lets through. -/
def tally (v : View) (target : Entity) (rows : List Row) (filter : Option Filter) : Nat :=
  (rows.filter (v.passes target { filter := filter })).length

section Counts
variable {v : View} {e target : Entity} {r : Relation} {rows : List Row} {record record' : Record}

/-- A count is that of the rows that the relation joins to the record's row. -/
theorem attachCount_eq {filter : Option Filter}
    (h : v.attachCount e record (r, filter) = .ok record') (ht : v.schema.entity? r.target = some target)
    (hrows : v.relatedRows r record.fields = .ok rows) :
    record' = record.attachCount r.name (v.tally target rows filter) := by
  rw [attachCount] at h
  split at h
  · cases h
  · rw [hrows, Except.ok_bind] at h
    cases filter with
    | none =>
      cases h
      rw [tally, List.filter_eq_self.2 fun row _ => by rfl]
    | some f =>
      obtain ⟨target', htarget, h⟩ := Except.bind_eq_ok.1 h
      obtain rfl := Option.some.inj (ht.symm.trans (Option.elim_ok_eq_ok.1 htarget))
      obtain ⟨kept, hkept, h⟩ := Except.bind_eq_ok.1 h
      cases h
      rw [select_ok hkept]
      rfl

theorem count?_attachCount (record : Record) (name other : String) (n : Nat) :
    (record.attachCount other n).count? name = if other = name then some n else record.count? name :=
  get?_insert_eq

/-- An entry that loads a relation counts nothing. -/
theorem yields_attachPlainly (record : Record) (name : String) :
    Yields (v.attachPlainly e record name) (fun record' => record'.counts = record.counts)
      fun _ => True := by
  refine .ite (fun _ => .error trivial) fun _ => .ite (fun _ => .pure rfl) fun _ => ?_
  refine .andThen .any fun r' => .andThen .any fun _ => ?_
  exact .ite (fun _ => .pure rfl) fun _ => .andThen .any fun _ => .pure rfl

section
variable (he : e.Distinguishes) (hr : r ∈ e.relations) (ht : v.schema.entity? r.target = some target)
include he hr ht

/-- Of the counts of some relations that of the last one under the name stands. -/
theorem foldlM_attachCount {wanted : List (Relation × Option Filter)}
    (hwanted : ∀ p ∈ wanted, p.1 ∈ e.relations)
    (h : wanted.foldlM (v.attachCount e) record = .ok record')
    (hrows : v.relatedRows r record.fields = .ok rows) :
    record'.count? r.name =
      ((lastUnder r.name (wanted.map fun p => (p.1.name, p.2))).map (v.tally target rows)).or
        (record.count? r.name) := by
  induction wanted generalizing record with
  | nil =>
    cases h
    rfl
  | cons p rest ih =>
    obtain ⟨r', filter⟩ := p
    obtain ⟨hr', hrest⟩ := List.forall_mem_cons.1 hwanted
    rw [List.foldlM_cons] at h
    obtain ⟨record₁, hone, h⟩ := Except.bind_eq_ok.1 h
    have hcount := yields_attachCount (v := v) e record (r', filter)
    rw [hone] at hcount
    obtain ⟨n, hn⟩ := hcount
    rw [ih hrest h (by rw [hn]; exact hrows), List.map_cons, lastUnder]
    by_cases hname : r'.name = r.name
    · obtain rfl : r' = r := by
        have hfound := (he r' hr').1
        rw [hname, (he r hr).1] at hfound
        exact (Option.some.inj hfound).symm
      rw [attachCount_eq hone ht hrows, count?_attachCount, if_pos rfl, if_pos rfl]
      cases lastUnder r'.name (rest.map fun p => (p.1.name, p.2)) <;> rfl
    · rw [hn, count?_attachCount, if_neg hname, if_neg hname, Option.or_none]

theorem attachCounts_eq {counts : CountSelection}
    (h : v.attachCounts e record counts = .ok record')
    (hrows : v.relatedRows r record.fields = .ok rows) :
    record'.count? r.name =
      ((lastUnder r.name (counts.entries e)).map (v.tally target rows)).or (record.count? r.name) := by
  obtain ⟨wanted, hwanted, hentries, h⟩ : ∃ wanted : List (Relation × Option Filter),
      (∀ p ∈ wanted, p.1 ∈ e.relations) ∧
        wanted.map (fun p => (p.1.name, p.2)) = counts.entries e ∧
          wanted.foldlM (v.attachCount e) record = .ok record' := by
    cases counts with
    | all =>
      refine ⟨(e.relations.filter Relation.isToMany).map (·, none), fun p hp => ?_, ?_, h⟩
      · obtain ⟨r', hr', rfl⟩ := List.mem_map.1 hp
        exact (List.mem_filter.1 hr').1
      · rw [List.map_map]
        rfl
    | relations entries =>
      obtain ⟨wanted, hwanted, h⟩ := Except.bind_eq_ok.1 h
      have hpairs : List.Forall₂ (fun entry (p : Relation × Option Filter) =>
          (p.1.name, p.2) = id entry ∧ p.1 ∈ e.relations) entries wanted := by
        refine (Except.mapM_eq_ok.1 hwanted).imp fun entry p hp => ?_
        obtain ⟨r', hr', hp⟩ := Except.bind_eq_ok.1 hp
        cases hp
        have hfound := Option.elim_ok_eq_ok.1 hr'
        have hname : r'.name = entry.1 := by simpa using List.find?_some hfound
        exact ⟨by rw [hname]; rfl, List.mem_of_find?_eq_some hfound⟩
      refine ⟨wanted, fun p hp => ?_, ?_, h⟩
      · obtain ⟨entry, -, -, hmem⟩ := exists_of_forall₂_right hpairs hp
        exact hmem
      · exact (Schema.map_eq_of_forall₂ (hpairs.imp fun _ _ h => h.1)).trans (List.map_id _)
  rw [foldlM_attachCount he hr ht hwanted h hrows, hentries]

theorem attachOne_counts {name : String} {selected : Selected}
    (h : v.attachOne e record name selected = .ok record')
    (hrows : v.relatedRows r record.fields = .ok rows) :
    record'.count? r.name =
      ((if name = "_count" then selected.counted? e r.name else none).map (v.tally target rows)).or
        (record.count? r.name) := by
  have hnone (hcounts : record'.counts = record.counts) :
      record'.count? r.name = record.count? r.name := by
    rw [Record.count?, hcounts]
    rfl
  have hplainly (h : v.attachPlainly e record name = .ok record') :
      record'.count? r.name = record.count? r.name := by
    have hcounts := yields_attachPlainly (v := v) (e := e) record name
    rw [h] at hcounts
    exact hnone hcounts
  cases selected with
  | flag wanted =>
    rw [Selected.counted?, ite_self]
    cases wanted with
    | false =>
      rw [attachOne] at h
      cases h
      rfl
    | true =>
      rw [attachOne] at h
      exact hplainly h
  | count counts =>
    rw [attachOne] at h
    split at h
    · next hname =>
      rw [if_pos hname]
      exact attachCounts_eq he hr ht h hrows
    · next hname =>
      rw [if_neg hname]
      exact hplainly h
  | nested sub =>
    rw [Selected.counted?, ite_self]
    rw [attachOne] at h
    split at h
    · cases h
    · split at h
      · cases h
      · obtain ⟨r', -, h⟩ := Except.bind_eq_ok.1 h
        obtain ⟨target', -, h⟩ := Except.bind_eq_ok.1 h
        split at h
        · cases h
          exact hnone rfl
        · obtain ⟨related, -, h⟩ := Except.bind_eq_ok.1 h
          obtain ⟨result, -, h⟩ := Except.bind_eq_ok.1 h
          obtain ⟨records, -, h⟩ := Except.bind_eq_ok.1 h
          cases h
          exact hnone rfl

theorem attachAll_counts {entries : Selection} (h : v.attachAll e record entries = .ok record')
    (hrows : v.relatedRows r record.fields = .ok rows) :
    record'.count? r.name =
      ((Selection.counted? e r.name entries).map (v.tally target rows)).or (record.count? r.name) := by
  induction entries generalizing record with
  | nil =>
    rw [attachAll] at h
    cases h
    rfl
  | cons entry rest ih =>
    obtain ⟨name, selected⟩ := entry
    rw [attachAll] at h
    obtain ⟨record₁, hone, h⟩ := Except.bind_eq_ok.1 h
    have hadds := adds_attachOne (v := v) he record name selected
    rw [hone] at hadds
    rw [ih h (by rw [hadds.fields]; exact hrows), attachOne_counts he hr ht hone hrows,
      Selection.counted?]
    cases Selection.counted? e r.name rest <;> rfl

/-- What a query counts of a row. -/
theorem record_counts {q : Query} {row : Row} (hrows : v.relatedRows r row = .ok rows)
    (h : v.record e q row = .ok record) :
    record.count? r.name = (Selection.counted? e r.name q.projections).map (v.tally target rows) := by
  obtain ⟨whole, hwhole, rfl⟩ := record_ok h
  have hcounts := attachAll_counts he hr ht hwhole hrows
  have hnone : (Record.ofRow row).count? r.name = none := rfl
  rw [hnone, Option.or_none] at hcounts
  cases hselect : q.select with
  | none => exact hcounts
  | some select => exact hcounts

/-- As many records are attached as rows pass, where the query keeps all of these. -/
theorem record_many (hmany : r.isToMany) {q sub : Query} {row : Row}
    (hrows : v.relatedRows r row = .ok rows) (h : v.record e q row = .ok record)
    (hsub : Selection.query? r.name q.projections = some sub) (hdistinct : sub.distinct = [])
    (hunpaged : sub.unpaged = sub) :
    (record.many r.name).length = v.tally target rows sub.filter := by
  have hshows := (record_shows he h).relations r hr
  rw [hsub] at hshows
  obtain ⟨related, hrelated, hloads⟩ := hshows
  obtain ⟨target', records, ht', rfl, hloads⟩ := hloads
  obtain rfl := Option.some.inj (ht.symm.trans ht')
  have hrecords : record.many r.name = records := by
    rw [Record.many, hrelated, Related.ofRecords, if_pos hmany]
  rw [hrecords]
  rw [relatedRows] at hrows
  split at hloads
  · next hnull =>
    rw [if_pos hnull] at hrows
    cases hrows
    rw [hloads]
    rfl
  · next hnull =>
    rw [if_neg hnull, Schema.require, ht] at hrows
    obtain ⟨rows', hrows', hloads⟩ := Except.bind_eq_ok.1 hloads
    obtain rfl : rows' = rows := Except.ok.inj (hrows'.symm.trans hrows)
    obtain ⟨result, hresult, hattach⟩ := Except.bind_eq_ok.1 hloads
    rw [← hunpaged] at hresult
    obtain ⟨sorted, hsorted, hkept⟩ := readRows_unpaged hresult
    rw [if_pos hdistinct] at hkept
    rw [← (attach_eq_ok.1 hattach).2.length_eq, hkept, (sort_perm hsorted).length_eq]
    rfl

end

end Counts

/-! ### What the quantifiers say -/

section Quantifiers
variable {v : View} {e target : Entity} {r : Relation} {row : Row} {rows : List Row} {W : Filter}

/-- A filter that is a test of one relation. -/
def testing (name : String) (test : RelationTest) : Filter := Filter.and {} name (.relation test)

theorem lets_testing (he : e.Distinguishes) (hr : r ∈ e.relations) (row : Row) (test : RelationTest) :
    v.lets e row (testing r.name test) = v.meetsTest e r row test := by
  have hsubject : e.subject r.name = .ok (.relation r) := by
    rw [Entity.subject, (he r hr).2.1, (he r hr).1]
  have hone : v.meetsOne e row r.name (.relation test) = v.meetsTest e r row test := by
    rw [meetsOne, hsubject]
    rfl
  rw [lets_parts]
  show Read.all [[(r.name, Condition.relation test)].allM fun c => v.meetsOne e row c.1 c.2,
    .ok true, .ok true, .ok true] = _
  rw [List.allM, hone]
  cases v.meetsTest e r row test with
  | error err => rfl
  | ok met => cases met <;> rfl

/-- The opposite filter. -/
def opposite (W : Filter) : Filter := { exclusions := [W] }

theorem lets_opposite (v : View) (e : Entity) (row : Row) (W : Filter) :
    v.lets e row (opposite W) = Read.not (v.lets e row W) := by
  rw [lets_parts]
  show Read.all [.ok true, .ok true, .ok true, Read.not ([W].anyM (v.lets e row))] = _
  rw [List.anyM]
  cases v.lets e row W with
  | error err => rfl
  | ok met => cases met <;> rfl

section
variable (ht : v.schema.entity? r.target = some target) (hmany : r.isToMany)
  (hrows : v.relatedRows r row = .ok rows) {p : Row → Bool}
  (hW : ∀ x ∈ rows, v.lets target x W = .ok (p x))
include ht hmany hrows hW

theorem meetsTest_some :
    v.meetsTest e r row { someOf := some W } = .ok (decide (0 < (rows.filter p).length)) := by
  rw [meetsTest_many (Option.elim_ok_eq_ok.2 ht) hrows hmany, Option.elim_some, Read.anyM_ok hW]
  exact (Read.all_ok [true, _, true]).trans (Read.ok_eq_decide (by simp [List.length_pos_iff]))

theorem meetsTest_none :
    v.meetsTest e r row { noneOf := some W } = .ok (decide ((rows.filter p).length = 0)) := by
  rw [meetsTest_many (Option.elim_ok_eq_ok.2 ht) hrows hmany, Option.elim_some, Read.anyM_ok hW]
  exact (Read.all_ok [true, true, _]).trans (Read.ok_eq_decide (by simp))

theorem meetsTest_every : v.meetsTest e r row { every := some W } =
    .ok (decide ((rows.filter p).length = rows.length)) := by
  rw [meetsTest_many (Option.elim_ok_eq_ok.2 ht) hrows hmany, Option.elim_some, Read.allM_ok hW]
  exact (Read.all_ok [_, true, true]).trans (Read.ok_eq_decide (by simp))

end

end Quantifiers

/-! ### All views together -/

/-- The number of related rows that pass a filter, and their records. -/
def both (r : Relation) (W : Filter) : Selection :=
  [("_count", .count (.relations [(r.name, some W)])), (r.name, .nested { filter := some W })]

theorem counted?_both (e : Entity) (r : Relation) (W : Filter) :
    Selection.counted? e r.name (both r W) = some (some W) := by
  simp [both, Selection.counted?, Selected.counted?, CountSelection.entries, lastUnder]

theorem query?_both (r : Relation) (W : Filter) :
    Selection.query? r.name (both r W) = some { filter := some W } := by
  simp [both, Selection.query?, Selected.query?]

section Agreement
variable {v : View} {e target : Entity} {r : Relation} {row : Row} {rows : List Row} {W : Filter}

theorem readRows_filter {p : Row → Bool} (hW : ∀ x ∈ rows, v.lets target x W = .ok (p x)) :
    v.readRows target { filter := some W } rows = .ok (rows.filter p) := by
  have hselect : v.select target rows W = .ok (rows.filter p) := Read.filterM_ok hW
  have hrest := readRows_plain (v := v) (e := target) (rows.filter p)
  rw [readRows] at hrest ⊢
  simp only [hselect, Except.ok_bind]
  exact hrest

/-- The records with the number and the related records can be made. -/
theorem exists_record_both (he : e.Distinguishes) (hr : r ∈ e.relations)
    (ht : v.schema.entity? r.target = some target) (hmany : r.isToMany)
    (hrows : v.relatedRows r row = .ok rows) {p : Row → Bool}
    (hW : ∀ x ∈ rows, v.lets target x W = .ok (p x)) {q : Query}
    (hq : q.select = none ∨ q.load = none) (hboth : q.projections = both r W) :
    ∃ record, v.record e q row = .ok record := by
  obtain ⟨hname, hfield, hcount⟩ := he r hr
  have hrequire : e.requireRelation r.name = .ok r := Option.elim_ok_eq_ok.2 hname
  have htarget : v.schema.require r.target = .ok target := Option.elim_ok_eq_ok.2 ht
  have hselect : v.select target rows W = .ok (rows.filter p) := Read.filterM_ok hW
  have hcounted : v.attachOne e (.ofRow row) "_count" (.count (.relations [(r.name, some W)])) =
      .ok ((Record.ofRow row).attachCount r.name (rows.filter p).length) := by
    have hone : v.attachCount e (.ofRow row) (r, some W) =
        .ok ((Record.ofRow row).attachCount r.name (rows.filter p).length) := by
      simp only [attachCount, hmany, Record.ofRow, hrows, htarget, Except.ok_bind, hselect]
      rfl
    rw [attachOne, if_pos rfl, attachCounts, List.mapM_cons, List.mapM_nil]
    simp only [hrequire, Except.ok_bind, pure_bind, List.foldlM_cons, hone]
    rfl
  have hlacks : lacksKey r row = false := by
    have howning : r.isOwning = false := by
      rw [Relation.isToMany, beq_iff_eq] at hmany
      rw [Relation.isOwning, hmany]
      rfl
    rw [lacksKey, howning, Bool.false_and]
  have hloaded (record : Record) (hfields : record.fields = row) :
      v.attachOne e record r.name (.nested { filter := some W }) =
        .ok (record.attach r.name (.ofRecords r ((rows.filter p).map .ofRow))) := by
    rw [attachOne, if_neg hcount, hfield, hrequire, Except.ok_bind, htarget, Except.ok_bind, hfields,
      hlacks, hrows, Except.ok_bind, readRows_filter hW, Except.ok_bind, attach]
    rfl
  rw [record_eq hq, hboth, both, attachAll, hcounted, Except.ok_bind, attachAll, hloaded _ rfl,
    Except.ok_bind, attachAll]
  exact ⟨_, rfl⟩

/-- Where a filter fails on none of the rows that a to-many relation joins to a row, the views of the
relation agree. A query counts as many related rows as it attaches records under the filter, or counts
all of them if it counts without one; some row passes where the count is positive, none where it is
zero, and every row where it is the number of all, which is when none passes the opposite filter; and
the key that an order by number reads is the number of all. -/
theorem relation_views_agree {defs : List EntityDef} (hs : Schema.ofDefs defs = .ok v.schema)
    (he : v.schema.entity? e.name = some e) (hr : r ∈ e.relations) (hmany : r.isToMany)
    (hrows : v.relatedRows r row = .ok rows)
    (hW : ∀ target, v.schema.entity? r.target = some target →
      ∀ x ∈ rows, ∃ met, v.lets target x W = .ok met) :
    ∃ n ≤ rows.length,
      (∀ q : Query, q.select = none ∨ q.load = none → q.projections = both r W →
        ∃ record, v.record e q row = .ok record) ∧
      (∀ q record, v.record e q row = .ok record →
        (Selection.counted? e r.name q.projections = some (some W) → record.count? r.name = some n) ∧
        (Selection.counted? e r.name q.projections = some none →
          record.count? r.name = some rows.length) ∧
        ∀ sub, Selection.query? r.name q.projections = some sub → sub.filter = some W →
          sub.distinct = [] → sub.unpaged = sub → (record.many r.name).length = n) ∧
      v.lets e row (testing r.name { someOf := some W }) = .ok (decide (0 < n)) ∧
      v.lets e row (testing r.name { noneOf := some W }) = .ok (decide (n = 0)) ∧
      v.lets e row (testing r.name { every := some W }) = .ok (decide (n = rows.length)) ∧
      v.lets e row (testing r.name { every := some W }) =
        v.lets e row (testing r.name { noneOf := some (opposite W) }) ∧
      ∀ direction, v.sortKeys e (some row) [⟨r.name, .count direction⟩] =
        .ok [⟨.int rows.length, direction, none⟩] := by
  have hnames := Schema.distinguishes_ofDefs hs he
  obtain ⟨target, ht⟩ := Schema.target_ofDefs hs he hr
  let p (x : Row) : Bool := (v.lets target x W).toOption.any id
  have hp : ∀ x ∈ rows, v.lets target x W = .ok (p x) := by
    intro x hx
    obtain ⟨met, hmet⟩ := hW target ht x hx
    show v.lets target x W = .ok ((v.lets target x W).toOption.any id)
    rw [hmet]
    cases met <;> rfl
  have hopposite : ∀ x ∈ rows, v.lets target x (opposite W) = .ok (!p x) := by
    intro x hx
    rw [lets_opposite, hp x hx, Read.not_ok]
  refine ⟨(rows.filter p).length, List.length_filter_le .., fun q hq hboth =>
    exists_record_both hnames hr ht hmany hrows hp hq hboth, fun q record h => ⟨fun hcounted => ?_,
      fun hcounted => ?_, fun sub hsub hfilter hdistinct hunpaged => ?_⟩, ?_, ?_, ?_, ?_,
    fun direction => ?_⟩
  · rw [record_counts hnames hr ht hrows h, hcounted]
    rfl
  · rw [record_counts hnames hr ht hrows h, hcounted, Option.map_some, tally,
      List.filter_eq_self.2 fun row _ => by rfl]
  · rw [record_many hnames hr ht hmany hrows h hsub hdistinct hunpaged, hfilter]
    rfl
  · rw [lets_testing hnames hr, meetsTest_some ht hmany hrows hp]
  · rw [lets_testing hnames hr, meetsTest_none ht hmany hrows hp]
  · rw [lets_testing hnames hr, meetsTest_every ht hmany hrows hp]
  · rw [lets_testing hnames hr, lets_testing hnames hr, meetsTest_every ht hmany hrows hp,
      meetsTest_none ht hmany hrows hopposite]
    exact Read.ok_eq_decide (by simp)
  · have hrequire : e.requireRelation r.name = .ok r := Option.elim_ok_eq_ok.2 (hnames r hr).1
    rw [sortKeys, clauseKeys, leafKeys, hrequire, Except.ok_bind, hmany, countKey, hrows, sortKeys]
    rfl

end Agreement

end View

namespace Client
open View

/-- Readings that are low, of the first meter. -/
def lowOfFirst : Filter :=
  (Filter.whereEquals {} "note" (.string "low")).and "meter"
    (.nested (Filter.whereEquals {} "id" (.int 1)))

/-- The first meter has two readings, of which one is low. -/
theorem relation_views_agree_measured : ∃ (c₀ : Client) (e : Entity) (r : Relation) (row : Row)
    (rows : List Row),
    Schema.ofDefs EntityDef.readings = .ok c₀.schema ∧ c₀.Opened c₀.schema ∧
      c₀.schema.entity? e.name = some e ∧ r ∈ e.relations ∧ r.isToMany ∧
      let v : View := ⟨c₀.schema, (measure.foldl after c₀).store.tables, browse⟩
      v.relatedRows r row = .ok rows ∧ rows.length = 2 ∧
        (∀ target, c₀.schema.entity? r.target = some target →
          ∀ x ∈ rows, ∃ met, v.lets target x lowOfFirst = .ok met) ∧
        v.lets e row (testing r.name { someOf := some lowOfFirst }) = .ok true ∧
        v.lets e row (testing r.name { every := some lowOfFirst }) = .ok false ∧
        ∃ record, v.record e { select := some (both r lowOfFirst) } row = .ok record ∧
          record.count? r.name = some 1 ∧ (record.many r.name).length = 1 := by
  have hruns : (openMemory EntityDef.readings).toOption.any fun c₀ =>
      let v : View := ⟨c₀.schema, (measure.foldl after c₀).store.tables, browse⟩
      true = (c₀.schema.entity? "meter").any fun e => (e.relation? "readings").any fun r =>
        (v.rows e).toOption.any fun meters => meters.head?.any fun row =>
          (v.relatedRows r row).toOption.any fun rows =>
            rows.length = 2 ∧ r.isToMany ∧
              ((c₀.schema.entity? r.target).all fun target =>
                rows.all fun x => (v.lets target x lowOfFirst).isOk) ∧
              (v.lets e row (testing r.name { someOf := some lowOfFirst })).toOption = some true ∧
              (v.lets e row (testing r.name { every := some lowOfFirst })).toOption = some false := by
    decide +kernel
  obtain ⟨c₀, hs, hc₀, -, hrun⟩ := exists_openMemory hruns
  obtain ⟨e, he, hrun⟩ := (Option.any_eq_true _ _).1 hrun.symm
  obtain ⟨r, hr, hrun⟩ := (Option.any_eq_true _ _).1 hrun
  obtain ⟨meters, -, hrun⟩ := (Option.any_eq_true _ _).1 hrun
  obtain ⟨row, -, hrun⟩ := (Option.any_eq_true _ _).1 hrun
  obtain ⟨rows, hrows, hrun⟩ := (Option.any_eq_true _ _).1 hrun
  obtain ⟨hlength, hmany, hmet, hsome, hevery⟩ := of_decide_eq_true hrun
  have hrows := Except.toOption_eq_some.1 hrows
  have hsome := Except.toOption_eq_some.1 hsome
  have hevery := Except.toOption_eq_some.1 hevery
  have hname : e.name = "meter" := (Schema.Resolved.ofDefs hs).name he
  rw [← hname] at he
  have hr := List.mem_of_find?_eq_some hr
  have hW : ∀ target, c₀.schema.entity? r.target = some target → ∀ x ∈ rows, ∃ met,
      View.lets ⟨c₀.schema, (measure.foldl after c₀).store.tables, browse⟩ target x lowOfFirst =
        .ok met := by
    intro target ht x hx
    rw [ht] at hmet
    have hok := List.all_eq_true.1 hmet x hx
    cases hlets : View.lets ⟨c₀.schema, (measure.foldl after c₀).store.tables, browse⟩ target x
      lowOfFirst with
    | error err =>
      rw [hlets] at hok
      cases hok
    | ok met => exact ⟨met, rfl⟩
  obtain ⟨n, hle, hexists, hviews, hpositive, -, hall, -, -⟩ :=
    relation_views_agree hs he hr hmany hrows hW
  have hn : n = 1 := by
    rw [hpositive] at hsome
    rw [hall] at hevery
    have := of_decide_eq_true (Except.ok.inj hsome)
    have := of_decide_eq_false (Except.ok.inj hevery)
    omega
  obtain ⟨record, hrecord⟩ := hexists { select := some (both r lowOfFirst) } (.inr rfl)
    (List.append_nil _)
  obtain ⟨hcounted, -, hloaded⟩ := hviews _ record hrecord
  refine ⟨c₀, e, r, row, rows, hs, hc₀, he, hr, hmany, hrows, hlength, hW, hsome, hevery, record,
    hrecord, ?_, ?_⟩
  · rw [← hn]
    exact hcounted (counted?_both e r lowOfFirst)
  · rw [← hn]
    exact hloaded _ (query?_both r lowOfFirst) rfl rfl rfl

end Client

end RelationalStore

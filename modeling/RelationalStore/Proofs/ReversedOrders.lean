import Mathlib.Data.List.Pairwise
import RelationalStore.Proofs.ClauseOrder

/- Orders turned around. Turning every clause around twice gives the order back, and turns what two
   rows' keys say of them around once: the same keys are read off a row, each with its direction
   reversed (`sortKeys_reversedAll`). Nulls that have no place of their own change sides with the
   others. Whether the sorted rows are turned around as well is a question of the order itself.
   Where it is one (`Comparable`) and tells any two rows apart, sorting has no choice; numbers of
   several kinds in one column can be greater than each other all around, and the sort breaks the
   circle in one direction at another place than in the other one (`reversed_opposes_mixed`). -/
namespace RelationalStore
open SortedMap Read

/-! ### Clauses -/

theorem Direction.reversed_reversed (direction : Direction) :
    direction.reversed.reversed = direction := by
  cases direction <;> rfl

namespace OrderBy

mutual

theorem reversed_reversed : ∀ clause : OrderBy, clause.reversed.reversed = clause
  | ⟨name, key⟩ => by
    rw [reversed, reversed, reversedKey_reversedKey key]

theorem reversedKey_reversedKey : ∀ key : OrderKey, reversedKey (reversedKey key) = key
  | .scalar direction nulls => by
    rw [reversedKey, reversedKey, direction.reversed_reversed]
  | .count direction => by
    rw [reversedKey, reversedKey, direction.reversed_reversed]
  | .relation clauses => by
    rw [reversedKey, reversedKey, reversedAll_reversedAll clauses]

theorem reversedAll_reversedAll : ∀ order : List OrderBy, reversedAll (reversedAll order) = order
  | [] => by rw [reversedAll, reversedAll]
  | clause :: rest => by
    rw [reversedAll, reversedAll, reversed_reversed clause, reversedAll_reversedAll rest]

end

mutual

/-- Whether the clause says nowhere itself where it puts the rows without a value. -/
def leavesNulls : OrderBy → Bool
  | ⟨_, key⟩ => leavesNullsUnder key

def leavesNullsUnder : OrderKey → Bool
  | .scalar _ nulls => nulls.isNone
  | .count _ => true
  | .relation clauses => leavesNullsAll clauses

def leavesNullsAll : List OrderBy → Bool
  | [] => true
  | clause :: rest => leavesNulls clause && leavesNullsAll rest

end

end OrderBy

/-! ### Keys -/

namespace SortKey

/-- The key with its direction turned around. -/
def reversed (k : SortKey) : SortKey := { k with direction := k.direction.reversed }

theorem compare_reversed {a : SortKey} (ha : a.nulls = none) (b : SortKey) :
    compare a.reversed b.reversed = (compare a b).swap := by
  obtain ⟨x, direction, nulls⟩ := a
  obtain ⟨y, -, -⟩ := b
  cases ha
  cases hx : x.isNull <;> cases hy : y.isNull <;> cases direction <;>
    simp [compare, reversed, Direction.reversed, nullsFirst, hx, hy]

theorem compareAll_reversed {as : List SortKey} (has : ∀ a ∈ as, a.nulls = none)
    (bs : List SortKey) :
    compareAll (as.map reversed) (bs.map reversed) = (compareAll as bs).swap := by
  induction as generalizing bs with
  | nil => rfl
  | cons a as ih =>
    obtain ⟨ha, has⟩ := List.forall_mem_cons.1 has
    cases bs with
    | nil => rfl
    | cons b bs =>
      rw [List.map_cons, List.map_cons, compareAll, compareAll, compare_reversed ha, ih has,
        Ordering.swap_then]

end SortKey

namespace View
variable {v : View} {e : Entity}
open SortKey (compareAll)
open OrderBy

mutual

/-- The keys of a row under the clauses turned around. -/
theorem sortKeys_reversedAll (v : View) (e : Entity) (row : Option Row) : ∀ order : List OrderBy,
    v.sortKeys e row (reversedAll order) = (v.sortKeys e row order).map (·.map SortKey.reversed)
  | [] => by
    rw [reversedAll, sortKeys]
    rfl
  | clause :: rest => by
    rw [reversedAll, sortKeys, sortKeys, clauseKeys_reversed v e row clause,
      sortKeys_reversedAll v e row rest]
    cases v.clauseKeys e row clause with
    | error err => rfl
    | ok keys =>
      cases v.sortKeys e row rest with
      | error err => rfl
      | ok more => exact congrArg Except.ok List.map_append.symm

theorem clauseKeys_reversed (v : View) (e : Entity) (row : Option Row) : ∀ clause : OrderBy,
    v.clauseKeys e row clause.reversed = (v.clauseKeys e row clause).map (·.map SortKey.reversed)
  | ⟨name, key⟩ => by
    rw [reversed, clauseKeys, clauseKeys]
    exact leafKeys_reversedKey v e row name key

theorem leafKeys_reversedKey (v : View) (e : Entity) (row : Option Row) (name : String) :
    ∀ key : OrderKey, v.leafKeys e row name (reversedKey key) =
      (v.leafKeys e row name key).map (·.map SortKey.reversed)
  | .scalar direction nulls => by
    rw [reversedKey, leafKeys, leafKeys]
    cases e.requireField name with
    | error err => rfl
    | ok f =>
      rw [Except.ok_bind, Except.ok_bind]
      split <;> rfl
  | .count direction => by
    rw [reversedKey, leafKeys, leafKeys]
    cases e.requireRelation name with
    | error err => rfl
    | ok r =>
      rw [Except.ok_bind, Except.ok_bind]
      split
      · rfl
      · cases v.countKey r row <;> rfl
  | .relation clauses => by
    rw [reversedKey, leafKeys, leafKeys]
    cases e.requireRelation name with
    | error err => rfl
    | ok r =>
      rw [Except.ok_bind, Except.ok_bind]
      split
      · rfl
      · cases v.schema.require r.target with
        | error err => rfl
        | ok target =>
          cases v.oneRelated? r row with
          | error err => rfl
          | ok related => exact sortKeys_reversedAll v target related clauses

end
mutual

theorem nulls_sortKeys (v : View) (e : Entity) (row : Option Row) :
    ∀ (order : List OrderBy) {keys : List SortKey}, leavesNullsAll order →
      v.sortKeys e row order = .ok keys → ∀ k ∈ keys, k.nulls = none
  | [], _, _, h => by
    rw [sortKeys] at h
    cases h
    simp
  | clause :: rest, _, hnulls, h => by
    rw [leavesNullsAll, Bool.and_eq_true] at hnulls
    rw [sortKeys] at h
    obtain ⟨first, hfirst, h⟩ := Except.bind_eq_ok.1 h
    obtain ⟨others, hothers, h⟩ := Except.bind_eq_ok.1 h
    cases h
    exact List.forall_mem_append.2 ⟨nulls_clauseKeys v e row clause hnulls.1 hfirst,
      nulls_sortKeys v e row rest hnulls.2 hothers⟩

theorem nulls_clauseKeys (v : View) (e : Entity) (row : Option Row) :
    ∀ (clause : OrderBy) {keys : List SortKey}, clause.leavesNulls →
      v.clauseKeys e row clause = .ok keys → ∀ k ∈ keys, k.nulls = none
  | ⟨name, key⟩, _, hnulls, h => by
    rw [leavesNulls] at hnulls
    rw [clauseKeys] at h
    exact nulls_leafKeys v e row name key hnulls h

theorem nulls_leafKeys (v : View) (e : Entity) (row : Option Row) (name : String) :
    ∀ (key : OrderKey) {keys : List SortKey}, leavesNullsUnder key →
      v.leafKeys e row name key = .ok keys → ∀ k ∈ keys, k.nulls = none
  | .scalar direction nulls, _, hnulls, h => by
    rw [leavesNullsUnder, Option.isNone_iff_eq_none] at hnulls
    rw [leafKeys_scalar h, List.forall_mem_singleton]
    exact hnulls
  | .count direction, _, _, h => by
    obtain ⟨r, -, rfl⟩ := leafKeys_count h
    exact List.forall_mem_singleton.2 rfl
  | .relation clauses, _, hnulls, h => by
    rw [leavesNullsUnder] at hnulls
    obtain ⟨r, target, -, -, h⟩ := leafKeys_relation h
    exact nulls_sortKeys v target (v.partner r row) clauses hnulls h

end

/-! ### Sorting -/

section Turned
variable {order : List OrderBy} {rows sorted : List Row} {a b : Row} {as bs : List SortKey}

/-- The keys of two rows under the clauses turned around give the opposite order. -/
theorem compareAll_sortKeys_reversed (hnulls : leavesNullsAll order) {a b : Option Row}
    (ha : v.sortKeys e a order = .ok as) (hb : v.sortKeys e b order = .ok bs) :
    ∃ as' bs', v.sortKeys e a (reversedAll order) = .ok as' ∧
      v.sortKeys e b (reversedAll order) = .ok bs' ∧
        compareAll as' bs' = (compareAll as bs).swap := by
  refine ⟨as.map SortKey.reversed, bs.map SortKey.reversed, ?_, ?_,
    SortKey.compareAll_reversed (nulls_sortKeys v e a order hnulls ha) bs⟩
  · rw [sortKeys_reversedAll, ha]
    rfl
  · rw [sortKeys_reversedAll, hb]
    rfl

theorem KeysAligned.reversed {rows : List (Option Row)}
    (h : KeysAligned rows (v.sortKeys e · order)) :
    KeysAligned rows (v.sortKeys e · (reversedAll order)) := by
  obtain ⟨leaves, h⟩ := h
  refine ⟨leaves.map fun l => ⟨l.numbers, l.direction.reversed, l.nulls⟩, fun row hrow ks hks => ?_⟩
  simp only [sortKeys_reversedAll] at hks
  obtain ⟨keys, hkeys, rfl⟩ := Except.map_eq_ok.1 hks
  refine List.forall₂_map_left_iff.2 (List.forall₂_map_right_iff.2 ((h row hrow keys hkeys).imp ?_))
  intro leaf k hk
  exact ⟨hk.within, congrArg Direction.reversed hk.direction, hk.nulls⟩

section Rows
variable (haligned : KeysAligned (rows.map some) (v.sortKeys e · order)) (ha : a ∈ rows)
  (hb : b ∈ rows)
include haligned ha hb

theorem compareAll_swap (has : v.sortKeys e (some a) order = .ok as)
    (hbs : v.sortKeys e (some b) order = .ok bs) : compareAll as bs = (compareAll bs as).swap := by
  obtain ⟨leaves, haligned⟩ := haligned
  exact SortKey.compareAll_eq_swap (haligned _ (List.mem_map_of_mem ha) as has)
    (haligned _ (List.mem_map_of_mem hb) bs hbs)

/-- The clauses turned around put two rows the other way round. -/
theorem precedes_reversed_iff (hnulls : leavesNullsAll order) (h : v.sort e order rows = .ok sorted) :
    v.Precedes e (reversedAll order) b a ↔ v.Precedes e order a b := by
  obtain ⟨as, has⟩ := exists_sortKeys h ha
  obtain ⟨bs, hbs⟩ := exists_sortKeys h hb
  obtain ⟨bs', as', hbs', has', hswap⟩ := compareAll_sortKeys_reversed hnulls hbs has
  rw [← compareAll_swap haligned ha hb has hbs] at hswap
  constructor
  · rintro ⟨bs'', as'', hbs'', has'', hle⟩
    obtain rfl := Except.ok.inj (hbs'.symm.trans hbs'')
    obtain rfl := Except.ok.inj (has'.symm.trans has'')
    exact ⟨as, bs, has, hbs, hswap ▸ hle⟩
  · rintro ⟨as'', bs'', has'', hbs'', hle⟩
    obtain rfl := Except.ok.inj (has.symm.trans has'')
    obtain rfl := Except.ok.inj (hbs.symm.trans hbs'')
    exact ⟨bs', as', hbs', has', hswap ▸ hle⟩

theorem ties_of_precedes (hab : v.Precedes e order a b) (hba : v.Precedes e order b a) :
    v.compareRows e (some a) (some b) order = .eq := by
  obtain ⟨as, bs, has, hbs, hle⟩ := hab
  obtain ⟨bs', as', hbs', has', hge⟩ := hba
  obtain rfl := Except.ok.inj (has.symm.trans has')
  obtain rfl := Except.ok.inj (hbs.symm.trans hbs')
  rw [compareAll_swap haligned hb ha hbs has] at hge
  rw [← (sortKeys_compare v e (some a) (some b) order has hbs).2]
  cases hcompare : compareAll as bs <;> simp_all

end Rows

/-- Rows of which no two tie are sorted by the clauses turned around into the opposite order. -/
theorem sort_reversedAll (hnulls : leavesNullsAll order)
    (hrows : v.Comparable e (rows.map some) order) (h : v.sort e order rows = .ok sorted)
    (hties : rows.Pairwise fun a b => v.compareRows e (some a) (some b) order ≠ .eq) :
    v.sort e (reversedAll order) rows = .ok sorted.reverse := by
  have haligned := sortKeys_aligned e order hrows
  obtain ⟨turned, hturned⟩ : ∃ turned, v.sort e (reversedAll order) rows = .ok turned := by
    refine ⟨_, sort_of_places _ (fun row hrow => ?_) fun _ _ _ _ => rfl⟩
    obtain ⟨ks, hks⟩ := exists_sortKeys h hrow
    rw [sortKeys_reversedAll, hks]
    rfl
  have hstably := sort_stably haligned h
  have hstably' := sort_stably haligned.reversed hturned
  have hreverse : sorted.reverse.Pairwise (v.Precedes e (reversedAll order)) :=
    List.pairwise_reverse.2 <| hstably.ordered.imp_of_mem fun ha hb hab =>
      (precedes_reversed_iff haligned (hstably.perm.subset ha) (hstably.perm.subset hb) hnulls h).2 hab
  have hapart : rows.Pairwise fun a b => ¬ (v.Precedes e order a b ∧ v.Precedes e order b a) :=
    hties.imp_of_mem fun ha hb hne hboth =>
      hne (ties_of_precedes haligned ha hb hboth.1 hboth.2)
  have hperm : turned.Perm sorted.reverse :=
    (hstably'.perm.trans hstably.perm.symm).trans sorted.reverse_perm.symm
  rw [hturned, hperm.eq_of_pairwise (fun a b ha hb hab hba => ?_) hstably'.ordered hreverse]
  have ha' : a ∈ rows := hstably'.perm.subset ha
  have hb' : b ∈ rows := hstably.perm.subset (List.mem_reverse.1 hb)
  rw [precedes_reversed_iff haligned hb' ha' hnulls h] at hab
  rw [precedes_reversed_iff haligned ha' hb' hnulls h] at hba
  have : Std.Symm fun a b => ¬ (v.Precedes e order a b ∧ v.Precedes e order b a) :=
    ⟨fun _ _ h hboth => h hboth.symm⟩
  by_contra hne
  exact hapart.forall ha' hb' hne ⟨hba, hab⟩

/-- Turning clauses around twice gives them back. Where they leave the nulls alone, the keys of any two
rows under the clauses turned around give the opposite order; and rows of which no two tie, where
the values that a clause compares have their numbers in one class, are sorted into the opposite
order. -/
theorem reversed_opposes (v : View) (e : Entity) (order : List OrderBy) :
    (∀ clause : OrderBy, clause.reversed.reversed = clause) ∧
      reversedAll (reversedAll order) = order ∧
      (leavesNullsAll order →
        (∀ a b as bs, v.sortKeys e a order = .ok as → v.sortKeys e b order = .ok bs →
          ∃ as' bs', v.sortKeys e a (reversedAll order) = .ok as' ∧
            v.sortKeys e b (reversedAll order) = .ok bs' ∧
              compareAll as' bs' = (compareAll as bs).swap) ∧
        ∀ rows sorted, v.Comparable e (rows.map some) order → v.sort e order rows = .ok sorted →
          rows.Pairwise (fun a b => v.compareRows e (some a) (some b) order ≠ .eq) →
            v.sort e (reversedAll order) rows = .ok sorted.reverse) :=
  ⟨reversed_reversed, reversedAll_reversedAll order, fun hnulls =>
    ⟨fun _ _ _ _ ha hb => compareAll_sortKeys_reversed hnulls ha hb,
      fun _ _ hrows h hties => sort_reversedAll hnulls hrows h hties⟩⟩

end Turned

/-- By the grade of the boss, the highest first, then by the number of reports, the least first, then
by number. -/
def byBoss : List OrderBy :=
  [⟨"boss", .relation [.desc "grade"]⟩, ⟨"reports", .count .asc⟩, .asc "id"]

theorem reversed_opposes_staff :
    let v := ofEmployees staff
    let sorted := [1, 2, 4, 5, 3, 0].map (staff.getD · ∅)
    leavesNullsAll byBoss ∧ v.Comparable .employee (staff.map some) byBoss ∧
      v.sort .employee byBoss staff = .ok sorted ∧
      staff.Pairwise (fun a b => v.compareRows .employee (some a) (some b) byBoss ≠ .eq) ∧
      v.sort .employee (reversedAll byBoss) staff = .ok sorted.reverse := by
  intro v sorted
  have hnulls : leavesNullsAll byBoss := by decide
  have hcomparable : v.Comparable .employee (staff.map some) byBoss := by
    simp only [byBoss, OrderBy.asc, OrderBy.desc, Comparable, ComparableClause, ComparableUnder]
    refine ⟨fun r target hr htarget => ⟨⟨.whole, ?_⟩, trivial⟩, trivial, ⟨.whole, ?_⟩, trivial⟩
    · obtain rfl := Option.some.inj (hr.symm.trans rfl)
      decide +kernel
    · decide +kernel
  have hsort : v.sort .employee byBoss staff = .ok sorted := by
    let rank (i : Nat) : Nat := [5, 0, 1, 4, 2, 3].getD i 0
    rw [sort_of_places (fun i j => rank i ≤ rank j) (by decide +kernel) (by decide +kernel)]
    simp [List.mergeSort, List.MergeSort.Internal.splitInTwo, staff, sorted, rank, List.range,
      List.range.loop]
  have hties : staff.Pairwise fun a b =>
      v.compareRows .employee (some a) (some b) byBoss ≠ .eq := by
    decide +kernel
  obtain ⟨-, -, hopposes⟩ := reversed_opposes v .employee byBoss
  exact ⟨hnulls, hcomparable, hsort, hties, (hopposes hnulls).2 staff sorted hcomparable hsort hties⟩

/-! ### Numbers of several kinds -/

/-- The lightest parcel first, then by city. -/
def byWeight : List OrderBy := [.asc "weight", .asc "city"]

end View

namespace Client
open View

/-- Six parcels with weights of three kinds, put past the engine. Big integers and decimals meet as
floating-point numbers, where these are all equal, and so it is the city that tells them apart. -/
def weighAgain : List Action :=
  let parcel (id : Int) (weight : Value) (city : String) : Action :=
    .put 1 "parcel" (SortedMap.ofList [("id", .int id), ("weight", weight), ("city", .string city)])
  [.begin ["parcel"] .readWrite,
   parcel 1 (.bigint 1152921504606846977) "Cork",
   parcel 2 (.decimal (.ofInt 1152921504606846976)) "Rome",
   parcel 3 (.int 1152921504606846976) "Oslo",
   parcel 4 (.decimal (.ofInt 1152921504606846979)) "Bern",
   parcel 5 (.int 1152921504606846978) "Bern",
   parcel 6 (.bigint 1152921504606846978) "Oslo",
   .commit 1]

/-- Where numbers of different kinds are in one column, rows of which no two tie are sorted by the
clauses turned around into another order than the opposite one. -/
theorem reversed_opposes_mixed : ∃ c₀ : Client,
    Schema.ofDefs EntityDef.parcels = .ok c₀.schema ∧ c₀.Opened c₀.schema ∧
      let c := weighAgain.foldl after c₀
      let v : View := ⟨c.schema, c.store.tables, { id := 0, mode := .readOnly, scope := ["parcel"] }⟩
      ∃ e t sorted turned, c.schema.entity? "parcel" = some e ∧ v.tables.get? e.name = some t ∧
        OrderBy.leavesNullsAll byWeight ∧
        t.toList.Pairwise (fun a b => v.compareRows e (some a) (some b) byWeight ≠ .eq) ∧
        v.sort e byWeight t.toList = .ok sorted ∧
        v.sort e (OrderBy.reversedAll byWeight) t.toList = .ok turned ∧
        (sorted.map fun row => (row.value "id").text) = ["3", "1", "2", "5", "4", "6"] ∧
        (turned.map fun row => (row.value "id").text) = ["2", "6", "1", "4", "5", "3"] := by
  -- The places that each of the rows does not come after.
  let before (i j : Nat) : Bool :=
    ([[0, 1, 4, 5], [1, 3, 4], [0, 1, 2, 3, 4, 5], [0, 3, 5], [3, 4, 5], [1, 5]].getD i []).contains j
  have hruns : (openMemory EntityDef.parcels).toOption.any fun c₀ =>
      let c := weighAgain.foldl after c₀
      let v : View := ⟨c.schema, c.store.tables, { id := 0, mode := .readOnly, scope := ["parcel"] }⟩
      true = (c.schema.entity? "parcel").any fun e => (v.tables.get? e.name).any fun t =>
        let row (i : Nat) : Row := t.toList.getD i ∅
        t.toList.length = 6 ∧
        t.toList.Pairwise (fun a b => v.compareRows e (some a) (some b) byWeight ≠ .eq) ∧
        (∀ row ∈ t.toList, (v.sortKeys e (some row) byWeight).isOk) ∧
        (∀ row ∈ t.toList, (v.sortKeys e (some row) (OrderBy.reversedAll byWeight)).isOk) ∧
        (∀ i < 6, ∀ j < 6, before i j = v.keysInOrder e byWeight (row i) (row j)) ∧
        (∀ i < 6, ∀ j < 6,
          before j i = v.keysInOrder e (OrderBy.reversedAll byWeight) (row i) (row j)) ∧
        ([2, 0, 1, 4, 3, 5].map fun i => ((row i).value "id").text) =
          ["3", "1", "2", "5", "4", "6"] ∧
        ([1, 5, 0, 3, 4, 2].map fun i => ((row i).value "id").text) =
          ["2", "6", "1", "4", "5", "3"] := by
    decide +kernel
  obtain ⟨c₀, hs, hopened, -, hrun⟩ := exists_openMemory hruns
  obtain ⟨e, hentity, hrun⟩ := (Option.any_eq_true _ _).1 hrun.symm
  obtain ⟨t, htable, hrun⟩ := (Option.any_eq_true _ _).1 hrun
  obtain ⟨hlength, hties, hkeys, hkeys', hbefore, hbefore', hids, hids'⟩ := of_decide_eq_true hrun
  have hsorted : (List.range 6).mergeSort before = [2, 0, 1, 4, 3, 5] := by
    simp [List.mergeSort, List.MergeSort.Internal.splitInTwo, before, List.range, List.range.loop]
  have hturned : (List.range 6).mergeSort (fun i j => before j i) = [1, 5, 0, 3, 4, 2] := by
    simp [List.mergeSort, List.MergeSort.Internal.splitInTwo, before, List.range, List.range.loop]
  refine ⟨c₀, hs, hopened, e, t, _, _, hentity, htable, by decide, hties,
    sort_of_places before hkeys (by rwa [hlength]),
    sort_of_places (fun i j => before j i) hkeys' (by rwa [hlength]), ?_, ?_⟩
  · rw [hlength, hsorted, List.map_map]
    exact hids
  · rw [hlength, hturned, List.map_map]
    exact hids'

end Client

end RelationalStore

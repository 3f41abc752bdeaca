import RelationalStore.Proofs.FieldTests

/- Values that can be measured by each other, and keys that are made of them. Comparing two values
   the other way round gives the opposite answer whatever they are, but values are in one order only
   if their numbers are of one kind, or integers along with big integers or with decimals
   (`Value.Commensurable`, which is to say of one class, `commensurable_iff`). Keys are compared
   place by place, so it is enough that in each place the keys have commensurable values. Whatever
   looks keys up takes their order for granted, and nothing else of them. A map is told by the last
   edit under each key (`get?_edits`); the rows of a table and the entries of an index are such
   maps, and a set is one without values. Rows are sorted by the values that the clauses read off
   them, and how these are compared does not depend on the row (`sortKeys_modes`). -/
namespace RelationalStore
open SortedMap Read

theorem TransOn.mono {α : Type} {order : α → α → Ordering} {P Q : α → Prop} (h : TransOn order P)
    (hQ : ∀ a, Q a → P a) : TransOn order Q :=
  fun a b c ha hb hc => h a b c (hQ a ha) (hQ b hb) (hQ c hc)

/-! ### Values of one measure -/

/-- The kinds of the numbers in a class. -/
def NumberClass.kinds : NumberClass → List ScalarKind
  | .whole => [.int, .bigint]
  | .exact => [.int, .decimal]
  | .floating => [.float]

namespace Value

mutual

/-- The kinds of the numbers in the value, however deep they lie in lists. -/
def numberKinds : Value → List ScalarKind
  | .int _ => [.int]
  | .bigint _ => [.bigint]
  | .decimal _ => [.decimal]
  | .float _ => [.float]
  | .list items => allNumberKinds items
  | _ => []

def allNumberKinds : List Value → List ScalarKind
  | [] => []
  | v :: rest => numberKinds v ++ allNumberKinds rest

end

/-- The numbers in the values are all of one kind, or all integers and big integers, or all integers
and decimals. -/
def Commensurable (S : Value → Prop) : Prop :=
  (∃ kind, ∀ v, S v → ∀ k ∈ v.numberKinds, k = kind) ∨
    (∀ v, S v → ∀ k ∈ v.numberKinds, k = .int ∨ k = .bigint) ∨
      ∀ v, S v → ∀ k ∈ v.numberKinds, k = .int ∨ k = .decimal

variable {c : NumberClass} {S : Value → Prop}

mutual

theorem within_iff : ∀ v : Value, v.within c ↔ ∀ k ∈ v.numberKinds, k ∈ c.kinds
  | .int _ | .bigint _ | .decimal _ | .float _ => by
    cases c <;> simp [within, numberKinds, NumberClass.kinds]
  | .list items => by
    rw [within, numberKinds, allWithin_iff_kinds items]
  | .null | .bool _ | .string _ | .datetime _ | .bytes _ | .json _ => by
    simp [within, numberKinds]

theorem allWithin_iff_kinds :
    ∀ items : List Value, allWithin c items ↔ ∀ k ∈ allNumberKinds items, k ∈ c.kinds
  | [] => by simp [allWithin, allNumberKinds]
  | v :: rest => by
    rw [allWithin, Bool.and_eq_true, within_iff v, allWithin_iff_kinds rest, allNumberKinds,
      List.forall_mem_append]

end

mutual

/-- Each of the kinds is one of numbers, and in its own class. -/
theorem mem_kinds_numbers {k : ScalarKind} : ∀ v : Value, k ∈ v.numberKinds → k ∈ k.numbers.kinds
  | .int _, h | .bigint _, h | .decimal _, h | .float _, h => by
    obtain rfl := List.mem_singleton.1 h
    decide
  | .list items, h => mem_kinds_numbers_all items h
  | .null, h | .bool _, h | .string _, h | .datetime _, h | .bytes _, h | .json _, h => by cases h

theorem mem_kinds_numbers_all {k : ScalarKind} :
    ∀ items : List Value, k ∈ allNumberKinds items → k ∈ k.numbers.kinds
  | v :: rest, h => (List.mem_append.1 h).elim (mem_kinds_numbers v) (mem_kinds_numbers_all rest)

end

/-- Commensurable values have their numbers in one class. -/
theorem commensurable_iff : Commensurable S ↔ ∃ c, ∀ v, S v → v.within c := by
  constructor
  · rintro (⟨kind, h⟩ | h | h)
    · refine ⟨kind.numbers, fun v hv => (within_iff v).2 fun k hk => ?_⟩
      obtain rfl := h v hv k hk
      exact mem_kinds_numbers v hk
    · refine ⟨.whole, fun v hv => (within_iff v).2 fun k hk => ?_⟩
      simpa [NumberClass.kinds] using h v hv k hk
    · refine ⟨.exact, fun v hv => (within_iff v).2 fun k hk => ?_⟩
      simpa [NumberClass.kinds] using h v hv k hk
  · rintro ⟨c, h⟩
    have hkinds (v : Value) (hv : S v) := (within_iff v).1 (h v hv)
    cases c with
    | whole => exact .inr (.inl fun v hv k hk => by simpa [NumberClass.kinds] using hkinds v hv k hk)
    | exact => exact .inr (.inr fun v hv k hk => by simpa [NumberClass.kinds] using hkinds v hv k hk)
    | floating => exact .inl ⟨.float, fun v hv k hk => List.mem_singleton.1 (hkinds v hv k hk)⟩

theorem Commensurable.mono {T : Value → Prop} (h : Commensurable S) (hT : ∀ v, T v → S v) :
    Commensurable T := by
  obtain ⟨c, hc⟩ := commensurable_iff.1 h
  exact commensurable_iff.2 ⟨c, fun v hv => hc v (hT v hv)⟩

theorem Commensurable.transOn (h : Commensurable S) : TransOn compare S := by
  obtain ⟨c, hc⟩ := commensurable_iff.1 h
  exact (compare_isLE_trans c).mono hc

-- An integer is rounded to be compared with a floating-point number, so together they have no order.
example : let x : Value := .float (.ofInt (2 ^ 53))
    (compare (.int (2 ^ 53 + 1)) x).isLE ∧ (compare x (.int (2 ^ 53))).isLE ∧
      compare (.int (2 ^ 53 + 1)) (.int (2 ^ 53)) = .gt := by
  decide +kernel

end Value

/-! ### Maps that are edited -/

namespace SortedMap
variable {κ ν : Type} [Ord κ]

/-- One edit of a map: a value is stored under a key or, if none is given, what is there is taken
out. -/
def edit (m : SortedMap κ ν) (step : κ × Option ν) : SortedMap κ ν :=
  step.2.elim (m.erase step.1) (m.insert step.1)

/-- What the last of the edits under a key left there. -/
def lastEdit? (k : κ) (steps : List (κ × Option ν)) : Option ν :=
  (steps.reverse.find? fun step => compare step.1 k == .eq).bind (·.2)

section Edits
variable [Std.OrientedOrd κ] {P : κ → Prop} (hP : TransOn (compare : κ → κ → Ordering) P)
  {steps : List (κ × Option ν)}
include hP

/-- Edits keep the entries in the order of their keys. -/
theorem inOrder_edits (hsteps : ∀ step ∈ steps, P step.1) :
    InOrder P (steps.foldl edit ∅).entries := by
  induction steps using List.reverseRecOn with
  | nil => exact .nil
  | append_singleton steps step ih =>
    obtain ⟨k, v⟩ := step
    obtain ⟨hbefore, hstep⟩ := List.forall_mem_append.1 hsteps
    have hk : P k := hstep _ List.mem_cons_self
    rw [List.foldl_append]
    cases v with
    | none => exact (ih hbefore).erase k
    | some v => exact (ih hbefore).insert hP hk

/-- A map that was edited has what the last edit under each key left. -/
theorem get?_edits (hsteps : ∀ step ∈ steps, P step.1) {k : κ} (hk : P k) :
    (steps.foldl edit ∅).get? k = lastEdit? k steps := by
  induction steps using List.reverseRecOn with
  | nil => rfl
  | append_singleton steps step ih =>
    obtain ⟨k', v⟩ := step
    obtain ⟨hbefore, hstep⟩ := List.forall_mem_append.1 hsteps
    have hk' : P k' := hstep _ List.mem_cons_self
    have hordered := inOrder_edits hP hbefore
    have hlast : lastEdit? k (steps ++ [(k', v)]) =
        if compare k' k = .eq then v else lastEdit? k steps := by
      rw [lastEdit?, List.reverse_append, List.reverse_singleton, List.singleton_append,
        List.find?_cons]
      split <;> simp_all [lastEdit?]
    rw [List.foldl_append, hlast, ← ih hbefore]
    cases v with
    | none => exact get?_erase hP hordered hk' hk
    | some v => exact get?_insert hP hordered.keys hk' hk

end Edits

end SortedMap

/-! ### How rows are compared -/

/-- How the values of the key are compared. -/
def SortKey.mode (k : SortKey) : Direction × Option NullsPlace := (k.direction, k.nulls)

namespace View
variable {v : View}

mutual

/-- How the keys that a row is sorted by are compared is the same for all rows. -/
theorem sortKeys_modes (e : Entity) : ∀ order : List OrderBy,
    ∃ modes, ∀ row ks, v.sortKeys e row order = .ok ks → ks.map SortKey.mode = modes
  | [] => ⟨[], fun row ks h => by
      rw [sortKeys] at h
      cases h
      rfl⟩
  | clause :: rest => by
    obtain ⟨first, hfirst⟩ := clauseKeys_modes e clause
    obtain ⟨others, hothers⟩ := sortKeys_modes e rest
    refine ⟨first ++ others, fun row ks h => ?_⟩
    rw [sortKeys] at h
    obtain ⟨as, has, h⟩ := Except.bind_eq_ok.1 h
    obtain ⟨bs, hbs, h⟩ := Except.bind_eq_ok.1 h
    cases h
    rw [List.map_append, hfirst row as has, hothers row bs hbs]

theorem clauseKeys_modes (e : Entity) : ∀ clause : OrderBy,
    ∃ modes, ∀ row ks, v.clauseKeys e row clause = .ok ks → ks.map SortKey.mode = modes
  | ⟨name, key⟩ => by
    obtain ⟨modes, h⟩ := leafKeys_modes e name key
    refine ⟨modes, fun row ks hks => h row ks ?_⟩
    rwa [clauseKeys] at hks

theorem leafKeys_modes (e : Entity) (name : String) : ∀ key : OrderKey,
    ∃ modes, ∀ row ks, v.leafKeys e row name key = .ok ks → ks.map SortKey.mode = modes
  | .scalar direction nulls => by
    refine ⟨[(direction, nulls)], fun row ks h => ?_⟩
    rw [leafKeys_scalar h]
    rfl
  | .count direction => by
    refine ⟨[(direction, none)], fun row ks h => ?_⟩
    obtain ⟨r, -, rfl⟩ := leafKeys_count h
    rfl
  | .relation clauses => by
    -- A relation is sorted by the keys of its target, which the name alone tells.
    by_cases hleads : ∃ r target, e.relation? name = some r ∧ v.schema.entity? r.target = some target
    · obtain ⟨r, target, hr, htarget⟩ := hleads
      obtain ⟨modes, h⟩ := sortKeys_modes target clauses
      refine ⟨modes, fun row ks hks => ?_⟩
      obtain ⟨r', target', hr', htarget', hks⟩ := leafKeys_relation hks
      obtain rfl := Option.some.inj (hr.symm.trans hr')
      obtain rfl := Option.some.inj (htarget.symm.trans htarget')
      exact h _ ks hks
    · refine ⟨[], fun row ks hks => ?_⟩
      obtain ⟨r, target, hr, htarget, -⟩ := leafKeys_relation hks
      exact absurd ⟨r, target, hr, htarget⟩ hleads

end

end View

namespace SortKey

/-- The leaves of keys that are compared so, with a class for each place. -/
def leavesOf (classes : Nat → NumberClass) : List (Direction × Option NullsPlace) → List Leaf
  | [] => []
  | mode :: rest => ⟨classes 0, mode.1, mode.2⟩ :: leavesOf (fun i => classes (i + 1)) rest

end SortKey

/-! ### Keys of one measure in each place -/

namespace Key

/-- What the keys have in one place can be measured by each other, whatever they have elsewhere. -/
def Commensurable (K : Key → Prop) : Prop :=
  ∀ i : Nat, Value.Commensurable fun v => ∃ k, K k ∧ k.parts[i]? = some v

variable {classes : Nat → NumberClass} {K : Key → Prop}

theorem Commensurable.exists_classes (h : Commensurable K) :
    ∃ classes, ∀ k, K k → k.Within classes := by
  choose classes hclasses using fun i => Value.commensurable_iff.1 (h i)
  exact ⟨classes, fun k hk i v hv => hclasses i v ⟨k, hk, hv⟩⟩

/-- Keys that are lists of commensurable values. -/
theorem commensurable_of_parts {S : Value → Prop} (h : Value.Commensurable S) :
    Commensurable fun k => ∀ v ∈ k.parts, S v :=
  fun _ => h.mono fun v hv => by
    obtain ⟨k, hk, hv⟩ := hv
    exact hk v (List.mem_of_getElem? hv)

/-- Keys whose values keep to the classes of some columns. -/
theorem commensurable_of_fits (κ : String → NumberClass) (columns : List String)
    (h : ∀ k, K k → k.Fits κ columns) : Commensurable K :=
  fun i => Value.commensurable_iff.2 ⟨(columns[i]?).elim .whole κ, fun v hv => by
    obtain ⟨k, hk, hv⟩ := hv
    exact h k hk i v hv⟩

theorem Within.fits {fields : List String} {row : Row} (h : (ofRow fields row).Within classes) :
    row.Fits (fun name => classes (fields.idxOf name)) fields := by
  intro name hname
  refine h _ _ ?_
  rw [ofRow, List.getElem?_map, List.getElem?_idxOf hname]
  rfl

theorem Within.aligned {modes : List (Direction × Option NullsPlace)} {ks : List SortKey}
    (hmodes : ks.map SortKey.mode = modes)
    (h : (⟨ks.map (·.value)⟩ : Key).Within classes) :
    SortKey.Aligned (SortKey.leavesOf classes modes) ks := by
  induction ks generalizing modes classes with
  | nil =>
    obtain rfl := hmodes
    exact .nil
  | cons k ks ih =>
    obtain rfl := hmodes
    refine .cons ⟨h 0 k.value rfl, rfl, rfl⟩ (ih rfl fun i v hv => h (i + 1) v ?_)
    simpa using hv

/-- What maps, sets and sorts take for granted of keys. -/
structure Lawful (K : Key → Prop) : Prop where
  /-- The order is one on the keys. -/
  order : Std.TransCmp fun a b : Subtype K => Ord.compare a.1 b.1
  /-- Keys are equal if their parts are. -/
  equal : ∀ a b : Key, a.equiv b ↔ List.Forall₂ (fun v w => v.equiv w) a.parts b.parts
  /-- A map that was edited under such keys has its keys in order, each once, and under each of them
  what the last edit left. -/
  maps : ∀ {ν : Type} (steps : List (Key × Option ν)), (∀ step ∈ steps, K step.1) →
    (steps.foldl SortedMap.edit ∅).keys.Pairwise (fun a b => Ord.compare a b = .lt) ∧
      ∀ k, K k → (steps.foldl SortedMap.edit ∅).get? k = lastEdit? k steps
  /-- Of rows with one key in some fields the first is kept. -/
  distinct : ∀ (fields : List String) (rows : List Row), (∀ row ∈ rows, K (ofRow fields row)) →
    firstPerKey fields rows = firstOfEach fields rows
  /-- Rows that are sorted by such keys are in order, and rows in order stay as they were. -/
  sorts : ∀ (v : View) (e : Entity) (order : List OrderBy) (rows sorted : List Row),
    v.sort e order rows = .ok sorted →
    (∀ row ∈ rows, ∀ ks, v.sortKeys e (some row) order = .ok ks → K ⟨ks.map (·.value)⟩) →
    SortedStably (v.Precedes e order) rows sorted

theorem equiv_iff_parts {a b : Key} :
    a.equiv b ↔ List.Forall₂ (fun v w => v.equiv w) a.parts b.parts := by
  rw [equiv_iff]
  show Value.compareItems a.parts b.parts = .eq ↔ _
  rw [Value.compareItems_eq_iff]
  simp only [Value.equiv, beq_iff_eq]

theorem Commensurable.lawful (h : Commensurable K) : Lawful K := by
  obtain ⟨classes, hwithin⟩ := h.exists_classes
  have htrans := (compare_isLE_trans_within classes).mono hwithin
  refine ⟨htrans.lawful, fun _ _ => equiv_iff_parts, fun steps hsteps => ⟨?_, fun k hk => ?_⟩,
    fun fields rows hrows => ?_, fun v e order rows sorted hsort hrows => ?_⟩
  · exact List.pairwise_map.2 (inOrder_edits htrans hsteps).sorted
  · exact get?_edits htrans hsteps hk
  · exact firstPerKey_eq fun row hrow => (hwithin _ (hrows row hrow)).fits
  · obtain ⟨modes, hmodes⟩ := View.sortKeys_modes (v := v) e order
    refine View.sort_stably ⟨SortKey.leavesOf classes modes, fun row hrow ks hks => ?_⟩ hsort
    obtain ⟨x, hx, rfl⟩ := List.mem_map.1 hrow
    exact (hwithin _ (hrows x hx ks hks)).aligned (hmodes (some x) ks hks)

end Key

/-! ### The order -/

/-- Comparing the other way round gives the opposite for all values, and each is equal to itself.
Commensurable values are in one order, nested lists included, and so are the keys that are made of
them, for all that relies on the order of keys. Neither do the keys need more than that in each
place. -/
theorem Value.order_lawful :
    (∀ a b : Value, compare b a = (compare a b).swap ∧ a.equiv a) ∧
      (∀ S : Value → Prop, Commensurable S →
        (Std.TransCmp fun a b : Subtype S => compare a.1 b.1) ∧
          Key.Lawful fun k => ∀ v ∈ k.parts, S v) ∧
        ∀ K : Key → Prop, Key.Commensurable K → Key.Lawful K :=
  ⟨fun _ _ => ⟨compare_eq_swap _ _, beq_iff_eq.2 Std.ReflCmp.compare_self⟩,
    fun _ h => ⟨h.transOn.lawful, (Key.commensurable_of_parts h).lawful⟩, fun _ h => h.lawful⟩

/-- Lists of counts, each with an amount. The first two are one key, however they are written. -/
def Key.samples : List Key :=
  [⟨[.list [.int 1, .bigint 2], .decimal ⟨false, 15, 1⟩]⟩,
    ⟨[.list [.bigint 1, .int 2], .decimal ⟨false, 150, 2⟩]⟩,
    ⟨[.list [.int 1, .int 2], .int 1]⟩]

theorem Value.order_lawful_samples :
    let counts := Key.samples.filterMap (·.parts.head?)
    let edits := [(Key.samples[0], some "first"), (Key.samples[1], some "second"),
      (Key.samples[2], some "third"), (Key.samples[0], none)]
    (compare (.int 1) (.bigint 1) = .eq ∧ compare (.bigint 1) (.int 1) = .eq) ∧
      (Commensurable (· ∈ counts) ∧ Std.TransCmp fun a b : {v // v ∈ counts} => compare a.1 b.1) ∧
        Key.Commensurable (· ∈ Key.samples) ∧
          (edits.foldl SortedMap.edit ∅).get? Key.samples[1] = none ∧
            (edits.foldl SortedMap.edit ∅).get? Key.samples[2] = some "third" := by
  intro counts edits
  obtain ⟨hall, hvalues, hkeys⟩ := Value.order_lawful
  have hcounts : Commensurable (· ∈ counts) := .inr (.inl (by decide))
  have hsamples : Key.Commensurable (· ∈ Key.samples) :=
    Key.commensurable_of_fits (fun name => if name = "counts" then .whole else .exact)
      ["counts", "amount"] fun k hk => Key.fits_of_zip
        ((by decide : ∀ k ∈ Key.samples, k.parts.length = 2) k hk)
        ((by decide : ∀ k ∈ Key.samples, ∀ p ∈ ["counts", "amount"].zip k.parts,
          p.2.within (if p.1 = "counts" then .whole else .exact)) k hk)
  have hmap := (hkeys _ hsamples).maps edits (by simp [edits])
  have hone : compare (.int 1) (.bigint 1) = .eq := by decide
  refine ⟨⟨hone, ?_⟩, ⟨hcounts, (hvalues _ hcounts).1⟩, hsamples, ?_, ?_⟩
  · rw [(hall _ _).1, hone]
    rfl
  · rw [hmap.2 _ (List.getElem_mem _)]
    decide
  · rw [hmap.2 _ (List.getElem_mem _)]
    decide

end RelationalStore

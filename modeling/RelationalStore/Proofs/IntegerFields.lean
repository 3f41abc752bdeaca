import Mathlib.Algebra.Order.Floor.Ring
import Mathlib.Data.Rat.Floor
import RelationalStore.Proofs.PatchedRows

/- Arithmetic on fields of integers, big or not. The operations are those on rational numbers, of
   which only a quotient can have a fraction, and it is cut off (`Arithmetic.onInts_eq`). There is
   no third way beside the exact result and an error that names the field (`Entity.Calculates`): a
   number that the field has no room for is refused and not wrapped, and so is a stored value that
   is of another kind, as one that was put past the engine or that came with a foreign key from a
   field of that kind. What was added can therefore be taken away again, in one field
   (`Entity.change_restores`) and in a whole column (`Client.calculatesColumn`): rows that are
   updated together keep their keys and their order, so that the second request finds each row as
   the first one left it. -/
namespace RelationalStore
open SortedMap Read Operation

/-! ### Exact results -/

namespace Arithmetic

/-- The operation on rational numbers. -/
def onRationals : Arithmetic → ℚ → ℚ → ℚ
  | .add, a, b => a + b
  | .subtract, a, b => a - b
  | .multiply, a, b => a * b
  | .divide, a, b => a / b

/-- A number without its fraction, which brings it closer to zero. -/
def wholePart (q : ℚ) : Int := if 0 ≤ q then ⌊q⌋ else ⌈q⌉

/-- The update that does the operation. -/
def update : Arithmetic → Json → UpdateOp
  | .add => .increment
  | .subtract => .decrement
  | .multiply => .multiply
  | .divide => .divide

theorem wholePart_intCast (n : Int) : wholePart n = n := by
  simp [wholePart]

theorem wholePart_neg (q : ℚ) : wholePart (-q) = -wholePart q := by
  unfold wholePart
  rcases lt_trichotomy q 0 with h | rfl | h
  · rw [if_pos (by linarith), if_neg (by linarith), Int.floor_neg]
  · simp
  · rw [if_neg (by linarith), if_pos h.le, Int.ceil_neg]

theorem wholePart_natCast_div (m n : Nat) : wholePart ((m : ℚ) / n) = (m / n : Nat) := by
  rw [wholePart, if_pos (by positivity)]
  exact Rat.floor_natCast_div_natCast m n

theorem wholePart_div (a b : Int) : wholePart (a / b) = a.tdiv b := by
  -- Both sides change their sign with either number.
  obtain ⟨m, rfl | rfl⟩ := a.eq_nat_or_neg <;> obtain ⟨n, rfl | rfl⟩ := b.eq_nat_or_neg <;>
    simp [neg_div, div_neg, wholePart_neg, wholePart_natCast_div, Int.neg_tdiv, Int.tdiv_neg]

theorem onInts_eq (op : Arithmetic) (a b : Int) : op.onInts a b = wholePart (op.onRationals a b) := by
  cases op with
  | add => rw [onInts, onRationals, ← Int.cast_add, wholePart_intCast]
  | subtract => rw [onInts, onRationals, ← Int.cast_sub, wholePart_intCast]
  | multiply => rw [onInts, onRationals, ← Int.cast_mul, wholePart_intCast]
  | divide => rw [onInts, onRationals, wholePart_div]

end Arithmetic

/-! ### Fields of integers -/

namespace ScalarKind

/-- An integer as a value of a kind of integers. -/
def ofInteger : ScalarKind → Int → Value
  | .int, n => .int n
  | _, n => .bigint n

/-- Whether a field of the kind has room for an integer: 64 bits with a sign, or any number. -/
def HasRoom (kind : ScalarKind) (n : Int) : Prop := kind = .int → -2 ^ 63 ≤ n ∧ n < 2 ^ 63

instance (kind : ScalarKind) (n : Int) : Decidable (kind.HasRoom n) :=
  inferInstanceAs (Decidable (kind = .int → -2 ^ 63 ≤ n ∧ n < 2 ^ 63))

theorem ofInteger_inj {kind : ScalarKind} {m n : Int} : kind.ofInteger m = kind.ofInteger n ↔ m = n := by
  cases kind <;> simp [ofInteger]

theorem ofInteger_ne_null (kind : ScalarKind) (n : Int) : kind.ofInteger n ≠ .null := by
  cases kind <;> simp [ofInteger]

theorem eq_of_isOf {kind : ScalarKind} (hkind : kind = .int ∨ kind = .bigint) {v : Value}
    (h : v.isOf kind) : v = .null ∨ ∃ n, v = kind.ofInteger n := by
  rcases hkind with rfl | rfl <;> cases v <;> simp_all [Value.isOf, ofInteger]

theorem isInt64_iff_hasRoom {n : Int} : Json.isInt64 n ↔ int.HasRoom n := by
  rw [Json.isInt64, Bool.and_eq_true, decide_eq_true_eq, decide_eq_true_eq]
  exact ⟨fun h _ => h, fun h => h rfl⟩

end ScalarKind

/-- The field holds one integer in each row, big or not. -/
structure FieldDef.Integral (f : FieldDef) : Prop where
  single : f.list = false
  kind : f.kind = .int ∨ f.kind = .bigint

namespace Arithmetic
variable {kind : ScalarKind} (op : Arithmetic) {old : Value}

theorem apply_null {a b : Value} (h : a = .null ∨ b = .null) : op.apply a b = .ok .null := by
  rcases h with rfl | rfl <;> simp [apply, Value.isNull]

theorem apply_ofInteger (hkind : kind = .int ∨ kind = .bigint) (a b : Int) :
    op.apply (kind.ofInteger a) (kind.ofInteger b) =
      if op = .divide ∧ b = 0 then .error .divisionByZero
      else if kind.HasRoom (op.onInts a b) then .ok (kind.ofInteger (op.onInts a b))
      else .error .integerOverflow := by
  rcases hkind with rfl | rfl
  · simp [apply, onValues, ScalarKind.ofInteger, Value.isNull, isZero, ScalarKind.isInt64_iff_hasRoom]
  · simp [apply, onValues, ScalarKind.ofInteger, Value.isNull, isZero, ScalarKind.HasRoom]

/-- Of the quotients of integers with room, only that of the least one and `-1` has none. -/
theorem hasRoom_divide {kind : ScalarKind} {a b : Int} (ha : kind.HasRoom a) (hb : b ≠ 0) :
    kind.HasRoom (divide.onInts a b) ↔ ¬ (kind = .int ∧ a = -2 ^ 63 ∧ b = -1) := by
  have hquotient : (a.tdiv b).natAbs = a.natAbs / b.natAbs := Int.natAbs_tdiv a b
  constructor
  · rintro h ⟨rfl, rfl, rfl⟩
    exact absurd h (by decide)
  · intro hleast hkind
    obtain ⟨hlow, hhigh⟩ := ha hkind
    show -2 ^ 63 ≤ a.tdiv b ∧ a.tdiv b < 2 ^ 63
    rcases Nat.lt_or_ge b.natAbs 2 with hunit | hlarge
    · obtain rfl | rfl : b = 1 ∨ b = -1 := by omega
      · rw [Int.tdiv_one]
        exact ⟨hlow, hhigh⟩
      · rw [Int.tdiv_neg, Int.tdiv_one]
        have hne : a ≠ -2 ^ 63 := fun h => hleast ⟨hkind, h, rfl⟩
        omega
    · have hhalf : a.natAbs / b.natAbs ≤ a.natAbs / 2 := Nat.div_le_div_left hlarge (by decide)
      omega

/-- A value of another kind is combined with no integer, not even with zero. -/
theorem apply_foreign (hkind : kind = .int ∨ kind = .bigint) (hnull : old ≠ .null)
    (hforeign : ∀ a, old ≠ kind.ofInteger a) (b : Int) :
    op.apply old (kind.ofInteger b) = .error (if op = .divide ∧ b = 0 then .divisionByZero
      else .notCombinable old.typeName kind.name) := by
  rcases hkind with rfl | rfl <;> cases old <;>
    simp_all [apply, onValues, ScalarKind.ofInteger, Value.isNull, isZero, Value.typeName,
      ScalarKind.name, apply_ite]

end Arithmetic

namespace Entity
open Arithmetic

/-- What arithmetic on a field of integers gives, whatever is stored and whatever it is combined
with. -/
structure Calculates (e : Entity) (f : FieldDef) (op : Arithmetic) (old : Value) (literal : Json) :
    Prop where
  /-- A literal that the kind does not take is refused. -/
  unreadable : ∀ cause, f.kind.coerce literal = .error cause →
    e.change f old (op.update literal) = .error (.invalidValue e.name f.name (.coercion cause))
  /-- Any other is null or an integer. -/
  readable : ∀ operand, f.kind.coerce literal = .ok operand →
    operand = .null ∨ ∃ b, operand = f.kind.ofInteger b
  /-- Nothing comes of nothing. -/
  null : ∀ operand, f.kind.coerce literal = .ok operand → old = .null ∨ operand = .null →
    e.change f old (op.update literal) = .ok .null
  /-- Two integers have an exact result, up to the fraction of a quotient, or none. -/
  exact : ∀ a b, old = f.kind.ofInteger a → f.kind.coerce literal = .ok (f.kind.ofInteger b) →
    let n := wholePart (op.onRationals a b)
    e.change f old (op.update literal) =
      if op = .divide ∧ b = 0 then .error (.invalidValue e.name f.name .divisionByZero)
      else if f.kind.HasRoom n then .ok (f.kind.ofInteger n)
      else .error (.invalidValue e.name f.name .integerOverflow)
  /-- A stored value of another kind is combined with no integer. -/
  foreign : ∀ b, f.kind.coerce literal = .ok (f.kind.ofInteger b) → old ≠ .null →
    (∀ a, old ≠ f.kind.ofInteger a) →
    e.change f old (op.update literal) = .error (.invalidValue e.name f.name
      (if op = .divide ∧ b = 0 then .divisionByZero
        else .notCombinable old.typeName f.kind.name))
  /-- Of the quotients of integers with room, only that of the least one and `-1` has none. -/
  quotient : op = .divide → ∀ a b, old = f.kind.ofInteger a → f.kind.HasRoom a → b ≠ 0 →
    f.kind.coerce literal = .ok (f.kind.ofInteger b) →
    (e.change f old (op.update literal) = .error (.invalidValue e.name f.name .integerOverflow) ↔
      f.kind = .int ∧ a = -2 ^ 63 ∧ b = -1)

variable {e : Entity} {f : FieldDef} {old more less : Value} {literal : Json}

theorem change_update (hf : f.Integral) (op : Arithmetic) :
    e.change f old (op.update literal) = (e.coerceItem f literal >>= fun operand =>
      (op.apply old operand).mapError (.invalidValue e.name f.name)) := by
  have hsuited : (!f.kind.capabilities.arithmetic || f.list) = false := by
    rw [hf.single]
    rcases hf.kind with h | h <;> rw [h] <;> rfl
  have hcalculate : e.change f old (op.update literal) = e.calculate f old op literal := by
    cases op <;> rfl
  rw [hcalculate, calculate, hsuited]
  rfl

theorem change_of_coerce (hf : f.Integral) (op : Arithmetic) {operand : Value}
    (hoperand : f.kind.coerce literal = .ok operand) : e.change f old (op.update literal) =
      (op.apply old operand).mapError (.invalidValue e.name f.name) := by
  rw [change_update hf, coerceItem, hoperand]
  rfl

theorem calculates (hf : f.Integral) (op : Arithmetic) (old : Value) (literal : Json) :
    e.Calculates f op old literal := by
  refine ⟨fun cause hcause => ?_, fun operand hoperand => ?_, fun operand hoperand hnull => ?_,
    fun a b ha hb => ?_, fun b hb hnull hforeign => ?_, fun hdivide a b ha hroom hzero hb => ?_⟩
  · rw [change_update hf, coerceItem, hcause]
    rfl
  · have hof := f.kind.coerce_yields literal
    rw [hoperand] at hof
    exact ScalarKind.eq_of_isOf hf.kind hof.1
  · rw [change_of_coerce hf op hoperand, apply_null op hnull]
    rfl
  · intro n
    have hn : op.onInts a b = n := op.onInts_eq a b
    rw [change_of_coerce hf op hb, ha, apply_ofInteger op hf.kind, hn]
    split
    · rfl
    · split <;> rfl
  · rw [change_of_coerce hf op hb, apply_foreign op hf.kind hnull hforeign]
    rfl
  · rw [change_of_coerce hf op hb, ha, apply_ofInteger op hf.kind, if_neg fun h => hzero h.2,
      ← not_iff_not, ← hasRoom_divide hroom hzero, hdivide]
    split
    · next h => simpa [Except.mapError] using h
    · next h => simpa [Except.mapError] using h

/-- A change by an amount leaves null as it is, and an integer is changed to the exact result. -/
theorem change_ok (hf : f.Integral) (hliteral : literal.isNull = false) (op : Arithmetic) {v : Value}
    (h : e.change f old (op.update literal) = .ok v) :
    ∃ b, f.kind.coerce literal = .ok (f.kind.ofInteger b) ∧ (old = .null ∧ v = .null ∨
      ∃ a, old = f.kind.ofInteger a ∧ v = f.kind.ofInteger (op.onInts a b)) := by
  have hcalculates := calculates (e := e) hf op old literal
  have hof := f.kind.coerce_yields literal
  cases hoperand : f.kind.coerce literal with
  | error cause =>
    rw [hcalculates.unreadable cause hoperand] at h
    cases h
  | ok operand =>
    rw [hoperand] at hof
    obtain rfl | ⟨b, rfl⟩ := hcalculates.readable operand hoperand
    · cases hof.2.trans hliteral
    refine ⟨b, rfl, ?_⟩
    by_cases hnull : old = .null
    · rw [hcalculates.null _ hoperand (.inl hnull)] at h
      exact .inl ⟨hnull, (Except.ok.inj h).symm⟩
    by_cases hinteger : ∃ a, old = f.kind.ofInteger a
    · obtain ⟨a, rfl⟩ := hinteger
      have hexact := hcalculates.exact a b rfl hoperand
      rw [h, ← onInts_eq] at hexact
      dsimp only at hexact
      split_ifs at hexact
      exact .inr ⟨a, rfl, Except.ok.inj hexact⟩
    · rw [hcalculates.foreign b hoperand hnull (not_exists.1 hinteger)] at h
      cases h

/-- What was added is taken away again. -/
theorem change_restores (hf : f.Integral) (hliteral : literal.isNull = false)
    (hmore : e.change f old (.increment literal) = .ok more)
    (hless : e.change f more (.decrement literal) = .ok less) : less = old := by
  obtain ⟨b, hb, hadded⟩ := change_ok hf hliteral .add hmore
  obtain ⟨b', hb', htaken⟩ := change_ok hf hliteral .subtract hless
  obtain rfl : b = b' := ScalarKind.ofInteger_inj.1 (Except.ok.inj (hb.symm.trans hb'))
  obtain ⟨rfl, rfl⟩ | ⟨a, rfl, rfl⟩ := hadded
  · obtain ⟨-, rfl⟩ | ⟨a, ha, -⟩ := htaken
    · rfl
    · exact absurd ha.symm (f.kind.ofInteger_ne_null a)
  · obtain ⟨hnull, -⟩ | ⟨a', ha', rfl⟩ := htaken
    · exact absurd hnull (f.kind.ofInteger_ne_null _)
    · rw [← ScalarKind.ofInteger_inj.1 ha', onInts, onInts, Int.add_sub_cancel]

end Entity

/-! ### Columns of integers -/

/-- Does arithmetic on a field of every row. -/
def Query.calculating (f : FieldDef) (op : Arithmetic) (literal : Json) : Query where
  data := some (.one ⟨[(f.name, .update (op.update literal))]⟩)

/-- The rows of the entity's table have become others under the same keys, in the same order. -/
def Tables.RowForRow (T : Tables) (e : Entity) (R : Row → Row → Prop) (T' : Tables) : Prop :=
  List.Forall₂ (fun x y => e.keyOf y = e.keyOf x ∧ R x y) (T.rowsOf e.name) (T'.rowsOf e.name)

theorem Tables.RowForRow.trans {T T' T'' : Tables} {e : Entity} {R S Q : Row → Row → Prop}
    (h : T.RowForRow e R T') (h' : T'.RowForRow e S T'') (hQ : ∀ x y z, R x y → S y z → Q x z) :
    T.RowForRow e Q T'' :=
  (forall₂_trans h h').imp fun x z hxz => by
    obtain ⟨y, ⟨hkey, hR⟩, hkey', hS⟩ := hxz
    exact ⟨hkey'.trans hkey, hQ x y z hR hS⟩

theorem View.matching_none {v : View} {e : Entity} {rows : List Row}
    (h : v.matching e none = .ok rows) : rows = v.tables.rowsOf e.name := by
  obtain ⟨rows', hrows, h⟩ := Except.bind_eq_ok.1 h
  cases h
  obtain ⟨t, ht, h⟩ := Except.bind_eq_ok.1 hrows
  cases h
  rw [Tables.rowsOf, (Transaction.table_ok ht).2.2]
  rfl

/-- Patches of all rows. -/
theorem Tables.Patched.rowForRow {T T' : Tables} {e : Entity} {R : Row → Row → Prop}
    (h : T.Patched e.name R (T.rowsOf e.name) T') (hkey : ∀ x y, R x y → e.keyOf y = e.keyOf x) :
    T.RowForRow e R T' := by
  obtain ⟨t, t', ht, ht', -, hrows⟩ := h.table
  rw [Tables.RowForRow]
  simp only [Tables.rowsOf, ht, ht', Option.elim_some] at hrows ⊢
  have hall := (List.forall₂_and_left (p := (· ∈ t.toList)) _ _).2 ⟨fun _ hx => hx, hrows⟩
  exact hall.imp fun x y h => ⟨hkey x y (h.2.1 h.1), h.2.1 h.1⟩

namespace Client

/-- The request to do arithmetic on a field of every row. -/
def calculate (c : Client) (e : Entity) (f : FieldDef) (op : Arithmetic) (literal : Json)
    (tx : Option Nat) : Outcome Nat :=
  c.ask e.name (.updateMany (.calculating f op literal)) tx

variable {s : Schema} {c : Client} {e : Entity} {f : FieldDef}

/-- A column that is changed keeps its rows, and the table stays sorted. -/
theorem calculate_ok (hs : s.Resolved) (hc : c.schema = s) (hsorted : s.KeysInOrder c.store.tables)
    (he : s.entity? e.name = some e) (hfield : e.field? f.name = some f)
    (hids : ∀ g ∈ e.idFields, g ∉ e.stamps) {op : Arithmetic} {literal : Json} {tx : Option Nat}
    {n : Nat} (h : (c.calculate e f op literal tx).result = .ok n) :
    let left := (c.calculate e f op literal tx).client
    left.schema = s ∧ s.KeysInOrder left.store.tables ∧
      n = (c.store.tables.rowsOf e.name).length ∧
      c.store.tables.RowForRow e (fun x y =>
        e.change f (x.value f.name) (op.update literal) = .ok (y.value f.name)) left.store.tables := by
  intro left
  obtain ⟨e', t, w, he', hrun, -, hleft⟩ := ask_answered h
  rw [hc] at he' hrun
  cases he.symm.trans he'
  obtain ⟨data, rows, hdata, hrows, hlength, hpatched⟩ :=
    Triple.of_run hrun (updateMany_patches hs he hids hsorted)
  cases hdata
  have hall := View.matching_none hrows
  subst hall
  have htables : left.store.tables = w.tables := hleft.tables
  rw [htables]
  refine ⟨hleft.schema.trans hc, hpatched.sorted, hlength, ?_⟩
  have hrows := hpatched.rows.rowForRow fun _ _ h => h.key
  refine hrows.imp fun x y h => ⟨h.1, ?_⟩
  obtain ⟨g, hg, hvalue⟩ := h.2.named _ List.mem_cons_self
  cases hfield.symm.trans hg
  rw [Entity.rewritten_cons_of_eq rfl] at hvalue
  obtain ⟨v, hv, hvalue⟩ := Except.bind_eq_ok.1 hvalue
  cases hvalue
  exact hv

/-- What arithmetic on a column of integers leaves in the table, if it is answered. -/
structure CalculatesColumn (c : Client) (e : Entity) (f : FieldDef) : Prop where
  /-- Each row has the result of its own old value. -/
  stored : ∀ op literal tx n, (c.calculate e f op literal tx).result = .ok n →
    n = (c.store.tables.rowsOf e.name).length ∧
      c.store.tables.RowForRow e (fun x y =>
        e.change f (x.value f.name) (op.update literal) = .ok (y.value f.name))
        (c.calculate e f op literal tx).client.store.tables
  /-- What was added to all rows is taken away from all of them. -/
  restored : ∀ literal tx tx' more less m n, literal.isNull = false →
    c.calculate e f .add literal tx = more → more.result = .ok m →
    more.client.calculate e f .subtract literal tx' = less → less.result = .ok n →
      c.store.tables.RowForRow e (fun x y => y.value f.name = x.value f.name) less.client.store.tables

theorem calculatesColumn (hf : f.Integral) (hs : s.Resolved) (hc : c.schema = s)
    (hsorted : s.KeysInOrder c.store.tables) (he : s.entity? e.name = some e)
    (hfield : e.field? f.name = some f) (hids : ∀ g ∈ e.idFields, g ∉ e.stamps) :
    c.CalculatesColumn e f := by
  constructor
  · intro op literal tx n hn
    exact (calculate_ok hs hc hsorted he hfield hids hn).2.2
  · rintro literal tx tx' more less m n hliteral rfl hm rfl hn
    obtain ⟨hc', hsorted', -, hmore⟩ := calculate_ok hs hc hsorted he hfield hids hm
    obtain ⟨-, -, -, hless⟩ := calculate_ok hs hc' hsorted' he hfield hids hn
    exact hmore.trans hless fun x y z => Entity.change_restores hf hliteral

end Client

/-- Arithmetic on a field of integers gives the exact result, or null where there is nothing on one side,
or an error: there is no divisor, or no room for the result, or the operand or what is stored is not of
the field's kind. What was added to a value, or to a whole column, is taken away again by the same
amount. -/
theorem Entity.change_calculates {f : FieldDef} (hf : f.Integral) (e : Entity) :
    (∀ op old literal, e.Calculates f op old literal) ∧
    (∀ literal old more less, literal.isNull = false →
      e.change f old (.increment literal) = .ok more →
      e.change f more (.decrement literal) = .ok less → less = old) ∧
    ∀ (defs : List EntityDef) (s : Schema) (c : Client), Schema.ofDefs defs = .ok s → c.schema = s →
      s.KeysInOrder c.store.tables → s.entity? e.name = some e → e.field? f.name = some f →
      (∀ g ∈ e.idFields, g ∉ e.stamps) → c.CalculatesColumn e f :=
  ⟨calculates hf, fun _ _ _ _ => change_restores hf, fun _ _ _ hs hc hsorted he hfield hids =>
    Client.calculatesColumn hf (.ofDefs hs) hc hsorted he hfield hids⟩

/-! ### A stockroom, and lodgings -/

/-- Articles with a stock, and with a worth that may be of any size. -/
def EntityDef.stockroom : List EntityDef :=
  [{ name := "article",
     fields := [{ name := "id", kind := .int, id := true }, { name := "stock", kind := .int },
       { name := "worth", kind := .bigint }] }]

namespace Client

/-- Two articles, the second of which nobody has counted. -/
def stock : List Action :=
  [.ask "article" (.create (.ofFields [("id", .int 1), ("stock", .int 7)])) none,
   .ask "article" (.create (.ofFields [("id", .int 2)])) none]

end Client

theorem Entity.change_calculates_stockroom : ∃ (c : Client) (e : Entity) (stock worth : FieldDef),
    Schema.ofDefs EntityDef.stockroom = .ok c.schema ∧ c.schema.KeysInOrder c.store.tables ∧
      c.schema.entity? "article" = some e ∧ e.field? "stock" = some stock ∧
      e.field? "worth" = some worth ∧ stock.Integral ∧ worth.Integral ∧
      (∀ g ∈ e.idFields, g ∉ e.stamps) ∧
      e.change stock (.int (-2 ^ 63)) (.divide (.int (-1))) =
        .error (.invalidValue "article" "stock" .integerOverflow) ∧
      e.change stock (.int (-7)) (.divide (.int 2)) = .ok (.int (-3)) ∧
      e.change stock (.int 7) (.divide (.int 0)) =
        .error (.invalidValue "article" "stock" .divisionByZero) ∧
      e.change stock .null (.divide (.int 0)) = .ok .null ∧
      e.change worth (.bigint (2 ^ 63)) (.multiply (.string "-9_223_372_036_854_775_808")) =
        .ok (.bigint (-2 ^ 126)) ∧
      let more := c.calculate e stock .add (.int 5) none
      let less := more.client.calculate e stock .subtract (.int 5) none
      more.result = .ok 2 ∧ less.result = .ok 2 ∧ c.Shows "article" "stock" [.int 7, .null] ∧
        more.client.Shows "article" "stock" [.int 12, .null] ∧
        less.client.Shows "article" "stock" [.int 7, .null] ∧
        c.store.tables.RowForRow e (fun x y => y.value "stock" = x.value "stock")
          less.client.store.tables := by
  have hruns : (Client.openMemory EntityDef.stockroom).toOption.any fun c₀ =>
      let c := Client.stock.foldl Client.after c₀
      c₀.schema.KeysOfKinds ∧ ∃ e ∈ c₀.schema.entity? "article", ∃ f ∈ e.field? "stock",
        ∃ g ∈ e.field? "worth", (f.list = false ∧ f.kind = .int) ∧ (g.list = false ∧ g.kind = .bigint) ∧
        (∀ g ∈ e.idFields, g ∉ e.stamps) ∧
        let more := c.calculate e f .add (.int 5) none
        let less := more.client.calculate e f .subtract (.int 5) none
        more.result.toOption = some 2 ∧ less.result.toOption = some 2 ∧
          c.Shows "article" "stock" [.int 7, .null] ∧
          more.client.Shows "article" "stock" [.int 12, .null] ∧
          less.client.Shows "article" "stock" [.int 7, .null] := by
    decide +kernel
  obtain ⟨c₀, hs, hc₀, hholds, hkinds, e, he, stock, hstock, worth, hworth, hint, hbigint, hids, hmore,
    hless, hbefore, hadded, htaken⟩ := Client.exists_openMemory hruns
  have hregular : ∀ a ∈ Client.stock, a.Regular c₀.schema.classes c₀.store.tables := by
    intro a ha
    obtain rfl | rfl : a = _ ∨ a = _ := by simpa [Client.stock] using ha
    all_goals exact ⟨_, .inl .create⟩
  obtain ⟨hschema, hnow⟩ :=
    Client.holds_foldl (Schema.Resolved.ofDefs hs) hkinds hc₀ hholds hregular
  have hname : e.name = "article" := (Schema.Resolved.ofDefs hs).name he
  have hfield : stock.name = "stock" := by simpa using List.find?_some hstock
  have hintegral : stock.Integral := ⟨hint.1, .inl hint.2⟩
  have hbig : worth.Integral := ⟨hbigint.1, .inr hbigint.2⟩
  obtain ⟨hstocked, -, hcolumn⟩ := change_calculates hintegral e
  obtain ⟨hworthy, -⟩ := change_calculates hbig e
  have hexact (op : Arithmetic) (a b : Int) (literal : Json)
      (hb : ScalarKind.int.coerce literal = .ok (.int b)) :
      e.change stock (.int a) (op.update literal) =
        if op = .divide ∧ b = 0 then .error (.invalidValue "article" "stock" .divisionByZero)
        else if ScalarKind.int.HasRoom (op.onInts a b) then .ok (.int (op.onInts a b))
        else .error (.invalidValue "article" "stock" .integerOverflow) := by
    have h := (hstocked op (.int a) literal).exact a b
    rw [hint.2, hname, hfield, ← op.onInts_eq] at h
    exact h rfl hb
  have hnull : e.change stock .null (.divide (.int 0)) = .ok .null := by
    refine (hstocked .divide .null (.int 0)).null (.int 0) ?_ (.inl rfl)
    rw [hint.2]
    rfl
  have hlarge : e.change worth (.bigint (2 ^ 63)) (.multiply (.string "-9_223_372_036_854_775_808")) =
      .ok (.bigint (-2 ^ 126)) := by
    have h := (hworthy .multiply (.bigint (2 ^ 63)) (.string "-9_223_372_036_854_775_808")).exact
      (2 ^ 63) (-2 ^ 63)
    rw [hbigint.2, ← Arithmetic.onInts_eq] at h
    exact h rfl rfl
  have hsorted := hnow.keysInOrder
  have hmore := Except.toOption_eq_some.1 hmore
  have hless := Except.toOption_eq_some.1 hless
  have hcolumn := hcolumn _ _ _ hs hschema hsorted (by rw [hname, he]) (by rw [hfield, hstock]) hids
  have hrestored := hcolumn.restored (.int 5) none none _ _ 2 2 rfl rfl hmore rfl hless
  rw [hfield] at hrestored
  rw [← hschema] at hs hsorted he
  exact ⟨_, e, stock, worth, hs, hsorted, he, hstock, hworth, hintegral, hbig, hids,
    hexact .divide (-2 ^ 63) (-1) _ rfl, hexact .divide (-7) 2 _ rfl, hexact .divide 7 0 _ rfl, hnull,
    hlarge, hmore, hless, hbefore, hadded, htaken, hrestored⟩

/-- Rooms with numbers, and stays in them, whose field for that number is of another kind. -/
def EntityDef.lodging : List EntityDef :=
  [{ name := "room", fields := [{ name := "id", kind := .int, id := true }] },
   { name := "stay",
     fields := [{ name := "id", kind := .int, id := true }, { name := "roomId", kind := .bigint },
       { name := "nights", kind := .int, list := true }],
     relations := [.owning "room" "room" ["roomId"] ["id"]] }]

namespace Client

/-- Two rooms, and a stay in the first. -/
def lodge : List Action :=
  [.ask "room" (.create (.ofFields [("id", .int 1)])) none,
   .ask "room" (.create (.ofFields [("id", .int 2)])) none,
   .ask "stay" (.create { data := some (.one ⟨[("id", .literal (.int 1)),
     ("room", .relation { connect := [Filter.whereEquals {} "id" (.int 1)] })]⟩) }) none]

/-- Changes the room of the stay. -/
def moving : Query where
  filter := (Query.ofId 1).filter
  data := some (.one ⟨[("roomId", .update (.increment (.int 1)))]⟩)

end Client

/-- A key that was taken over from the row that it names is of the kind that it has there. It is not
combined with an integer of the field's own kind, although none is too large and nothing is divided.
Neither is a literal that is no number, and a list is not changed by arithmetic at all. What has become
null by adding nothing does not come back by taking nothing away. -/
theorem Entity.change_calculates_copied : ∃ (c₀ : Client) (e : Entity) (f g : FieldDef) (x : Row),
    Schema.ofDefs EntityDef.lodging = .ok c₀.schema ∧ c₀.Opened c₀.schema ∧
      c₀.schema.entity? "stay" = some e ∧ e.field? "roomId" = some f ∧ f.Integral ∧ f.kind = .bigint ∧
      e.field? "nights" = some g ∧ g.kind = .int ∧ g.list = true ∧
      let c := Client.lodge.foldl Client.after c₀
      c.store.tables.rowsOf "stay" = [x] ∧ f.kind.coerce (.int 1) = .ok (.bigint 1) ∧
        x.value "roomId" = .int 1 ∧
        e.change f (.int 1) (.increment (.int 1)) =
          .error (.invalidValue "stay" "roomId" (.notCombinable "int" "bigint")) ∧
        (c.ask "stay" (.update Client.moving) none).result.isOk = false ∧
        e.change f (.bigint 1) (.increment (.string "one")) =
          .error (.invalidValue "stay" "roomId" (.coercion (.notBigint "one"))) ∧
        e.change g (.list []) (.increment (.int 1)) =
          .error (.invalidQuery (.updateOnField "arithmetic" .int true "stay" "nights")) ∧
        e.change f (.bigint 1) (.increment .null) = .ok .null ∧
        e.change f .null (.decrement .null) = .ok .null := by
  have hruns : (Client.openMemory EntityDef.lodging).toOption.any fun c₀ =>
      let c := Client.lodge.foldl Client.after c₀
      (∃ e ∈ c₀.schema.entity? "stay", ∃ f ∈ e.field? "roomId", ∃ g ∈ e.field? "nights",
        (f.list = false ∧ f.kind = .bigint) ∧ g.kind = .int ∧ g.list = true) ∧
        (c.store.tables.rowsOf "stay").map (fun x => (x.value "roomId").int?) = [some 1] ∧
        (c.ask "stay" (.update Client.moving) none).result.isOk = false := by
    decide +kernel
  obtain ⟨c₀, hs, hc₀, -, ⟨e, he, f, hf, g, hg, hbigint, hint, hlist⟩, hrows, hfails⟩ :=
    Client.exists_openMemory hruns
  obtain ⟨x, hrows, hvalue⟩ := List.map_eq_singleton_iff.1 hrows
  have hcopied : x.value "roomId" = .int 1 := by
    cases h : x.value "roomId" <;> simp_all [Value.int?]
  have hintegral : f.Integral := ⟨hbigint.1, .inr hbigint.2⟩
  have hname : e.name = "stay" := (Schema.Resolved.ofDefs hs).name he
  have hf' : f.name = "roomId" := by simpa using List.find?_some hf
  have hg' : g.name = "nights" := by simpa using List.find?_some hg
  have hone : f.kind.coerce (.int 1) = .ok (.bigint 1) := by
    rw [hbigint.2]
    rfl
  have hnothing : f.kind.coerce .null = .ok .null := by
    rw [hbigint.2]
    rfl
  refine ⟨c₀, e, f, g, x, hs, hc₀, he, hf, hintegral, hbigint.2, hg, hint, hlist, hrows, hone, hcopied,
    ?_, hfails, ?_, ?_, ?_, ?_⟩
  · have h := (calculates (e := e) hintegral .add (.int 1) (.int 1)).foreign 1
    rw [hbigint.2, hname, hf'] at h
    exact h rfl (by simp) (by simp [ScalarKind.ofInteger])
  · have h := (calculates (e := e) hintegral .add (.bigint 1) (.string "one")).unreadable
    rw [hbigint.2, hname, hf'] at h
    exact h _ rfl
  · rw [change, calculate, hlist, hint, unsuitedUpdate, hint, hlist, hname, hg']
    rfl
  · exact (calculates hintegral .add (.bigint 1) .null).null .null hnothing (.inr rfl)
  · exact (calculates hintegral .subtract .null .null).null .null hnothing (.inl rfl)

end RelationalStore

import RelationalStore.Engine.Arithmetic
import RelationalStore.Proofs.SchemaResolution
import RelationalStore.Proofs.ValueOrder
import RelationalStore.Proofs.WriteInvariants

/- Where numbers come from. A literal becomes a value of its field's kind, arithmetic stays within
   the kind of its operands, and a foreign key whose fields have the kinds of the fields they
   reference takes over values of those kinds. So the numbers in a column keep to the class of the
   kind that is declared for it (`Schema.classes`), and writes do not leave it. -/
namespace RelationalStore
open SortedMap Read

/-- A literal becomes null if it is null, and otherwise a value of the kind. -/
theorem ScalarKind.coerce_yields (kind : ScalarKind) (literal : Json) :
    Yields (kind.coerce literal) (fun v => v.isOf kind ∧ v.isNull = literal.isNull)
      fun _ => True := by
  refine .ite (fun hnull => .ok ⟨by cases kind <;> rfl, hnull.symm⟩) fun hnull => ?_
  rw [Bool.not_eq_true] at hnull
  rw [hnull]
  let OfKind (v : Value) : Prop := v.isOf kind ∧ v.isNull = false
  have hmismatch {v : Option Value} (h : ∀ w ∈ v, OfKind w) :
      Yields (v.elim (.error (.mismatch kind literal)) Except.ok) OfKind
        fun _ : CoercionError => True :=
    .elim (.error trivial) fun w hw => .ok (h w hw)
  have hfound {α : Type} {x : Option α} {f : α → Value} (hf : ∀ a, OfKind (f a)) :
      ∀ w ∈ x.map f, OfKind w := by
    intro w hw
    obtain ⟨a, -, rfl⟩ := Option.map_eq_some_iff.1 hw
    exact hf a
  cases kind with
  | string => exact hmismatch (hfound fun _ => ⟨rfl, rfl⟩)
  | int => exact hmismatch (hfound fun _ => ⟨rfl, rfl⟩)
  | float => exact hmismatch (hfound fun _ => ⟨rfl, rfl⟩)
  | boolean => exact hmismatch (hfound fun _ => ⟨rfl, rfl⟩)
  | json => exact .ok ⟨rfl, rfl⟩
  -- The rest look at the form of the literal first.
  | bytes =>
    refine hmismatch fun w hw => ?_
    obtain ⟨items, -, hw⟩ := Option.bind_eq_some_iff.1 hw
    exact hfound (fun _ => ⟨rfl, rfl⟩) w hw
  | datetime =>
    cases literal with
    | string s => exact .elim (.error trivial) fun _ _ => .ok ⟨rfl, rfl⟩
    | int n =>
      simp only
      split
      · exact hmismatch (by simp)
      · exact .elim (.error trivial) fun _ _ => .ok ⟨rfl, rfl⟩
    | _ => exact hmismatch (by simp)
  | bigint =>
    cases literal with
    | int n => exact .ok ⟨rfl, rfl⟩
    | string s => exact .elim (.error trivial) fun _ _ => .ok ⟨rfl, rfl⟩
    | _ => exact hmismatch (by simp)
  | decimal =>
    cases literal with
    | int n => exact .ok ⟨rfl, rfl⟩
    | float x => exact .elim (.error trivial) fun _ _ => .ok ⟨rfl, rfl⟩
    | string s => exact .elim (.error trivial) fun _ _ => .ok ⟨rfl, rfl⟩
    | _ => exact hmismatch (by simp)

/-- The value is null or of the field's kind; in a list field it is null or a list of such values. -/
def FieldDef.takes (f : FieldDef) (v : Value) : Bool :=
  if f.list then
    match v with
    | .null => true
    | .list items => items.all (·.isOf f.kind)
    | _ => false
  else v.isOf f.kind

theorem FieldDef.takes_null (f : FieldDef) : f.takes .null = true := by
  unfold takes
  split
  · rfl
  · cases f.kind <;> rfl

theorem FieldDef.takes_list {f : FieldDef} (hlist : f.list = true) {items : List Value}
    (h : ∀ v ∈ items, v.isOf f.kind) : f.takes (.list items) = true := by
  rw [takes, if_pos hlist]
  exact List.all_eq_true.2 h

theorem FieldDef.within_of_takes {f : FieldDef} {v : Value} (h : f.takes v) :
    v.within f.kind.numbers := by
  unfold takes at h
  split at h
  · split at h
    · rfl
    · rw [Value.within, Value.allWithin_iff]
      exact fun x hx => Value.within_of_isOf (List.all_eq_true.1 h x hx)
    · cases h
  · exact Value.within_of_isOf h

/-- Two values of different kinds have no result, and that of one kind is of that kind. -/
theorem Arithmetic.apply_yields (op : Arithmetic) (a b : Value) :
    Yields (op.apply a b) (fun v => v = .null ∨ (∃ m n, a = .int m ∧ v = .int n) ∨
      (∃ x y, a = .float x ∧ v = .float y) ∨ (∃ m n, a = .bigint m ∧ v = .bigint n) ∨
      ∃ x y, a = .decimal x ∧ v = .decimal y) fun _ => True := by
  refine .ite (fun _ => .ok (.inl rfl)) fun _ => .ite (fun _ => .error trivial) fun _ => ?_
  split
  · exact .ite (fun _ => .ok (by simp)) fun _ => .error trivial
  · exact .ite (fun _ => .ok (by simp)) fun _ => .error trivial
  · exact .ok (by simp)
  · exact .elim (.error trivial) fun _ _ => .ok (by simp)
  · exact .error trivial

theorem Arithmetic.apply_within (op : Arithmetic) {a b : Value} {c : NumberClass}
    (ha : a.within c) : Yields (op.apply a b) (fun v => v.within c) fun _ => True := by
  refine (op.apply_yields a b).mono (fun v hv => ?_) fun _ h => h
  rcases hv with rfl | ⟨m, n, rfl, rfl⟩ | ⟨x, y, rfl, rfl⟩ | ⟨m, n, rfl, rfl⟩ | ⟨x, y, rfl, rfl⟩
  · rfl
  all_goals simpa [Value.within] using ha

theorem Arithmetic.apply_isOf (op : Arithmetic) {a b : Value} {kind : ScalarKind}
    (ha : a.isOf kind) : Yields (op.apply a b) (fun v => v.isOf kind) fun _ => True := by
  refine (op.apply_yields a b).mono (fun v hv => ?_) fun _ h => h
  rcases hv with rfl | ⟨m, n, rfl, rfl⟩ | ⟨x, y, rfl, rfl⟩ | ⟨m, n, rfl, rfl⟩ | ⟨x, y, rfl, rfl⟩
  · cases kind <;> rfl
  all_goals cases kind <;> first | rfl | cases ha

namespace Entity
variable (e : Entity) (f : FieldDef) {current : Value}

theorem coerceItem_yields (literal : Json) :
    Yields (e.coerceItem f literal) (fun v => v.isOf f.kind ∧ v.isNull = literal.isNull)
      fun _ => True := by
  have h := f.kind.coerce_yields literal
  unfold coerceItem
  cases hc : f.kind.coerce literal with
  | error cause => exact .error trivial
  | ok v =>
    rw [hc] at h
    exact .ok h

theorem coerceItem_isOf (literal : Json) :
    Yields (e.coerceItem f literal) (fun v => v.isOf f.kind) fun _ => True :=
  (coerceItem_yields e f literal).mono (fun _ h => h.1) fun _ h => h

/-- Only null becomes null. -/
theorem coerce_yields (literal : Json) :
    Yields (e.coerce f literal) (fun v => f.takes v ∧ v.isNull = literal.isNull) fun _ => True := by
  refine .ite (fun hscalar => ?_) fun hlist => ?_
  · refine (coerceItem_yields e f literal).mono (fun v hv => ⟨?_, hv.2⟩) fun _ h => h
    cases hl : f.list with
    | false => simpa [FieldDef.takes, hl] using hv.1
    | true =>
      -- An item stands for a list only where it is null.
      simp only [hl, Bool.not_true, Bool.false_or] at hscalar
      cases v with
      | null => exact f.takes_null
      | _ => cases hv.2.trans hscalar
  · split
    · exact .error trivial
    · have hlist : f.list = true ∧ literal.isNull = false := by simpa using hlist
      refine .bind (.mapM fun item _ => coerceItem_isOf e f item) fun items hitems => .pure ⟨?_, ?_⟩
      · exact FieldDef.takes_list hlist.1 hitems
      · exact hlist.2.symm

/-- Lists have no arithmetic. -/
theorem calculate_yields (op : Arithmetic) (literal : Json) :
    Yields (e.calculate f current op literal)
      (fun v => f.list = false ∧ ∃ operand, op.apply current operand = .ok v) fun _ => True := by
  refine .ite (fun _ => .bind (R := fun _ => False) (.error trivial) fun _ h => h.elim)
    fun h => .andThen .any fun operand => ?_
  have hlist : f.list = false := by
    cases hl : f.list <;> simp [hl] at h ⊢
  cases hc : op.apply current operand with
  | error fault => exact .error trivial
  | ok v => exact .ok ⟨hlist, operand, hc⟩

theorem push_yields (literal : Json) :
    Yields (e.push f current literal) (fun v => f.list = true ∧ ∃ items : List Value,
      (∀ x ∈ items, x.isOf f.kind) ∧ v = .list (current.list?.getD [] ++ items)) fun _ => True := by
  refine .ite (fun _ => .bind (R := fun _ => False) (.error trivial) fun _ h => h.elim) fun h => ?_
  refine .bind (.mapM fun item _ => coerceItem_isOf e f item) fun items hitems => .pure ?_
  exact ⟨by simpa using h, items, hitems, rfl⟩

theorem change_within (h : current.within f.kind.numbers) (op : UpdateOp) :
    Yields (e.change f current op) (fun v => v.within f.kind.numbers) fun _ => True := by
  have hcalculate (op : Arithmetic) (literal : Json) :
      Yields (e.calculate f current op literal) (fun v => v.within f.kind.numbers) fun _ => True := by
    refine (calculate_yields e f op literal).mono (fun v hv => ?_) fun _ h => h
    obtain ⟨-, operand, hv⟩ := hv
    have happly := op.apply_within (b := operand) h
    rwa [hv] at happly
  cases op with
  | set literal =>
    exact (coerce_yields e f literal).mono (fun _ h => FieldDef.within_of_takes h.1) fun _ h => h
  | unset => exact .ok rfl
  | push literal =>
    refine (push_yields e f literal).mono (fun v hv => ?_) fun _ h => h
    obtain ⟨-, items, hitems, rfl⟩ := hv
    rw [Value.within, Value.allWithin_iff]
    intro v hv
    rcases List.mem_append.1 hv with hv | hv
    · cases current with
      | list old =>
        rw [Value.within, Value.allWithin_iff] at h
        exact h v hv
      | _ => simp [Value.list?] at hv
    · exact Value.within_of_isOf (hitems v hv)
  | increment literal => exact hcalculate .add literal
  | decrement literal => exact hcalculate .subtract literal
  | multiply literal => exact hcalculate .multiply literal
  | divide literal => exact hcalculate .divide literal

theorem change_takes (h : f.takes current) (op : UpdateOp) :
    Yields (e.change f current op) (fun v => f.takes v) fun _ => True := by
  have hcalculate (op : Arithmetic) (literal : Json) :
      Yields (e.calculate f current op literal) (fun v => f.takes v) fun _ => True := by
    refine (calculate_yields e f op literal).mono (fun v hv => ?_) fun _ h => h
    obtain ⟨hlist, operand, hv⟩ := hv
    simp only [FieldDef.takes, hlist, Bool.false_eq_true, if_false] at h ⊢
    have happly := op.apply_isOf (b := operand) h
    rwa [hv] at happly
  cases op with
  | set literal => exact (coerce_yields e f literal).mono (fun _ h => h.1) fun _ h => h
  | unset => exact .ok f.takes_null
  | push literal =>
    refine (push_yields e f literal).mono (fun v hv => ?_) fun _ h => h
    obtain ⟨hlist, items, hitems, rfl⟩ := hv
    refine FieldDef.takes_list hlist fun v hv => ?_
    rcases List.mem_append.1 hv with hv | hv
    · cases current with
      | list old =>
        rw [FieldDef.takes, if_pos hlist] at h
        exact List.all_eq_true.1 h v hv
      | _ => simp [Value.list?] at hv
    · exact hitems v hv
  | increment literal => exact hcalculate .add literal
  | decrement literal => exact hcalculate .subtract literal
  | multiply literal => exact hcalculate .multiply literal
  | divide literal => exact hcalculate .divide literal

end Entity

/-! ### Schemas -/

namespace Schema
variable {s : Schema}

/-- The class of the numbers in a column of an entity's table. -/
def classes (s : Schema) (table column : String) : NumberClass :=
  ((s.entity? table).bind (·.field? column)).elim .whole (·.kind.numbers)

/-- Foreign keys have the kinds of the fields that they reference. -/
def KeysOfKinds (s : Schema) : Prop :=
  ∀ e ∈ s.entities.values, ∀ r ∈ e.owningRelations, ∀ t ∈ s.entity? r.target,
    ∀ p ∈ r.near.zip r.far, (e.field? p.1).map (·.kind) = (t.field? p.2).map (·.kind)

instance : Decidable s.KeysOfKinds := by
  unfold KeysOfKinds
  infer_instance

theorem classes_field (hs : s.Resolved) {e : Entity} (he : s.entity? e.name = some e) {f : FieldDef}
    (hf : f ∈ e.fields) : s.classes e.name f.name = f.kind.numbers := by
  rw [classes, he, Option.bind_some, hs.field he f hf]
  rfl

theorem classes_link (hs : s.Resolved) (hkinds : s.KeysOfKinds) {e : Entity}
    (he : s.entity? e.name = some e) {r : Relation} (hr : r ∈ e.owningRelations)
    {p : String × String} (hp : p ∈ r.near.zip r.far) :
    s.classes e.name p.1 = s.classes r.target p.2 := by
  obtain ⟨t, ht⟩ := hs.target he r (List.mem_filter.1 hr).1
  have hkind := hkinds e (hs.mem_values he) r hr t ht p hp
  rw [classes, classes, he, ht, Option.bind_some, Option.bind_some]
  cases hnear : e.field? p.1 <;> cases hfar : t.field? p.2 <;> simp [hnear, hfar] at hkind ⊢
  rw [hkind]

/-- Values that keep to the classes of those columns that are of interest; tables that are of no entity
have classes of their own. -/
theorem supplies_where (hs : s.Resolved) {κ : String → String → NumberClass}
    (hκ : ∀ e, s.entity? e.name = some e → κ e.name = s.classes e.name) (P : String → String → Prop) :
    s.Supplies fun n c v => P n c → v.within (κ n c) where
  null _ _ _ := rfl
  coerce := by
    intro e he f hf literal v hv _
    have h := e.coerce_yields f literal
    rw [hv] at h
    rw [hκ e he, classes_field hs he hf]
    exact FieldDef.within_of_takes h.1
  stamp _ _ _ _ _ _ := rfl
  time _ _ _ _ _ _ _ := rfl
  text _ _ _ _ _ _ _ := rfl
  increment := by
    intro e he f hf hd n _
    rw [hκ e he, classes_field hs he hf, hs.increment he f hf hd]
    rfl
  noItems _ _ _ _ _ := rfl

/-- The same, where foreign keys take values over between columns that agree in this. -/
theorem admits_where (hs : s.Resolved) {κ : String → String → NumberClass}
    (hκ : ∀ e, s.entity? e.name = some e → κ e.name = s.classes e.name)
    {P : String → String → Prop}
    (hlink : ∀ e, s.entity? e.name = some e → ∀ r ∈ e.owningRelations, ∀ p ∈ r.near.zip r.far,
      P e.name p.1 → P r.target p.2 ∧ κ e.name p.1 = κ r.target p.2) :
    s.Admits fun n c v => P n c → v.within (κ n c) where
  toSupplies := supplies_where hs hκ P
  change := by
    intro e he f hf current op v hcurrent hv hP
    have hcurrent := hcurrent hP
    rw [hκ e he, classes_field hs he hf] at hcurrent ⊢
    have h := e.change_within f hcurrent op
    rwa [hv] at h
  link := by
    intro e he r hr p hp v hv hP
    obtain ⟨htarget, heq⟩ := hlink e he r hr p hp hP
    rw [heq]
    exact hv htarget

/-- Values that keep to the classes of their columns. -/
theorem admits_within (hs : s.Resolved) (hkinds : s.KeysOfKinds) {κ : String → String → NumberClass}
    (hκ : ∀ e, s.entity? e.name = some e → κ e.name = s.classes e.name) :
    s.Admits fun n c v => v.within (κ n c) := by
  have h : s.Admits fun n c v => True → v.within (κ n c) := by
    refine admits_where hs hκ fun e he r hr p hp _ => ⟨trivial, ?_⟩
    obtain ⟨t, ht⟩ := hs.target he r (List.mem_filter.1 hr).1
    have hname := hs.name ht
    rw [hκ e he, classes_link hs hkinds he hr hp, ← hname, hκ t (by rw [hname, ht])]
  simpa only [true_imp_iff] using h

end Schema

end RelationalStore

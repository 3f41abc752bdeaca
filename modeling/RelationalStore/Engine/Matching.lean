import RelationalStore.Engine.Coercion
import RelationalStore.Engine.View
import RelationalStore.Text.Casing

/- Which rows a filter lets through. A filter is decided row by row: its conditions, its conjuncts,
   at least one of its alternatives, and none of its exclusions, in this order and only as far as
   needed. A condition on a relation is decided on the related rows. -/
namespace RelationalStore

namespace Entity

/-! ### Conditions on fields -/

/-- The order of two values, in which text may be taken in lower case. -/
def compareIn (mode : TextMode) (a b : Value) : Ordering :=
  match mode, a, b with
  | .insensitive, .string x, .string y => compare (Text.toLower x) (Text.toLower y)
  | _, a, b => compare a b

/-- Whether two lists hold the same values, each as often. -/
def sameItems (a b : List Value) : Bool :=
  let sorted (items : List Value) := items.mergeSort fun x y => (x.compare y).isLE
  Value.compareItems (sorted a) (sorted b) == .eq

/-- Whether a stored value equals a literal; null equals null alone. -/
def equalsLiteral (e : Entity) (f : FieldDef) (value : Value) (mode : TextMode) (literal : Json) :
    Read Bool := do
  let expected ← e.coerce f literal
  if expected.isNull || value.isNull then return expected.isNull && value.isNull
  else if f.list then
    match value.list?, expected.list? with
    | some a, some b => return sameItems a b
    | _, _ => return false
  else return compareIn mode value expected == .eq

def equalsAny (e : Entity) (f : FieldDef) (value : Value) (mode : TextMode)
    (literals : List Json) : Read Bool :=
  literals.anyM (e.equalsLiteral f value mode)

/-- Holds if the operator may be used on the field, and fails otherwise. -/
def allow (e : Entity) (f : FieldDef) (allowed : Bool) (operator : String) : Read Bool :=
  if allowed then .ok true
  else .error (.invalidQuery (.operatorOnField operator f.kind f.list e.name f.name))

/-- Whether a value lies on the accepted side of a bound; null lies on no side of any. -/
def within (e : Entity) (f : FieldDef) (value : Value) (mode : TextMode) (operator : String)
    (accepted : Ordering → Bool) (bound : Option Json) : Read Bool :=
  match bound with
  | none => .ok true
  | some literal =>
    (e.allow f (f.kind.capabilities.ordered && !f.list) operator).and do
      let bound ← e.coerceItem f literal
      return !value.isNull && !bound.isNull && accepted (compareIn mode value bound)

/-- Whether one text is part of another. -/
def isPart (needle : List Char) : List Char → Bool
  | [] => needle.isEmpty
  | c :: rest => needle.isPrefixOf (c :: rest) || isPart needle rest

/-- Whether a text value passes a search for a needle; other values do not. -/
def searched (e : Entity) (f : FieldDef) (value : Value) (mode : TextMode) (operator : String)
    (hit : List Char → List Char → Bool) (needle : Option String) : Read Bool :=
  match needle with
  | none => .ok true
  | some needle =>
    (e.allow f (f.kind.capabilities.textual && !f.list) operator).and
      (match value.string?, mode with
        | none, _ => .ok false
        | some text, .sensitive => .ok (hit needle.toList text.toList)
        | some text, .insensitive =>
          .ok (hit (Text.toLower needle).toList (Text.toLower text).toList))

/-- Whether a list holds a literal. -/
def holds (e : Entity) (f : FieldDef) (items : List Value) (literal : Json) : Read Bool := do
  let wanted ← e.coerceItem f literal
  return items.any (·.equiv wanted)

/-- The operators on lists; a value that is no list counts as an empty one. -/
def listTest (e : Entity) (f : FieldDef) (value : Value) (has : Option Json)
    (hasEvery hasSome : Option (List Json)) (isEmpty : Option Bool) : Read Bool :=
  if has.isNone && hasEvery.isNone && hasSome.isNone && isEmpty.isNone then .ok true
  else
    let items := value.list?.getD []
    (e.allow f f.list "has/hasEvery/hasSome/isEmpty").and <| Read.all [
      has.elim (.ok true) (e.holds f items),
      hasEvery.elim (.ok true) fun literals => literals.allM (e.holds f items),
      hasSome.elim (.ok true) fun literals => literals.anyM (e.holds f items),
      .ok (isEmpty.elim true (items.isEmpty == ·))]

mutual

/-- Whether a stored value passes every operator of a test. -/
def passes (e : Entity) (f : FieldDef) (value : Value) : ScalarTest → Read Bool
  | ⟨equals, not, isIn, notIn, lt, lte, gt, gte, contains, startsWith, endsWith, mode, has,
      hasEvery, hasSome, isEmpty⟩ =>
    let caps := f.kind.capabilities
    let member := caps.membership && !f.list
    Read.all [
      e.allow f (mode == .sensitive || (caps.textual && !f.list)) "mode",
      equals.elim (.ok true) (e.equalsLiteral f value mode),
      match not with
      | none => .ok true
      | some negation => Read.not (negated e f value mode negation),
      isIn.elim (.ok true) fun literals =>
        (e.allow f member "in").and
          (if value.isNull then .ok false else e.equalsAny f value mode literals),
      notIn.elim (.ok true) fun literals =>
        (e.allow f member "notIn").and
          (if value.isNull then .ok true else Read.not (e.equalsAny f value mode literals)),
      e.within f value mode "lt" (· == .lt) lt,
      e.within f value mode "lte" Ordering.isLE lte,
      e.within f value mode "gt" (· == .gt) gt,
      e.within f value mode "gte" Ordering.isGE gte,
      e.searched f value mode "contains" isPart contains,
      e.searched f value mode "startsWith" List.isPrefixOf startsWith,
      e.searched f value mode "endsWith" List.isSuffixOf endsWith,
      e.listTest f value has hasEvery hasSome isEmpty]

/-- Whether a stored value is what a negation excludes. -/
def negated (e : Entity) (f : FieldDef) (value : Value) (mode : TextMode) : Negation → Read Bool
  | .literal literal => e.equalsLiteral f value mode literal
  | .test test => passes e f value test

end

/-- Whether a stored value meets a condition on its field. -/
def meets (e : Entity) (f : FieldDef) (value : Value) : Condition → Read Bool
  | .isNull => .ok value.isNull
  | .equals literal => e.equalsLiteral f value .sensitive literal
  | .scalar test => e.passes f value test
  | .relation _ => .error (.invalidQuery (.nestedOnScalar e.name f.name))
  | .nested _ => .error (.invalidQuery (.nestedOnScalar e.name f.name))

/-- What a condition is on. -/
inductive Subject where
  | field (f : FieldDef)
  | relation (r : Relation)
  | compound (fields : List String)

/-- What a name in a filter stands for: a field, else a relation, else a compound unique group. -/
def subject (e : Entity) (name : String) : Read Subject :=
  match e.field? name, e.relation? name, e.compound? name with
  | some f, _, _ => .ok (.field f)
  | none, some r, _ => .ok (.relation r)
  | none, none, some fields => .ok (.compound fields)
  | none, none, none => .error (.unknownField e.name name)

end Entity

namespace View

/-- The error of a condition that does not suit a relation. -/
def unsuited {α : Type} (e : Entity) (r : Relation) (what : String) : Read α :=
  .error (.invalidQuery (.conditionOnRelation what r.isToMany e.name r.name))

/-- The entity at the other end of a relation that a plain condition may be put on: one to at most
one row. -/
def plainTarget (v : View) (e : Entity) (r : Relation) : Read Entity := do
  let target ← v.schema.require r.target
  if r.isToMany then unsuited e r "a plain condition (use some, every or none)" else return target

/-- A condition that holds no filter: on a field, or on there being a related row. -/
def meetsPlainly (v : View) (e : Entity) (row : Row) (name : String) (c : Condition) :
    Read Bool := do
  match ← e.subject name with
  | .field f => e.meets f (row.value name) c
  | .compound _ => .error (.invalidQuery (.compoundNotObject name))
  | .relation r =>
    let _ ← v.plainTarget e r
    match c with
    | .isNull => return (← v.relatedRows r row).isEmpty
    | _ => unsuited e r "a scalar condition"

mutual

/-- Whether a filter lets a row through. -/
def lets (v : View) (e : Entity) (row : Row) : Filter → Read Bool
  | ⟨conjuncts, alternatives, exclusions, conditions⟩ => Read.all [
      meetsAll v e row conditions,
      letsEach v e row conjuncts,
      match alternatives with
      | none => .ok true
      | some filters => letsAny v e row filters,
      Read.not (letsAny v e row exclusions)]

/-- Whether every filter lets a row through. -/
def letsEach (v : View) (e : Entity) (row : Row) : List Filter → Read Bool
  | [] => .ok true
  | f :: rest => (lets v e row f).and (letsEach v e row rest)

/-- Whether at least one filter lets a row through. -/
def letsAny (v : View) (e : Entity) (row : Row) : List Filter → Read Bool
  | [] => .ok false
  | f :: rest => do
    if ← lets v e row f then return true else letsAny v e row rest

/-- Whether a row meets every condition. -/
def meetsAll (v : View) (e : Entity) (row : Row) : List (String × Condition) → Read Bool
  | [] => .ok true
  | (name, c) :: rest => (meetsOne v e row name c).and (meetsAll v e row rest)

/-- Whether a row meets a condition. A filter under a name is on the related row of a to-one
relation, or on the row itself where the name is that of a compound unique group. -/
def meetsOne (v : View) (e : Entity) (row : Row) (name : String) : Condition → Read Bool
  | .nested f => do
    match ← e.subject name with
    | .field _ => .error (.invalidQuery (.nestedOnScalar e.name name))
    | .compound _ => lets v e row f
    | .relation r =>
      let target ← v.plainTarget e r
      (← v.relatedRows r row).anyM fun related => lets v target related f
  | .relation test => do
    match ← e.subject name with
    | .relation r => meetsTest v e r row test
    | .field _ => .error (.invalidQuery (.nestedOnScalar e.name name))
    | .compound _ => .error (.invalidQuery (.compoundNotObject name))
  | .isNull => v.meetsPlainly e row name .isNull
  | .equals literal => v.meetsPlainly e row name (.equals literal)
  | .scalar test => v.meetsPlainly e row name (.scalar test)

/-- The operators on the related rows. -/
def meetsTest (v : View) (e : Entity) (r : Relation) (row : Row) : RelationTest → Read Bool
  | ⟨is, isNot, every, someOf, noneOf⟩ => do
    let target ← v.schema.require r.target
    if r.isToMany then
      if is.isSome || isNot.isSome then unsuited e r "is/isNot"
      else
        let related ← v.relatedRows r row
        Read.all [
          match every with
          | none => .ok true
          | some f => related.allM fun row => lets v target row f,
          match someOf with
          | none => .ok true
          | some f => related.anyM fun row => lets v target row f,
          match noneOf with
          | none => .ok true
          | some f => Read.not (related.anyM fun row => lets v target row f)]
    else
      if every.isSome || someOf.isSome || noneOf.isSome then unsuited e r "every/some/none"
      else
        let related ← v.relatedRows r row
        Read.all [
          match is with
          | none => .ok true
          | some wanted => meetsTarget v target related wanted,
          match isNot with
          | none => .ok true
          | some unwanted => Read.not (meetsTarget v target related unwanted)]

/-- Whether there is no related row, or one that a filter lets through. -/
def meetsTarget (v : View) (target : Entity) (related : List Row) : RelationTarget → Read Bool
  | .absent => .ok related.isEmpty
  | .passing f => related.anyM fun row => lets v target row f

end

/-- The rows that a filter lets through, in their order. -/
def select (v : View) (e : Entity) (rows : List Row) (f : Filter) : Read (List Row) :=
  rows.filterM fun row => v.lets e row f

end View

end RelationalStore

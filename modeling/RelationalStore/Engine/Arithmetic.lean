import RelationalStore.Engine.Coercion

/- New values of fields from old ones: arithmetic on numbers, and items pushed onto lists.
   Arithmetic with null is null. The result is of the kind of the operands, and it is an error if
   that kind cannot hold it; the division of integers goes toward zero. -/
namespace RelationalStore

/-- The four operations on numbers. -/
inductive Arithmetic where
  | add
  | subtract
  | multiply
  | divide
  deriving DecidableEq

namespace Arithmetic

def onInts : Arithmetic → Int → Int → Int
  | .add, a, b => a + b
  | .subtract, a, b => a - b
  | .multiply, a, b => a * b
  | .divide, a, b => a.tdiv b

def onFloats : Arithmetic → Binary64 → Binary64 → Binary64
  | .add, a, b => a.add b
  | .subtract, a, b => a.sub b
  | .multiply, a, b => a.mul b
  | .divide, a, b => a.div b

def onDecimals : Arithmetic → Decimal → Decimal → Option Decimal
  | .add, a, b => a.add? b
  | .subtract, a, b => a.sub? b
  | .multiply, a, b => a.mul? b
  | .divide, a, b => a.div? b

/-- Whether a number is zero. -/
def isZero : Value → Bool
  | .int n => n == 0
  | .bigint n => n == 0
  | .float x => x.isZero
  | .decimal d => d.isZero
  | _ => false

/-- The result on two values, neither of them null. -/
def onValues (op : Arithmetic) (a b : Value) : Except ValueFault Value :=
  if op = .divide && isZero b then .error .divisionByZero
  else
    match a, b with
    | .int a, .int b =>
      let n := op.onInts a b
      if Json.isInt64 n then .ok (.int n) else .error .integerOverflow
    | .float a, .float b =>
      let x := op.onFloats a b
      if x.isFinite then .ok (.float x) else .error .floatOverflow
    | .bigint a, .bigint b => .ok (.bigint (op.onInts a b))
    | .decimal a, .decimal b => (op.onDecimals a b).elim (.error .decimalOverflow) (.ok ∘ .decimal)
    | a, b => .error (.notCombinable a.typeName b.typeName)

/-- The result on two values. -/
def apply (op : Arithmetic) (a b : Value) : Except ValueFault Value :=
  if a.isNull || b.isNull then .ok .null else op.onValues a b

end Arithmetic

namespace Entity

/-- The error of a change that does not suit a field. -/
def unsuitedUpdate {α : Type} (e : Entity) (f : FieldDef) (operator : String) : Except Error α :=
  .error (.invalidQuery (.updateOnField operator f.kind f.list e.name f.name))

/-- The result of arithmetic on the value of a field. -/
def calculate (e : Entity) (f : FieldDef) (current : Value) (op : Arithmetic) (literal : Json) :
    Except Error Value := do
  if !f.kind.capabilities.arithmetic || f.list then e.unsuitedUpdate f "arithmetic"
  let operand ← e.coerceItem f literal
  (op.apply current operand).mapError (.invalidValue e.name f.name)

/-- The value of a list field with items added at its end; an array adds each of its items. -/
def push (e : Entity) (f : FieldDef) (current : Value) (literal : Json) : Except Error Value := do
  if !f.list then e.unsuitedUpdate f "push"
  let items ← (literal.array?.getD [literal]).mapM (e.coerceItem f)
  return .list (current.list?.getD [] ++ items)

/-- The value of a field after a change. -/
def change (e : Entity) (f : FieldDef) (current : Value) : UpdateOp → Except Error Value
  | .set literal => e.coerce f literal
  | .unset => .ok .null
  | .push literal => e.push f current literal
  | .increment literal => e.calculate f current .add literal
  | .decrement literal => e.calculate f current .subtract literal
  | .multiply literal => e.calculate f current .multiply literal
  | .divide literal => e.calculate f current .divide literal

end Entity

end RelationalStore

import RelationalStore.Schema.Entity

/- Literals of payloads as values of fields. A list field takes an array and coerces every item;
   null stays null. -/
namespace RelationalStore.Entity

/-- A literal as a value of the field's kind, whether the field is a list or not. -/
def coerceItem (e : Entity) (f : FieldDef) (literal : Json) : Except Error Value :=
  (f.kind.coerce literal).mapError fun cause => .invalidValue e.name f.name (.coercion cause)

/-- A literal as a value of the field. -/
def coerce (e : Entity) (f : FieldDef) (literal : Json) : Except Error Value :=
  if !f.list || literal.isNull then e.coerceItem f literal
  else
    match literal.array? with
    | none => .error (.invalidValue e.name f.name (.notList literal))
    | some items => do return .list (← items.mapM (e.coerceItem f))

end RelationalStore.Entity

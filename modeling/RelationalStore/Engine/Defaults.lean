import RelationalStore.Engine.Coercion
import RelationalStore.Engine.Operation

/- Complete rows. Creating a row fills every field that the write data leave out: with the default,
   with the empty list, or with null where the field may be null. Fields that are set to the current
   time by every write are stamped in creates and updates alike. -/
namespace RelationalStore.Operation

/-- The number after the greatest one of an int field. For a field that is the whole primary key
that is the number of the last key. -/
def nextIncrement (s : Schema) (e : Entity) (f : FieldDef) : Operation Value := do
  let t ← look s fun v => v.table e
  let last? :=
    if e.idFields = [f.name] then t.lastKey?.bind fun key => key.parts.head?.bind Value.int?
    else (t.toList.filterMap fun row => (row.value f.name).int?).max?
  let next := last?.getD 0 + 1
  if next < Json.intLimit then return .int next
  else throw (.invalidValue e.name f.name .incrementOverflow)

/-- Fails unless the field is a scalar of the kind that a generated default is for. -/
def requireKind (e : Entity) (f : FieldDef) (kind : ScalarKind) (call : String) :
    Operation Unit := do
  if f.kind ≠ kind || f.list then throw (.invalidValue e.name f.name (.generator call kind))

/-- The value of a default in a row that is created at a given time. -/
def generate (s : Schema) (e : Entity) (f : FieldDef) (time : DateTime) :
    DefaultValue → Operation Value
  | .autoIncrement => nextIncrement s e f
  | .uuid => do
    requireKind e f .string "uuid()"
    return .string (Supply.uuidText (← token))
  | .cuid => do
    requireKind e f .string "cuid()"
    return .string (Supply.cuidText (← token))
  | .now => do
    requireKind e f .datetime "now()"
    return .datetime time
  | .literal literal => MonadExcept.ofExcept (e.coerce f literal)

/-- The value of a field that has none yet. -/
def absent (s : Schema) (e : Entity) (f : FieldDef) (time : DateTime) : Operation Value := do
  if f.updatedAt then return .datetime time
  match f.default with
  | some d => generate s e f time d
  | none =>
    if f.list then return .list []
    else if f.required || f.id then throw (.missingRequiredField e.name f.name)
    else return .null

/-- The value of a field in a row that is created, given the one that was written, if any. A null
that was written stands only in a field that may be null and is not stamped. -/
def complete (s : Schema) (e : Entity) (f : FieldDef) (time : DateTime) (written : Option Value) :
    Operation Value := do
  match written with
  | none => absent s e f time
  | some value =>
    if !value.isNull then return value
    else if f.required || f.id then throw (.missingRequiredField e.name f.name)
    else if f.updatedAt then return .datetime time
    else return .null

/-- The row that is created from the values that were written. A value under a name that is no
field is an error. -/
def fillDefaults (s : Schema) (e : Entity) (written : Row) : Operation Row := do
  let time ← now
  let values ← e.fields.mapM fun f => do
    return (f.name, ← complete s e f time (written.get? f.name))
  match written.keys.find? fun name => (e.field? name).isNone with
  | some name => throw (.unknownField e.name name)
  | none => return .ofList values

/-- The row with the current time in every field that each write stamps. -/
def touch (e : Entity) (row : Row) : Operation Row := do
  let time ← now
  return (e.fields.filter (·.updatedAt)).foldl (fun row f => row.insert f.name (.datetime time)) row

end RelationalStore.Operation

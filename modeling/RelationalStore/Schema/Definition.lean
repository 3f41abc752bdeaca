import RelationalStore.Value.Kind
import RelationalStore.Json.Document

/- Entities as they are declared: fields, relations and unique groups, and the documents they are
   read from. `EntityDef.ofJson?` reads one document; nothing is checked here but its shape. -/
namespace RelationalStore

/-- The value of a field that a payload leaves out. -/
inductive DefaultValue where
  | autoIncrement
  | uuid
  | cuid
  | now
  | literal (value : Json)

namespace DefaultValue

/-- The call that a generated default is written as. -/
def call? : DefaultValue → Option String
  | .autoIncrement => some "autoincrement()"
  | .uuid => some "uuid()"
  | .cuid => some "cuid()"
  | .now => some "now()"
  | .literal _ => none

/-- Reads a default: the four calls generate a value, anything else is one. -/
def ofJson (j : Json) : DefaultValue :=
  match j with
  | .string "autoincrement()" => .autoIncrement
  | .string "uuid()" => .uuid
  | .string "cuid()" => .cuid
  | .string "now()" => .now
  | j => .literal j

/-- The default as it is declared. -/
def toJson : DefaultValue → Json
  | .literal j => j
  | d => .string (d.call?.getD "")

/-- Whether the value is made when a row is created. -/
def isGenerated : DefaultValue → Bool
  | .literal _ => false
  | _ => true

end DefaultValue

/-- A scalar field, or a list of scalars. -/
structure FieldDef where
  name : String
  kind : ScalarKind
  list : Bool := false
  /-- Part of the primary key. -/
  id : Bool := false
  unique : Bool := false
  /-- Never null. -/
  required : Bool := false
  default : Option DefaultValue := none
  /-- Set to the current time by every create and update. -/
  updatedAt : Bool := false

namespace FieldDef

/-- Whether a payload may leave the field out for another value than null. -/
def hasDefault (f : FieldDef) : Bool := f.default.isSome || f.updatedAt

end FieldDef

/-- What the deletion of a row does to the rows that reference it. -/
inductive OnDelete where
  /-- They are deleted too. -/
  | cascade
  /-- Their foreign key is cleared. -/
  | setNull
  /-- They prevent the deletion. -/
  | restrict
  /-- They are left as they are. -/
  | noAction
  deriving DecidableEq, Inhabited

namespace OnDelete

def name : OnDelete → String
  | .cascade => "cascade"
  | .setNull => "set_null"
  | .restrict => "restrict"
  | .noAction => "no_action"

def ofName? (name : String) : Option OnDelete :=
  [cascade, setNull, restrict, noAction].find? (·.name == name)

end OnDelete

/-- A relation as declared. The owning side lists the fields of its foreign key and the fields
they reference; the other side lists none. -/
structure RelationDef where
  name : String
  target : String
  toMany : Bool
  fields : List String := []
  references : List String := []
  onDelete : OnDelete := .noAction
  /-- The relation on the other side, where more than one joins the two entities. -/
  opposite : Option String := none

namespace RelationDef

def isOwning (r : RelationDef) : Bool := !r.fields.isEmpty

/-- The owning side of a relation. -/
def owning (name target : String) (fields references : List String) : RelationDef :=
  { name, target, toMany := false, fields, references }

/-- The referenced side of a one-to-one relation. -/
def one (name target : String) : RelationDef := { name, target, toMany := false }

/-- The referenced side of a one-to-many relation. -/
def many (name target : String) : RelationDef := { name, target, toMany := true }

end RelationDef

/-- An entity as declared. -/
structure EntityDef where
  name : String
  fields : List FieldDef := []
  relations : List RelationDef := []
  /-- Groups of fields whose values together are unique. -/
  uniqueGroups : List (List String) := []

namespace EntityDef

def addField (e : EntityDef) (f : FieldDef) : EntityDef := { e with fields := e.fields ++ [f] }

def addRelation (e : EntityDef) (r : RelationDef) : EntityDef :=
  { e with relations := e.relations ++ [r] }

def addUnique (e : EntityDef) (fields : List String) : EntityDef :=
  { e with uniqueGroups := e.uniqueGroups ++ [fields] }

/-- The fields of the primary key, in the order of their declaration. -/
def idFields (e : EntityDef) : List String := (e.fields.filter (·.id)).map (·.name)

def hasField (e : EntityDef) (name : String) : Bool := e.fields.any (·.name == name)

end EntityDef

/-! ### Documents -/

namespace FieldDef

/-- The members of a field's document. -/
def members : List String :=
  ["name", "type", "list", "id", "unique", "required", "default", "updated_at"]

def ofJson? (r : Reading) (j : Json) : Option FieldDef := do
  let j ← r.part? members j
  let name ← j.required? "name" r.text?
  let kind ← j.required? "type" fun k => (r.word? k).bind ScalarKind.ofName?
  let list ← j.optional? "list" Json.bool? false
  let id ← j.optional? "id" Json.bool? false
  let unique ← j.optional? "unique" Json.bool? false
  let required ← j.optional? "required" Json.bool? false
  let default ← j.nullable? "default" fun d => some (DefaultValue.ofJson d)
  let updatedAt ← j.optional? "updated_at" Json.bool? false
  return { name, kind, list, id, unique, required, default, updatedAt }

end FieldDef

namespace RelationDef

/-- The members of a relation's document. -/
def members : List String :=
  ["name", "target", "kind", "fields", "references", "on_delete", "opposite"]

/-- Whether a word for a relation's kind says that it is to many records. -/
def toManyOf? : String → Option Bool
  | "one" => some false
  | "many" => some true
  | _ => none

def ofJson? (r : Reading) (j : Json) : Option RelationDef := do
  let j ← r.part? members j
  let name ← j.required? "name" r.text?
  let target ← j.required? "target" r.text?
  let toMany ← j.required? "kind" fun k => (r.word? k).bind toManyOf?
  let fields ← j.optional? "fields" r.texts? []
  let references ← j.optional? "references" r.texts? []
  let onDelete ← j.optional? "on_delete" (fun a => (r.word? a).bind OnDelete.ofName?) .noAction
  let opposite ← j.nullable? "opposite" r.text?
  return { name, target, toMany, fields, references, onDelete, opposite }

end RelationDef

namespace EntityDef

/-- The members of an entity's document. -/
def members : List String := ["name", "fields", "relations", "unique"]

def ofJson? (r : Reading) (j : Json) : Option EntityDef := do
  let j ← r.part? members j
  let name ← j.required? "name" r.text?
  let fields ← j.optional? "fields" (·.arrayOf? (FieldDef.ofJson? r)) []
  let relations ← j.optional? "relations" (·.arrayOf? (RelationDef.ofJson? r)) []
  let uniqueGroups ← j.optional? "unique" (·.arrayOf? r.texts?) []
  return { name, fields, relations, uniqueGroups }

/-- Reads an array of entities. -/
def listOfJson? (r : Reading) (j : Json) : Option (List EntityDef) := j.arrayOf? (ofJson? r)

end EntityDef

end RelationalStore

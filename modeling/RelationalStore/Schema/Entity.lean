import RelationalStore.Schema.Definition
import RelationalStore.Table.Definition
import RelationalStore.Error

/- Entities with their relations resolved. A relation spells out both sides of its key equality: the
   related rows of a row are the rows of the target whose `far` fields equal the row's `near`
   fields, whichever side holds the foreign key. -/
namespace RelationalStore

/-- Where the foreign key is, and how many rows are on the other side. -/
inductive Cardinality where
  /-- This entity holds the key. -/
  | oneOwning
  /-- The target holds the key, in one row at most. -/
  | oneReferenced
  /-- The target holds the key. -/
  | many
  deriving DecidableEq, Inhabited

structure Relation where
  name : String
  target : String
  cardinality : Cardinality
  near : List String
  far : List String
  onDelete : OnDelete
  deriving DecidableEq

namespace Relation

def isOwning (r : Relation) : Bool := r.cardinality == .oneOwning

def isToMany (r : Relation) : Bool := r.cardinality == .many

end Relation

/-- An owning relation, seen from the entity that it references. -/
structure Dependent where
  entity : String
  relation : String
  fields : List String
  references : List String
  onDelete : OnDelete
  /-- Whether every field of the key may be null. -/
  nullable : Bool
  deriving DecidableEq

structure Entity where
  name : String
  fields : List FieldDef
  relations : List Relation
  /-- The primary key, in the order of declaration. -/
  idFields : List String
  /-- The unique groups besides the primary key. -/
  uniqueGroups : List (List String)
  dependents : List Dependent

namespace Entity

def field? (e : Entity) (name : String) : Option FieldDef := e.fields.find? (·.name == name)

def relation? (e : Entity) (name : String) : Option Relation := e.relations.find? (·.name == name)

/-- The field of that name, or the error that there is none. -/
def requireField (e : Entity) (name : String) : Except Error FieldDef :=
  (e.field? name).elim (.error (.unknownField e.name name)) .ok

/-- The relation of that name, or the error that there is none. -/
def requireRelation (e : Entity) (name : String) : Except Error Relation :=
  (e.relation? name).elim (.error (.unknownField e.name name)) .ok

/-- The groups of fields that select at most one row: the primary key first. -/
def uniqueSelectors (e : Entity) : List (List String) := e.idFields :: e.uniqueGroups

/-- The name of a group of fields taken together. -/
def compoundName (fields : List String) : String := "_".intercalate fields

/-- The unique group of several fields with the given compound name. -/
def compound? (e : Entity) (name : String) : Option (List String) :=
  (e.uniqueSelectors.filter fun group => 1 < group.length).find? (compoundName · == name)

/-- Whether every field of the primary key is generated when it is left out. -/
def keyIsGenerated (e : Entity) : Bool :=
  (e.idFields.filterMap e.field?).all fun f => f.default.any DefaultValue.isGenerated

/-- The primary key of a row. -/
def keyOf (e : Entity) (row : Row) : Key := Key.ofRow e.idFields row

def owningRelations (e : Entity) : List Relation := e.relations.filter Relation.isOwning

/-- Adds the index over a foreign key, unless the primary key or an index covers its fields. -/
def addKeyIndex (idFields : List String) (indexes : List IndexDef) (r : Relation) :
    List IndexDef :=
  if r.near = idFields ∨ indexes.any (fun i => i.fields == r.near) then indexes
  else indexes ++ [⟨IndexDef.nameOf r.near, r.near, false⟩]

/-- The table of an entity: an index for each unique group, then one for each foreign key. -/
def tableDef (e : Entity) : TableDef :=
  let unique := e.uniqueGroups.map fun fields => ⟨IndexDef.nameOf fields, fields, true⟩
  { name := e.name, keyPath := e.idFields,
    indexes := e.owningRelations.foldl (addKeyIndex e.idFields) unique }

end Entity

/-- The entities of an application, by name. -/
structure Schema where
  entities : SortedMap String Entity

namespace Schema

def entity? (s : Schema) (name : String) : Option Entity := s.entities.get? name

/-- The entity of that name, or the error that there is none. -/
def require (s : Schema) (name : String) : Except Error Entity :=
  (s.entity? name).elim (.error (.unknownEntity name)) .ok

end Schema

end RelationalStore

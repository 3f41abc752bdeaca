import RelationalStore.Schema.Entity

/- Making a schema of entity definitions. `Schema.ofDefs` checks each entity on its own, resolves
   its relations against the other definitions, and collects for each entity the owning relations
   that reference it. The first fault in the order of declaration is reported. -/
namespace RelationalStore

namespace EntityDef

def fault {α : Type} (e : EntityDef) (f : SchemaFault) : Except Error α := .error (.schema e.name f)

/-- Fails with the fault if the condition holds. -/
def refuseIf (e : EntityDef) (condition : Bool) (f : SchemaFault) : Except Error Unit :=
  if condition then e.fault f else .ok ()

def checkName (check : Except IdentifierFault Unit) : Except Error Unit :=
  check.mapError .identifier

/-- A declared default is a value of the field's kind, or a list of such values. -/
def checkDefault (e : EntityDef) (f : FieldDef) : Except Error Unit :=
  match f.default with
  | some (.literal j) =>
    let check (j : Json) : Except Error Unit :=
      match f.kind.coerce j with
      | .ok _ => .ok ()
      | .error cause => e.fault (.defaultValue f.name cause)
    if f.list then
      match j.array? with
      | some items => items.forM check
      | none => e.fault (.defaultNotList f.name)
    else check j
  | _ => .ok ()

def isAutoIncrement (f : FieldDef) : Bool :=
  match f.default with
  | some .autoIncrement => true
  | _ => false

/-- Checks the fields in order; `names` are those seen before. -/
def checkFields (e : EntityDef) (names : List String) : List FieldDef → Except Error Unit
  | [] => .ok ()
  | f :: rest => do
    checkName (Identifier.checkField f.name)
    e.refuseIf (names.contains f.name) (.duplicateField f.name)
    e.refuseIf (f.id && f.list) (.listAsId f.name)
    e.refuseIf (isAutoIncrement f && f.kind != .int) (.incrementKind f.name f.kind)
    e.checkDefault f
    e.checkFields (f.name :: names) rest

/-- Checks the names of the relations in order; `names` are those seen before. -/
def checkRelationNames (e : EntityDef) (names : List String) : List RelationDef → Except Error Unit
  | [] => .ok ()
  | r :: rest => do
    checkName (Identifier.checkField r.name)
    e.refuseIf (names.contains r.name) (.duplicateField r.name)
    e.checkRelationNames (r.name :: names) rest

def memberNames (e : EntityDef) : List String := e.fields.map (·.name) ++ e.relations.map (·.name)

/-- The unique fields, except for a field that is the whole primary key. -/
def fieldGroups (e : EntityDef) : List (List String) :=
  (e.fields.filter fun f => f.unique && !(f.id && e.idFields.length == 1)).map fun f => [f.name]

/-- Adds the declared groups to those found so far, each once. -/
def addGroups (e : EntityDef) (groups : List (List String)) :
    List (List String) → Except Error (List (List String))
  | [] => .ok groups
  | group :: rest =>
    match group.find? fun f => !e.memberNames.contains f with
    | some unknown => e.fault (.groupField unknown)
    | none => e.addGroups (if groups.contains group then groups else groups ++ [group]) rest

/-- Whether the fields select at most one row: the primary key, a unique field, or a group. -/
def isUniqueSelector (e : EntityDef) (fields : List String) : Bool :=
  e.idFields == fields ||
    (match fields with
      | [single] =>
        e.fields.any fun f => f.name == single && (f.unique || (f.id && e.idFields.length == 1))
      | _ => false) ||
    e.uniqueGroups.contains fields

/-- The owning relation of `e`, with both sides of its key. -/
def resolveOwning (e target : EntityDef) (r : RelationDef) : Except Error Relation := do
  e.refuseIf r.toMany (.manyOwnsKey r.name)
  e.refuseIf (r.fields.length != r.references.length)
    (.keyLengths r.name r.fields.length r.references.length)
  match r.fields.find? fun f => !e.hasField f with
  | some missing => e.fault (.keyField r.name missing)
  | none => .ok ()
  match r.references.find? fun f => !target.hasField f with
  | some missing => e.fault (.referencedField r.name r.target missing)
  | none => .ok ()
  e.refuseIf (!target.isUniqueSelector r.references) (.referenceNotUnique r.name r.target)
  return ⟨r.name, r.target, .oneOwning, r.fields, r.references, r.onDelete⟩

/-- The owning relations of the target that a relation of `e` can be the other side of. -/
def owners (e target : EntityDef) (r : RelationDef) : List RelationDef :=
  target.relations.filter fun o =>
    o.target == e.name && o.isOwning && r.opposite.all (o.name == ·) &&
      (e.name != target.name || o.name != r.name)

/-- A relation without key of its own takes that of its one owner. -/
def resolveReferenced (e target : EntityDef) (r : RelationDef) : Except Error Relation :=
  match e.owners target r with
  | [owner] =>
    .ok ⟨r.name, r.target, if r.toMany then .many else .oneReferenced, owner.references,
      owner.fields, .noAction⟩
  | [] => e.fault (.withoutOwner r.name r.target)
  | _ => e.fault (.ambiguousOwner r.name)

def resolveRelation (all : List EntityDef) (e : EntityDef) (r : RelationDef) :
    Except Error Relation :=
  match all.find? (·.name == r.target) with
  | none => e.fault (.unknownTarget r.name r.target)
  | some target =>
    if r.isOwning then e.resolveOwning target r else e.resolveReferenced target r

/-- The entity of a definition, without its dependents. -/
def resolve (all : List EntityDef) (e : EntityDef) : Except Error Entity := do
  checkName (Identifier.checkEntity e.name)
  e.checkFields [] e.fields
  e.checkRelationNames (e.fields.map (·.name)).reverse e.relations
  e.refuseIf e.idFields.isEmpty .withoutId
  let uniqueGroups ← e.addGroups e.fieldGroups e.uniqueGroups
  let relations ← e.relations.mapM (e.resolveRelation all)
  return { name := e.name, fields := e.fields, relations, idFields := e.idFields, uniqueGroups,
           dependents := [] }

end EntityDef

namespace Entity

/-- Whether every field of a foreign key may be null. -/
def mayBeNull (e : Entity) (fields : List String) : Bool :=
  (fields.filterMap e.field?).all fun f => !f.required && !f.id

/-- An owning relation as the entity that it references sees it. -/
def dependentOf (e : Entity) (r : Relation) : Dependent :=
  { entity := e.name, relation := r.name, fields := r.near, references := r.far,
    onDelete := r.onDelete, nullable := e.mayBeNull r.near }

/-- The owning relations of some entities that reference `target`, in their order. -/
def dependentsOn (entities : List Entity) (target : String) : List Dependent :=
  entities.flatMap fun e =>
    (e.owningRelations.filter (·.target == target)).map e.dependentOf

/-- The entity with its dependents; keys that a deletion clears must be clearable. -/
def withDependents (entities : List Entity) (e : Entity) : Except Error Entity :=
  let dependents := dependentsOn entities e.name
  match dependents.find? fun d => d.onDelete == .setNull && !d.nullable with
  | some d => .error (.schema d.entity (.setNullOnRequired d.relation))
  | none => .ok { e with dependents }

end Entity

namespace Schema

/-- The schema of some definitions. -/
def ofDefs (defs : List EntityDef) : Except Error Schema := do
  if !(decide (defs.map (·.name)).Nodup) then
    throw (.schema "<schema>" .duplicateEntity)
  let resolved ← defs.mapM (EntityDef.resolve defs)
  let byName := SortedMap.ofList (resolved.map fun e => (e.name, e))
  let entities ← byName.values.mapM (Entity.withDependents byName.values)
  return ⟨SortedMap.ofList (entities.map fun e => (e.name, e))⟩

/-- The schema of a document: an array of definitions. -/
def ofJson (j : Json) : Except Error Schema :=
  match j.document? (EntityDef.listOfJson? .loose) with
  | some defs => ofDefs defs
  | none => .error (.storage .malformedDocument)

/-- Whether a file holds a definition, by its extension. -/
def isDefinitionFile (name : String) : Bool :=
  let parts := name.splitOn "."
  1 < parts.length && parts.getLast?.any (fun e => e == "yaml" || e == "yml") &&
    parts.dropLast != [""]

/-- The schema of a directory, one definition in each file, read in the order of their names. -/
def ofFiles (files : List (String × Json)) : Except Error Schema :=
  let definitions := (SortedMap.ofList (files.filter fun f => isDefinitionFile f.1)).values
  match definitions.mapM (·.document? (EntityDef.ofJson? .loose)) with
  | some defs => ofDefs defs
  | none => .error (.storage .malformedDocument)

end Schema

end RelationalStore

import RelationalStore.Identifier
import RelationalStore.Query.Payload
import RelationalStore.Value.Kind

/- What can go wrong, as causes. Each layer has its own type of fault; `Error` joins them. The
   wording of every message is in this module alone, with the advice that goes with it and whether a
   corrected request can succeed. -/
namespace RelationalStore

/-- Why a value cannot stand in a field. -/
inductive ValueFault where
  | coercion (cause : CoercionError)
  | notList (literal : Json)
  | generator (call : String) (kind : ScalarKind)
  | incrementOverflow
  | divisionByZero
  | integerOverflow
  | floatOverflow
  | decimalOverflow
  | notCombinable (left right : String)
  | keyRequired (relation : String)
  | nullKey

/-- Why a query makes no sense for the entity it names. -/
inductive QueryFault where
  | compoundNotObject (name : String)
  | nestedOnScalar (entity field : String)
  | operatorOnField (operator : String) (kind : ScalarKind) (list : Bool) (entity field : String)
  | conditionOnRelation (what : String) (toMany : Bool) (entity relation : String)
  | orderByList (entity field : String)
  | orderByCountOfOne (entity relation : String)
  | orderByMany (entity relation : String)
  | batchWithoutData
  | batchWithRelations
  | updateManyWithRelations
  | withoutSelector (entity : String)
  | dataNotSingle
  | withoutData
  | selectAndInclude
  | countNotSelection
  | nestedInScalar (entity field : String)
  | countOfOne (entity relation : String)
  | operatorInCreate (entity field : String)
  | ownerOperation (entity relation : String)
  | parentNotSingle (relation : String)
  | childNotSingle (entity relation : String)
  | disconnectShape (toMany : Bool) (entity relation : String)
  | createManyOfOne (entity relation : String)
  | updateOnField (operator : String) (kind : ScalarKind) (list : Bool) (entity field : String)
  | relationWriteOnScalar (entity field : String)
  | scalarWriteOnRelation (entity relation : String)
  | selectorNotUnique (entity : String)

/-- Why entity definitions do not make a schema. -/
inductive SchemaFault where
  | duplicateEntity
  | duplicateField (field : String)
  | listAsId (field : String)
  | incrementKind (field : String) (kind : ScalarKind)
  | defaultNotList (field : String)
  | defaultValue (field : String) (cause : CoercionError)
  | withoutId
  | groupField (field : String)
  | unknownTarget (relation target : String)
  | manyOwnsKey (relation : String)
  | keyLengths (relation : String) (fields references : Nat)
  | keyField (relation field : String)
  | referencedField (relation target field : String)
  | referenceNotUnique (relation target : String)
  | withoutOwner (relation target : String)
  | ambiguousOwner (relation : String)
  | setNullOnRequired (relation : String)

/-- Why documents or directories cannot be used. -/
inductive StorageFault where
  | malformedDocument
  | unreadable
  | unwritable
  | newerVersion (store : String) (found requested : Nat)

/-- Why an operation fails. -/
inductive Error where
  | recordNotFound (entity : String)
  | relatedRecordNotFound (entity relation : String)
  | foreignKeyViolation (entity field target : String)
  | missingRequiredField (entity field : String)
  | uniqueViolation (entity : String) (fields : List String)
  | restrictViolation (entity dependent relation : String)
  | invalidValue (entity field : String) (fault : ValueFault)
  | immutablePrimaryKey (entity field : String)
  | unsupportedOperation (operation entity relation : String)
  | tableNotInScope (table : String)
  | readOnlyTransaction (table : String)
  | transactionInactive
  | tableNotFound (name : String)
  | indexNotFound (table index : String)
  | storage (fault : StorageFault)
  | unknownEntity (name : String)
  | unknownField (entity field : String)
  | invalidQuery (fault : QueryFault)
  | parse (cause : PayloadError)
  | schema (entity : String) (fault : SchemaFault)
  | identifier (fault : IdentifierFault)
  /-- A lock on the table is held by an open transaction. -/
  | wouldBlock (table : String)

namespace ValueFault

def message : ValueFault → String
  | .coercion cause => cause.message
  | .notList literal => s!"expected a list, got {literal.compact}"
  | .generator call kind => s!"{call} needs a {kind.name} field"
  | .incrementOverflow => "autoincrement overflow"
  | .divisionByZero => "division by zero"
  | .integerOverflow => "integer overflow"
  | .floatOverflow => "float overflow"
  | .decimalOverflow => "decimal overflow"
  | .notCombinable left right => s!"cannot combine {left} with {right}"
  | .keyRequired relation => s!"cannot disconnect '{relation}': the foreign key is required"
  | .nullKey => "primary key cannot be null"

end ValueFault

namespace QueryFault

/-- The kind of a field in a message. -/
def kindText (kind : ScalarKind) (list : Bool) : String :=
  if list then kind.name ++ " list" else kind.name

/-- The side of a relation in a message. -/
def sideText (toMany : Bool) : String := if toMany then "to-many" else "to-one"

def message : QueryFault → String
  | .compoundNotObject name => s!"'{name}' expects an object of its fields"
  | .nestedOnScalar entity field =>
    s!"'{entity}.{field}' is a scalar field; use equals for object values"
  | .operatorOnField operator kind list entity field =>
    s!"operator '{operator}' is not supported on {kindText kind list} field '{entity}.{field}'"
  | .conditionOnRelation what toMany entity relation =>
    s!"{what} is not valid on {sideText toMany} relation '{entity}.{relation}'"
  | .orderByList entity field => s!"cannot order by list field '{entity}.{field}'"
  | .orderByCountOfOne entity relation =>
    s!"_count ordering needs a to-many relation, '{entity}.{relation}' is to-one"
  | .orderByMany entity relation =>
    s!"to-many relation '{entity}.{relation}' can only be ordered by _count"
  | .batchWithoutData => "createMany requires 'data'"
  | .batchWithRelations => "createMany does not accept nested relation writes"
  | .updateManyWithRelations => "updateMany does not accept nested relation writes"
  | .withoutSelector entity => s!"'{entity}' needs a unique 'where' selector"
  | .dataNotSingle => "expected a single 'data' object"
  | .withoutData => "missing 'data'"
  | .selectAndInclude => "'select' and 'include' cannot be used together"
  | .countNotSelection => "'_count' expects true or \x7b select \x7d"
  | .nestedInScalar entity field => s!"'{entity}.{field}' is a scalar field"
  | .countOfOne entity relation =>
    s!"'_count' needs a to-many relation, '{entity}.{relation}' is to-one"
  | .operatorInCreate entity field =>
    s!"'{entity}.{field}': only a value or 'set' is valid in create"
  | .ownerOperation entity relation =>
    s!"'{entity}.{relation}' accepts only create or connect here"
  | .parentNotSingle relation =>
    s!"to-one relation '{relation}' takes exactly one create or connect"
  | .childNotSingle entity relation =>
    s!"to-one relation '{entity}.{relation}' takes a single create or connect"
  | .disconnectShape true entity relation =>
    s!"disconnect on '{entity}.{relation}' takes a list of selectors"
  | .disconnectShape false entity relation =>
    s!"disconnect on '{entity}.{relation}' takes true"
  | .createManyOfOne entity relation =>
    s!"createMany needs a to-many relation, '{entity}.{relation}' is to-one"
  | .updateOnField operator kind list entity field =>
    s!"'{operator}' is not supported on {kindText kind list} field '{entity}.{field}'"
  | .relationWriteOnScalar entity field =>
    s!"'{entity}.{field}' is a scalar field, not a relation"
  | .scalarWriteOnRelation entity relation =>
    s!"relation '{entity}.{relation}' expects create, connect, createMany or disconnect"
  | .selectorNotUnique entity =>
    s!"a unique selector on '{entity}' must give the id or a unique field"

end QueryFault

namespace SchemaFault

def message : SchemaFault → String
  | .duplicateEntity => "entity names must be unique"
  | .duplicateField field => s!"duplicate field '{field}'"
  | .listAsId field => s!"id field '{field}' cannot be a list"
  | .incrementKind field kind =>
    s!"autoincrement() requires an int field, '{field}' is {kind.name}"
  | .defaultNotList field => s!"default of '{field}': expected a list"
  | .defaultValue field cause => s!"default of '{field}': {cause.message}"
  | .withoutId => "entity has no id field"
  | .groupField field => s!"unique group names unknown field '{field}'"
  | .unknownTarget relation target =>
    s!"relation '{relation}' targets unknown entity '{target}'"
  | .manyOwnsKey relation => s!"to-many relation '{relation}' cannot own a key"
  | .keyLengths relation fields references =>
    s!"relation '{relation}' has {fields} fields but {references} references"
  | .keyField relation field => s!"relation '{relation}' names unknown field '{field}'"
  | .referencedField relation target field =>
    s!"relation '{relation}' references unknown field '{target}.{field}'"
  | .referenceNotUnique relation target =>
    s!"relation '{relation}' must reference the id or a unique field of '{target}'"
  | .withoutOwner relation target => s!"relation '{relation}' has no owning side on '{target}'"
  | .ambiguousOwner relation => s!"relation '{relation}' is ambiguous; set 'opposite'"
  | .setNullOnRequired relation => s!"relation '{relation}' uses set_null on required fields"

end SchemaFault

namespace StorageFault

/-- The message of a fault that has a wording of its own. -/
def message? : StorageFault → Option String
  | .newerVersion store found requested =>
    some s!"store '{store}' is at version {found}, newer than requested version {requested}"
  | .malformedDocument => none
  | .unreadable => none
  | .unwritable => none

end StorageFault

namespace Error

/-- The message of an error; some storage faults and a lock that is held have no wording of their
own. -/
def message? : Error → Option String
  | .recordNotFound entity => some s!"No '{entity}' record matches the given selector"
  | .relatedRecordNotFound entity relation =>
    some s!"No '{entity}' record found to connect through relation '{relation}'"
  | .foreignKeyViolation entity field target =>
    some s!"Foreign key '{field}' on '{entity}' references a missing '{target}' record"
  | .missingRequiredField entity field => some s!"Missing required field '{field}' on '{entity}'"
  | .uniqueViolation entity fields =>
    some (s!"Unique constraint on '{entity}' (" ++ ", ".intercalate fields ++ ") violated")
  | .restrictViolation entity dependent relation =>
    some (s!"Cannot delete '{entity}' record: '{dependent}' records still reference it " ++
      s!"through '{relation}'")
  | .invalidValue entity field fault =>
    some s!"Invalid value for '{entity}.{field}': {fault.message}"
  | .immutablePrimaryKey entity field =>
    some s!"Primary key field '{field}' of '{entity}' cannot be changed"
  | .unsupportedOperation operation entity relation =>
    some s!"'{operation}' is not supported (relation '{relation}' on '{entity}')"
  | .tableNotInScope table => some s!"Table '{table}' is not part of this transaction"
  | .readOnlyTransaction table => some s!"Cannot write to '{table}' in a readonly transaction"
  | .transactionInactive => some "Transaction is no longer active"
  | .tableNotFound name => some s!"Table '{name}' does not exist"
  | .indexNotFound table index => some s!"Index '{index}' does not exist on table '{table}'"
  | .storage fault => fault.message?.map ("Storage error: " ++ ·)
  | .unknownEntity name => some s!"Unknown entity '{name}'"
  | .unknownField entity field => some s!"Unknown field '{field}' on '{entity}'"
  | .invalidQuery fault => some s!"Invalid query: {fault.message}"
  | .parse cause => some cause.message
  | .schema entity fault => some s!"Schema error in '{entity}': {fault.message}"
  | .identifier fault =>
    match fault with
    | .empty => some "Invalid identifier '': cannot be empty"
    | .tooLong name => some s!"Invalid identifier '{name}': exceeds maximum length"
    | .reserved name => some s!"Reserved name '{name}' cannot be used"
    | .badStart _ => some fault.detail
    | .badCharacter _ => some fault.detail
  | .wouldBlock _ => none

/-- Advice on how to mend the request. -/
def suggestion? : Error → Option String
  | .recordNotFound _ =>
    some "Check the selector; use the non-throwing variant to get None instead"
  | .relatedRecordNotFound .. =>
    some "Create the related record first, or use a nested \x60create\x60"
  | .foreignKeyViolation .. =>
    some "Point the foreign key at an existing record, or connect through the relation"
  | .missingRequiredField .. =>
    some "Add the required field to \x60data\x60 or declare a default for it"
  | .restrictViolation .. => some "Delete or reassign the dependent records first"
  | .immutablePrimaryKey .. => some "Create a new record instead of changing the primary key"
  | .unsupportedOperation .. => some "Use \x60connect\x60 or \x60create\x60 explicitly"
  | .tableNotInScope _ =>
    some ("Open the transaction over every table the operation touches, " ++
      "including related entities")
  | .readOnlyTransaction _ => some "Open the transaction in readwrite mode"
  | .identifier (.reserved _) => none
  | .identifier _ => some "Use only letters, numbers and underscores, starting with a letter"
  | _ => none

/-- Whether a corrected request can succeed. -/
def isRecoverable : Error → Bool
  | .recordNotFound _ => true
  | .relatedRecordNotFound .. => true
  | .foreignKeyViolation .. => true
  | .missingRequiredField .. => true
  | .uniqueViolation .. => true
  | .restrictViolation .. => true
  | .invalidValue .. => true
  | .unknownField .. => true
  | .invalidQuery _ => true
  | .parse _ => true
  | _ => false

end Error

end RelationalStore

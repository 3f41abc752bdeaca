import RelationalStore.Query.Syntax
import RelationalStore.Json.Parser

/- Reading query payloads from JSON. An object is classified by its keys alone: all of them relation
   operators, all of them field operators, or a nested filter. Members are read in the order in
   which they are written, and the first fault is reported with its path. -/
namespace RelationalStore

/-- One step down into a JSON value. -/
inductive PathStep where
  | key (name : String)
  | index (position : Nat)
  deriving DecidableEq

/-- A position in a payload, from the outside in. -/
abbrev Path := List PathStep

namespace Path

def key (p : Path) (name : String) : Path := p ++ [.key name]

def index (p : Path) (position : Nat) : Path := p ++ [.index position]

/-- Keys are joined by points, positions stand in brackets. -/
def renderFrom (shown : String) : Path → String
  | [] => shown
  | .key name :: rest => renderFrom (if shown.isEmpty then name else shown ++ "." ++ name) rest
  | .index position :: rest => renderFrom (shown ++ s!"[{position}]") rest

def render (p : Path) : String :=
  match p with
  | [] => "<root>"
  | p => renderFrom "" p

end Path

/-- What is wrong with a payload. -/
inductive PayloadFault where
  | invalidJson
  | queryNotObject
  | unknownQueryKey (key : String)
  | notObject
  | notArray
  | notString
  | notFieldNames
  | notBoolean
  | notNatural
  | badMode
  | badNulls (text : String)
  | badOrder
  | badDirection
  | badSelection
  | countWithoutSelect
  | badCountEntry
  | badCount
  | createManyWithoutData
  /-- A reader met a key, or missed one, against what was known of the keys before. No payload has
  this fault. -/
  | ruledOut

/-- A fault and where it is; text that is not JSON has no positions, and neither has what is no
fault of the payload. -/
structure PayloadError where
  fault : PayloadFault
  path : Option Path

namespace Query

/-- The keys of a payload. -/
def payloadKeys : List String :=
  ["where", "orderBy", "select", "include", "take", "skip", "distinct", "data", "skipDuplicates"]

/-- The operators on scalar and list fields. -/
def fieldOperators : List String :=
  ["equals", "not", "in", "notIn", "lt", "lte", "gt", "gte", "contains", "startsWith", "endsWith",
    "mode", "has", "hasEvery", "hasSome", "isEmpty"]

/-- The operators on relations. -/
def relationOperators : List String := ["is", "isNot", "every", "some", "none"]

/-- The operations on the rows behind a relation. -/
def nestedOperators : List String :=
  ["create", "connect", "connectOrCreate", "createMany", "disconnect"]

/-- The operations on the value of a field. -/
def updateOperators : List String :=
  ["set", "increment", "decrement", "multiply", "divide", "push", "unset"]

end Query

namespace PayloadFault

def message : PayloadFault → String
  | .invalidJson => "invalid JSON"
  | .queryNotObject => "query must be an object"
  | .unknownQueryKey key =>
    s!"unknown query key '{key}' (expected one of " ++ ", ".intercalate Query.payloadKeys ++ ")"
  | .notObject => "expected an object"
  | .notArray => "expected an array"
  | .notString => "expected a string"
  | .notFieldNames => "expected a field name or an array of field names"
  | .notBoolean => "expected a boolean"
  | .notNatural => "expected a non-negative integer"
  | .badMode => "mode must be 'default' or 'insensitive'"
  | .badNulls text => s!"nulls must be 'first' or 'last', got '{text}'"
  | .badOrder => "order direction must be 'asc', 'desc' or an object"
  | .badDirection => "sort order must be 'asc' or 'desc'"
  | .badSelection => "selection must be a boolean or an object"
  | .countWithoutSelect => "_count object requires 'select'"
  | .badCountEntry => "count selection must be a boolean or an object"
  | .badCount => "_count must be true or an object"
  | .createManyWithoutData => "createMany requires 'data'"
  | .ruledOut => "keys ruled out before"

end PayloadFault

namespace PayloadError

/-- The fault followed by its place. -/
def message (e : PayloadError) : String :=
  "Parse error: " ++ e.fault.message ++ (e.path.elim "" fun p => " at " ++ p.render)

end PayloadError

namespace Payload

/-- A reading of a part of a payload. -/
abbrev Reading (α : Type) := Except PayloadError α

/-- Reports a fault at a position. -/
def refuse {α : Type} (fault : PayloadFault) (path : Path) : Reading α := .error ⟨fault, some path⟩

/-- Stands where the keys that were looked at before leave no case. -/
def ruledOut {α : Type} : Reading α := .error ⟨.ruledOut, none⟩

/-- The value, or a fault at its position. -/
def require {α : Type} (fault : PayloadFault) (path : Path) (value : Option α) : Reading α :=
  value.elim (refuse fault path) .ok

def array (path : Path) (j : Json) : Reading (List Json) := require .notArray path j.array?

def string (path : Path) (j : Json) : Reading String := require .notString path j.string?

def boolean (path : Path) (j : Json) : Reading Bool := require .notBoolean path j.bool?

def natural (path : Path) (j : Json) : Reading Nat := require .notNatural path j.natural?

/-- One field name or an array of them. -/
def fieldNames (path : Path) : Json → Reading (List String)
  | .string s => .ok [s]
  | .array items => items.mapM (string path)
  | _ => refuse .notFieldNames path

/-- Whether an object has a member called `name`. -/
def hasKey (members : List (String × Json)) (name : String) : Bool :=
  (Json.memberOf? members name).isSome

/-- The member called `name` of an object that is known to have one. -/
def member (members : List (String × Json)) (name : String) : Reading Json :=
  (Json.memberOf? members name).elim ruledOut .ok

/-- Whether all keys are among the given ones. -/
def keysWithin (members : List (String × Json)) (keys : List String) : Bool :=
  members.all fun m => keys.contains m.1

/-! ### Filters -/

def textMode (path : Path) (j : Json) : Reading TextMode :=
  match j.string? with
  | some "insensitive" => .ok .insensitive
  | some "default" => .ok .sensitive
  | _ => refuse .badMode path

mutual

/-- The operators of a field test, added to those read so far. -/
def scalarTest (path : Path) (acc : ScalarTest) : List (String × Json) → Reading ScalarTest
  | [] => .ok acc
  | (key, value) :: rest => do
    let here := path.key key
    let acc ←
      match key with
      | "equals" => pure { acc with equals := some value }
      | "not" => do
        let negated ← negation here value
        pure { acc with not := some negated }
      | "in" => do pure { acc with isIn := some (← array here value) }
      | "notIn" => do pure { acc with notIn := some (← array here value) }
      | "lt" => pure { acc with lt := some value }
      | "lte" => pure { acc with lte := some value }
      | "gt" => pure { acc with gt := some value }
      | "gte" => pure { acc with gte := some value }
      | "contains" => do pure { acc with contains := some (← string here value) }
      | "startsWith" => do pure { acc with startsWith := some (← string here value) }
      | "endsWith" => do pure { acc with endsWith := some (← string here value) }
      | "mode" => do pure { acc with mode := ← textMode here value }
      | "has" => pure { acc with has := some value }
      | "hasEvery" => do pure { acc with hasEvery := some (← array here value) }
      | "hasSome" => do pure { acc with hasSome := some (← array here value) }
      | "isEmpty" => do pure { acc with isEmpty := some (← boolean here value) }
      | _ => ruledOut
    scalarTest path acc rest

/-- An object of field operators negates a test, anything else is a literal. -/
def negation (path : Path) : Json → Reading Negation
  | .object members =>
    if !members.isEmpty && keysWithin members Query.fieldOperators then do
      let test ← scalarTest path {} members
      pure (.test test)
    else pure (.literal (.object members))
  | j => pure (.literal j)

end

mutual

/-- The members of a filter, added to those read so far. -/
def filterMembers (path : Path) (acc : Filter) : List (String × Json) → Reading Filter
  | [] => .ok acc
  | (key, value) :: rest => do
    let here := path.key key
    let acc ←
      match key with
      | "AND" => do
        let parts ← filters here value
        pure { acc with conjuncts := acc.conjuncts ++ parts }
      | "OR" => do
        let parts ← filters here value
        pure { acc with alternatives := some (acc.alternatives.getD [] ++ parts) }
      | "NOT" => do
        let parts ← filters here value
        pure { acc with exclusions := acc.exclusions ++ parts }
      | field => do
        let c ← condition here value
        pure (acc.and field c)
    filterMembers path acc rest

/-- One filter or an array of them. -/
def filters (path : Path) : Json → Reading (List Filter)
  | .array items => filterItems path 0 items
  | .object members => do
    let f ← filterMembers path {} members
    pure [f]
  | _ => refuse .notObject path

def filterItems (path : Path) (position : Nat) : List Json → Reading (List Filter)
  | [] => .ok []
  | item :: rest => do
    let f ← filter (path.index position) item
    let more ← filterItems path (position + 1) rest
    pure (f :: more)

def filter (path : Path) : Json → Reading Filter
  | .object members => filterMembers path {} members
  | _ => refuse .notObject path

/-- What is asked of one field, by the keys of its value. -/
def condition (path : Path) : Json → Reading Condition
  | .null => pure .isNull
  | .object members =>
    if members.isEmpty then pure (.nested {})
    else if keysWithin members Query.relationOperators then do
      let test ← relationTest path {} members
      pure (.relation test)
    else if keysWithin members Query.fieldOperators then do
      let test ← scalarTest path {} members
      pure (.scalar test)
    else do
      let f ← filterMembers path {} members
      pure (.nested f)
  | j => pure (.equals j)

/-- The operators of a relation test, added to those read so far. -/
def relationTest (path : Path) (acc : RelationTest) : List (String × Json) → Reading RelationTest
  | [] => .ok acc
  | (key, value) :: rest => do
    let here := path.key key
    let acc ←
      match key with
      | "is" => do
        let target ← relationTarget here value
        pure { acc with is := some target }
      | "isNot" => do
        let target ← relationTarget here value
        pure { acc with isNot := some target }
      | "every" => do
        let f ← filter here value
        pure { acc with every := some f }
      | "some" => do
        let f ← filter here value
        pure { acc with someOf := some f }
      | "none" => do
        let f ← filter here value
        pure { acc with noneOf := some f }
      | _ => ruledOut
    relationTest path acc rest

def relationTarget (path : Path) : Json → Reading RelationTarget
  | .null => pure .absent
  | .object members => do
    let f ← filterMembers path {} members
    pure (.passing f)
  | _ => refuse .notObject path

end

/-! ### Orders -/

def direction (path : Path) (j : Json) : Reading Direction :=
  match j.string? with
  | some "asc" => .ok .asc
  | some "desc" => .ok .desc
  | _ => refuse .badDirection path

/-- The place of nulls; anything but text leaves it open. -/
def nullsPlace (path : Path) (j : Option Json) : Reading (Option NullsPlace) :=
  match j.bind Json.string? with
  | none => .ok none
  | some "first" => .ok (some .first)
  | some "last" => .ok (some .last)
  | some other => refuse (.badNulls other) path

mutual

/-- The clauses of an order object. -/
def orderMembers (path : Path) : List (String × Json) → Reading (List OrderBy)
  | [] => .ok []
  | (field, value) :: rest => do
    let key ← orderKey (path.key field) value
    let more ← orderMembers path rest
    pure (⟨field, key⟩ :: more)

/-- A direction, an object with `sort`, an object with `_count` alone, or the clauses of the
related entity. -/
def orderKey (path : Path) : Json → Reading OrderKey
  | .string s => do
    let d ← direction path (.string s)
    pure (.scalar d none)
  | .object members =>
    if hasKey members "sort" then do
      let sort ← member members "sort"
      let d ← direction (path.key "sort") sort
      let nulls ← nullsPlace (path.key "nulls") (Json.memberOf? members "nulls")
      pure (.scalar d nulls)
    else if members.length == 1 && hasKey members "_count" then do
      let counted ← member members "_count"
      let d ← direction (path.key "_count") counted
      pure (.count d)
    else do
      let clauses ← orderMembers path members
      pure (.relation clauses)
  | _ => refuse .badOrder path

end

def orderObject (path : Path) : Json → Reading (List OrderBy)
  | .object members => orderMembers path members
  | _ => refuse .notObject path

def orderItems (path : Path) (position : Nat) : List Json → Reading (List OrderBy)
  | [] => .ok []
  | item :: rest => do
    let clauses ← orderObject (path.index position) item
    let more ← orderItems path (position + 1) rest
    pure (clauses ++ more)

/-- One order object or an array of them. -/
def order (path : Path) : Json → Reading (List OrderBy)
  | .array items => orderItems path 0 items
  | j => orderObject path j

/-! ### Write data -/

/-- The one operation of an update object. -/
def updateOp (operator : String) (value : Json) : Reading UpdateOp :=
  match operator with
  | "set" => .ok (.set value)
  | "increment" => .ok (.increment value)
  | "decrement" => .ok (.decrement value)
  | "multiply" => .ok (.multiply value)
  | "divide" => .ok (.divide value)
  | "push" => .ok (.push value)
  | "unset" => .ok .unset
  | _ => ruledOut

mutual

def writeMembers (path : Path) : List (String × Json) → Reading (List (String × FieldWrite))
  | [] => .ok []
  | (field, value) :: rest => do
    let write ← fieldWrite (path.key field) value
    let more ← writeMembers path rest
    pure ((field, write) :: more)

/-- A nested write, the one operation of an update, or a literal. -/
def fieldWrite (path : Path) : Json → Reading FieldWrite
  | .object members =>
    if !members.isEmpty && keysWithin members Query.nestedOperators then do
      let write ← nestedWrite path {} members
      pure (.relation write)
    else
      match members with
      | [(operator, value)] =>
        if Query.updateOperators.contains operator then do
          let op ← updateOp operator value
          pure (.update op)
        else pure (.literal (.object members))
      | members => pure (.literal (.object members))
  | j => pure (.literal j)

def writeData (path : Path) : Json → Reading WriteData
  | .object members => do
    let fields ← writeMembers path members
    pure ⟨fields⟩
  | _ => refuse .notObject path

def writeItems (path : Path) (position : Nat) : List Json → Reading (List WriteData)
  | [] => .ok []
  | item :: rest => do
    let d ← writeData (path.index position) item
    let more ← writeItems path (position + 1) rest
    pure (d :: more)

/-- The data of one row or an array of them. -/
def writeRows (path : Path) : Json → Reading (List WriteData)
  | .array items => writeItems path 0 items
  | .object members => do
    let fields ← writeMembers path members
    pure [⟨fields⟩]
  | _ => refuse .notObject path

/-- The operations of a nested write, added to those read so far. -/
def nestedWrite (path : Path) (acc : NestedWrite) : List (String × Json) → Reading NestedWrite
  | [] => .ok acc
  | (key, value) :: rest => do
    let here := path.key key
    let acc ←
      match key with
      | "create" => do
        let rows ← writeRows here value
        pure { acc with create := rows }
      | "connect" => do
        let selectors ← filters here value
        pure { acc with connect := selectors }
      | "connectOrCreate" => pure { acc with connectOrCreate := value.array?.getD [value] }
      | "createMany" => do
        let batch ← createMany here value
        pure { acc with createMany := some batch }
      | "disconnect" =>
        match value with
        | .bool b => pure { acc with disconnect := some (.flag b) }
        | value => do
          let selectors ← filters here value
          pure { acc with disconnect := some (.records selectors) }
      | _ => ruledOut
    nestedWrite path acc rest

def createMany (path : Path) : Json → Reading CreateMany
  | .object members => do
    let data ← createManyData path members
    let skip ←
      match Json.memberOf? members "skipDuplicates" with
      | some value => boolean (path.key "skipDuplicates") value
      | none => pure false
    pure ⟨data, skip⟩
  | _ => refuse .notObject path

/-- The rows under the key `data`. -/
def createManyData (path : Path) : List (String × Json) → Reading (List WriteData)
  | [] => refuse .createManyWithoutData path
  | (key, value) :: rest =>
    if key = "data" then writeRows (path.key "data") value else createManyData path rest

end

/-- The data of an operation: an array is a batch. -/
def data (path : Path) : Json → Reading Data
  | .array items => do
    let rows ← writeItems path 0 items
    pure (.many rows)
  | j => do
    let row ← writeData path j
    pure (.one row)

/-! ### Selections and queries -/

/-- The relations of a count selection; `false` leaves a relation out. -/
def countEntries (path : Path) : List (String × Json) → Reading (List (String × Option Filter))
  | [] => .ok []
  | (name, value) :: rest => do
    let here := path.key name
    let entry ←
      match value with
      | .bool true => pure [(name, none)]
      | .bool false => pure []
      | .object arguments =>
        match Json.memberOf? arguments "where" with
        | some w => do
          let f ← filter (here.key "where") w
          pure [(name, some f)]
        | none => pure [(name, none)]
      | _ => refuse .badCountEntry here
    let more ← countEntries path rest
    pure (entry ++ more)

def countSelection (path : Path) : Json → Reading CountSelection
  | .bool true => pure .all
  | .object members =>
    match Json.memberOf? members "select" with
    | none => refuse .countWithoutSelect path
    | some (.object entries) => do
      let relations ← countEntries (path.key "select") entries
      pure (.relations relations)
    | some _ => refuse .notObject (path.key "select")
  | _ => refuse .badCount path

mutual

/-- The members of a query, added to those read so far. -/
def queryMembers (path : Path) (acc : Query) : List (String × Json) → Reading Query
  | [] => .ok acc
  | (key, value) :: rest => do
    let here := path.key key
    let acc ←
      match key with
      | "where" => do pure { acc with filter := some (← filter here value) }
      | "orderBy" => do pure { acc with order := ← order here value }
      | "select" => do
        let entries ← selection here value
        pure { acc with select := some entries }
      | "include" => do
        let entries ← selection here value
        pure { acc with load := some entries }
      | "take" => do pure { acc with take := some (← natural here value) }
      | "skip" => do pure { acc with skip := some (← natural here value) }
      | "distinct" => do pure { acc with distinct := ← fieldNames here value }
      | "data" => do pure { acc with data := some (← data here value) }
      | "skipDuplicates" => do pure { acc with skipDuplicates := ← boolean here value }
      | other => refuse (.unknownQueryKey other) here
    queryMembers path acc rest

def selection (path : Path) : Json → Reading Selection
  | .object members => selectionMembers path members
  | _ => refuse .notObject path

def selectionMembers (path : Path) : List (String × Json) → Reading Selection
  | [] => .ok []
  | (name, value) :: rest => do
    let here := path.key name
    let taken ←
      if name = "_count" then do
        let counted ← countSelection here value
        pure (Selected.count counted)
      else
        match value with
        | .bool b => pure (.flag b)
        | .object members => do
          let q ← queryMembers here {} members
          pure (.nested q)
        | _ => refuse .badSelection here
    let more ← selectionMembers path rest
    pure ((name, taken) :: more)

end

end Payload

namespace Query

/-- The query of a payload; null is the empty query. -/
def ofJson : Json → Except PayloadError Query
  | .null => .ok {}
  | .object members => Payload.queryMembers [] {} members
  | _ => Payload.refuse .queryNotObject []

/-- The query of a payload given as text. -/
def ofText (text : String) : Except PayloadError Query :=
  match Json.parse? text with
  | some j => ofJson j
  | none => .error ⟨.invalidJson, none⟩

end Query

namespace Filter

/-- The filter of a payload that holds nothing else. -/
def ofJson (j : Json) : Except PayloadError Filter := Payload.filter [.key "where"] j

end Filter

namespace OrderBy

/-- The clauses of a payload that holds nothing but an order. -/
def ofJson (j : Json) : Except PayloadError (List OrderBy) := Payload.order [.key "orderBy"] j

end OrderBy

end RelationalStore

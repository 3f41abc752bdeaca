import RelationalStore.Json.Document

/- Tables as they are declared: a name, the path of the primary key, and indexes. -/
namespace RelationalStore

/-- An index: rows can be found by the values of its fields. -/
structure IndexDef where
  name : String
  fields : List String
  /-- No two rows share values that are all present. -/
  unique : Bool
  deriving DecidableEq

/-- A table: the path of its primary key, and its indexes. -/
structure TableDef where
  name : String
  keyPath : List String
  indexes : List IndexDef
  deriving DecidableEq

namespace IndexDef

/-- The name of the index over some fields. -/
def nameOf (fields : List String) : String := "_".intercalate fields ++ "Index"

def ofJson? (r : Reading) (j : Json) : Option IndexDef := do
  let j ← r.part? ["name", "fields", "unique"] j
  let name ← j.required? "name" r.text?
  let fields ← j.required? "fields" r.texts?
  let unique ← j.optional? "unique" Json.bool? false
  return { name, fields, unique }

end IndexDef

namespace TableDef

def ofJson? (r : Reading) (j : Json) : Option TableDef := do
  let j ← r.part? ["name", "key_path", "indexes"] j
  let name ← j.required? "name" r.text?
  let keyPath ← j.required? "key_path" r.texts?
  let indexes ← j.optional? "indexes" (·.arrayOf? (IndexDef.ofJson? r)) []
  return { name, keyPath, indexes }

end TableDef

end RelationalStore

import RelationalStore.Value

/- Records: rows as they are handed out, with the related records and the numbers of related rows
   that were asked for. What is attached to a record never goes back into a table. -/
namespace RelationalStore

mutual

/-- A row with what was asked for on top of its fields. -/
structure Record where
  fields : Row
  relations : SortedMap String Related
  counts : SortedMap String Nat

/-- The records at the other end of a relation. -/
inductive Related where
  | one (record : Option Record)
  | many (records : List Record)

end

namespace Record

/-- The row alone. -/
def ofRow (row : Row) : Record := ⟨row, ∅, ∅⟩

/-- The value of a field that the record carries. -/
def get? (r : Record) (field : String) : Option Value := r.fields.get? field

/-- The related records of a relation, if it was loaded. -/
def relation? (r : Record) (name : String) : Option Related := r.relations.get? name

/-- The related record of a to-one relation that was loaded, if there is one. -/
def one? (r : Record) (name : String) : Option Record :=
  match r.relation? name with
  | some (.one record) => record
  | _ => none

/-- The related records of a to-many relation; none if it was not loaded. -/
def many (r : Record) (name : String) : List Record :=
  match r.relation? name with
  | some (.many records) => records
  | _ => []

/-- The number of related rows, if it was asked for. -/
def count? (r : Record) (name : String) : Option Nat := r.counts.get? name

/-- Attaches the related records of a relation. -/
def attach (r : Record) (name : String) (related : Related) : Record :=
  { r with relations := r.relations.insert name related }

/-- Attaches the number of related rows. -/
def attachCount (r : Record) (name : String) (n : Nat) : Record :=
  { r with counts := r.counts.insert name n }

/-- The record with only those fields that satisfy `p`. -/
def keepFields (p : String → Bool) (r : Record) : Record :=
  { r with fields := r.fields.filter fun name _ => p name }

/-- The counts as one more member, unless there are none. -/
def countMember (counts : SortedMap String Nat) : List (String × Json) :=
  if counts.isEmpty then []
  else [("_count", .object (counts.toList.map fun (name, n) => (name, .int n)))]

mutual

/-- The record as one JSON object: its fields, its relations and its counts. -/
def toJson : Record → Json
  | ⟨fields, ⟨relations⟩, counts⟩ =>
    let members := fields.toList.map fun (name, value) => (name, value.toJson)
    .object ((relationMembers relations ++ countMember counts).foldl
      (fun all (name, value) => Json.setMember all name value) members)

def relationMembers : List (String × Related) → List (String × Json)
  | [] => []
  | (name, related) :: rest => (name, relatedJson related) :: relationMembers rest

def relatedJson : Related → Json
  | .one none => .null
  | .one (some record) => toJson record
  | .many records => .array (toJsonAll records)

def toJsonAll : List Record → List Json
  | [] => []
  | record :: rest => toJson record :: toJsonAll rest

end

end Record

end RelationalStore

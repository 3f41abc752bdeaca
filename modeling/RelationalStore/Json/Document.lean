import RelationalStore.Json.Printer

/- Reading typed parts of documents. A document has no positions to report: a part is read or it is
   not. In a loose document a name may be written as any scalar and is then its text, so `5` names
   the same field as `"5"`; in a strict one a name is a string. A loose document is written in
   printable characters. A member that is absent has its default, but null is no default. -/
namespace RelationalStore

/-- How a document is read. -/
inductive Reading where
  /-- Any scalar stands for its text, and a part is an object. -/
  | loose
  /-- Text is a string, and a part is an object or an array of its members. -/
  | strict
  deriving DecidableEq

namespace Json

/-- Whether a character can stand in a loose document as it is. The control characters below
U+0020 count, as they are escaped; the others do not, except the line separator U+0085. -/
def isPrintable (c : Char) : Bool :=
  let n := c.toNat
  n < 0x7F || n == 0x85 || (0xA0 ≤ n && n != 0xFEFF && n != 0xFFFE && n != 0xFFFF)

mutual

/-- Whether every text in the value, names of members included, is in printable characters. -/
def inPrintables : Json → Bool
  | .string s => s.toList.all isPrintable
  | .array items => itemsInPrintables items
  | .object members => membersInPrintables members
  | _ => true

def itemsInPrintables : List Json → Bool
  | [] => true
  | j :: rest => inPrintables j && itemsInPrintables rest

def membersInPrintables : List (String × Json) → Bool
  | [] => true
  | (name, j) :: rest =>
    name.toList.all isPrintable && inPrintables j && membersInPrintables rest

end

/-- What `read` understands of a whole loose document. -/
def document? {α : Type} (j : Json) (read : Json → Option α) : Option α :=
  if j.inPrintables then read j else none

/-- The text of a scalar. -/
def scalarText? : Json → Option String
  | .string s => some s
  | .array _ => none
  | .object _ => none
  | j => some j.compact

/-- The member of that name as `read` understands it. -/
def required? {α : Type} (j : Json) (name : String) (read : Json → Option α) : Option α :=
  (j.get? name).bind read

/-- As `required?`, with a value for an absent member. -/
def optional? {α : Type} (j : Json) (name : String) (read : Json → Option α) (absent : α) :
    Option α :=
  match j.get? name with
  | some value => read value
  | none => some absent

/-- A member that may be absent or null. -/
def nullable? {α : Type} (j : Json) (name : String) (read : Json → Option α) :
    Option (Option α) :=
  match j.get? name with
  | none => some none
  | some .null => some none
  | some value => (read value).map some

/-- The array of what `read` understands. -/
def arrayOf? {α : Type} (j : Json) (read : Json → Option α) : Option (List α) :=
  j.array?.bind fun items => items.mapM read

end Json

namespace Reading

/-- A text, such as a name. -/
def text? : Reading → Json → Option String
  | .loose => Json.scalarText?
  | .strict => Json.string?

def texts? (r : Reading) (j : Json) : Option (List String) := j.arrayOf? r.text?

/-- A word of a fixed vocabulary. In a strict document it may also be the only member of an
object, with null as its value. -/
def word? : Reading → Json → Option String
  | _, .string s => some s
  | .strict, .object [(s, .null)] => some s
  | _, _ => none

/-- A part with the members `names`, none of them repeated. In a strict document it may also be an
array of the members in that order, without some at the end. -/
def part? (r : Reading) (names : List String) (j : Json) : Option Json :=
  match r, j with
  | _, .object members =>
    if names.all fun name => (members.filter (·.1 == name)).length ≤ 1 then some j else none
  | .strict, .array items =>
    if items.length ≤ names.length then some (.object (names.zip items)) else none
  | _, _ => none

end Reading

end RelationalStore

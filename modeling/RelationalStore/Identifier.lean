/- Names of entities, fields and relations. A name is a letter followed by letters, digits and
   underscores of the ASCII range, at most 128 bytes. Names of entities must not be device names,
   because tables become files; names of fields must not be words of the payload language. -/
namespace RelationalStore

/-- What is wrong with a name. -/
inductive IdentifierFault where
  | empty
  | tooLong (name : String)
  | badStart (name : String)
  | badCharacter (name : String)
  | reserved (name : String)
  deriving DecidableEq

namespace Identifier

/-- The greatest length of a name in bytes. -/
def maxLength : Nat := 128

/-- Names of devices, in lower case. -/
def deviceNames : List String :=
  ["con", "prn", "aux", "nul", "com1", "com2", "com3", "com4", "com5", "com6", "com7", "com8",
    "com9", "lpt1", "lpt2", "lpt3", "lpt4", "lpt5", "lpt6", "lpt7", "lpt8", "lpt9"]

/-- Words with a meaning of their own in payloads. -/
def payloadWords : List String := ["AND", "OR", "NOT", "_count"]

def isNameChar (c : Char) : Bool := c.isAlphanum || c == '_'

/-- Checks the form of a name; the first character that offends decides. -/
def checkForm (name : String) : Except IdentifierFault Unit :=
  if maxLength < name.utf8ByteSize then .error (.tooLong name)
  else
    match name.toList with
    | [] => .error .empty
    | first :: rest =>
      if !first.isAlpha then .error (.badStart name)
      else if rest.all isNameChar then .ok ()
      else .error (.badCharacter name)

/-- Checks the name of an entity, and so of a table. -/
def checkEntity (name : String) : Except IdentifierFault Unit := do
  checkForm name
  if deviceNames.contains name.toLower then .error (.reserved name)

/-- Checks the name of a field or relation. -/
def checkField (name : String) : Except IdentifierFault Unit :=
  if payloadWords.contains name then .error (.reserved name) else checkForm name

end Identifier

namespace IdentifierFault

/-- The fault as a message of its own. -/
def detail : IdentifierFault → String
  | .empty => "Identifier cannot be empty"
  | .tooLong name =>
    s!"Identifier '{name}' is too long (max {Identifier.maxLength} characters)"
  | .badStart name => s!"Invalid identifier '{name}': must start with a letter"
  | .badCharacter name =>
    s!"Invalid identifier '{name}': contains invalid characters " ++
      "(only alphanumeric and underscore allowed)"
  | .reserved name => s!"Reserved name: '{name}'"

end IdentifierFault

end RelationalStore

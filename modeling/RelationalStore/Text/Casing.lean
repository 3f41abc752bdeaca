import RelationalStore.Text.CaseTable

/- Text in lower case, for the whole of Unicode. Each character has its own lower-case form; only
   the capital sigma depends on its place: it becomes a final sigma behind a letter at the end of a
   word. -/
namespace RelationalStore.Text

/-- The lower-case form of one character, where that is one character. -/
def lowerChar (c : Char) : Char :=
  let n := c.toNat
  match lowerRanges.find? fun r => r.first ≤ n && n ≤ r.last && (n - r.first) % r.step == 0 with
  | some r => Char.ofNat ((n : Int) + r.shift).toNat
  | none => c

def isIn (ranges : List (Nat × Nat)) (c : Char) : Bool :=
  ranges.any fun r => r.1 ≤ c.toNat && c.toNat ≤ r.2

def isCased (c : Char) : Bool := isIn casedRanges c

def isCaseIgnorable (c : Char) : Bool := isIn caseIgnorableRanges c

/-- Whether the first character that is not passed over is a cased letter. -/
def meetsCased (cs : List Char) : Bool :=
  match cs.dropWhile isCaseIgnorable with
  | c :: _ => isCased c
  | [] => false

/-- The lower-case form of `cs`; `before` holds the characters in front of it, nearest first.
The dotted capital I becomes an i with a dot above. -/
def lowerFrom (before : List Char) : List Char → List Char
  | [] => []
  | c :: rest =>
    let lowered :=
      if c = 'Σ' then (if meetsCased before && !meetsCased rest then ['ς'] else ['σ'])
      else if c = 'İ' then ['i', '\u0307']
      else [lowerChar c]
    lowered ++ lowerFrom (c :: before) rest

def toLower (s : String) : String := String.ofList (lowerFrom [] s.toList)

end RelationalStore.Text

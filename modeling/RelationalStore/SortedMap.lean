/- A finite map kept as a list of entries in increasing key order. Every operation is one
   left-to-right scan: it passes the entries with smaller keys and stops at the first entry whose
   key is equal or greater. Main statement: what was stored under a key is found there.

   A key that is already present keeps the form in which it was first written: only its value is
   replaced. That matters for keys that are equal without being identical, such as `1.5` and `1.50`. -/
namespace RelationalStore

/-- A map from `κ` to `ν`, as its entries in increasing key order. -/
structure SortedMap (κ : Type) (ν : Type) where
  entries : List (κ × ν)
  deriving Inhabited

namespace SortedMap

variable {κ ν ω : Type}

/-- The map without entries. -/
def empty : SortedMap κ ν := ⟨[]⟩

instance : EmptyCollection (SortedMap κ ν) := ⟨empty⟩

def toList (m : SortedMap κ ν) : List (κ × ν) := m.entries

/-- The keys in increasing order. -/
def keys (m : SortedMap κ ν) : List κ := m.entries.map (·.1)

/-- The values in increasing order of their keys. -/
def values (m : SortedMap κ ν) : List ν := m.entries.map (·.2)

def size (m : SortedMap κ ν) : Nat := m.entries.length

def isEmpty (m : SortedMap κ ν) : Bool := m.entries.isEmpty

/-- The greatest key, if there is any entry. -/
def lastKey? (m : SortedMap κ ν) : Option κ := m.entries.getLast?.map (·.1)

section Search
variable [Ord κ]

/-- The entry stored under a key equal to `k`. -/
def entryAt? (k : κ) : List (κ × ν) → Option (κ × ν)
  | [] => none
  | e :: rest =>
    match compare k e.1 with
    | .lt => none
    | .eq => some e
    | .gt => entryAt? k rest

def insertEntry (k : κ) (v : ν) : List (κ × ν) → List (κ × ν)
  | [] => [(k, v)]
  | e :: rest =>
    match compare k e.1 with
    | .lt => (k, v) :: e :: rest
    | .eq => (e.1, v) :: rest
    | .gt => e :: insertEntry k v rest

def eraseEntry (k : κ) : List (κ × ν) → List (κ × ν)
  | [] => []
  | e :: rest =>
    match compare k e.1 with
    | .lt => e :: rest
    | .eq => rest
    | .gt => e :: eraseEntry k rest

def get? (m : SortedMap κ ν) (k : κ) : Option ν := (entryAt? k m.entries).map (·.2)

def contains (m : SortedMap κ ν) (k : κ) : Bool := (entryAt? k m.entries).isSome

/-- Stores `v` under `k`; a key that is present keeps its written form. -/
def insert (m : SortedMap κ ν) (k : κ) (v : ν) : SortedMap κ ν := ⟨insertEntry k v m.entries⟩

def erase (m : SortedMap κ ν) (k : κ) : SortedMap κ ν := ⟨eraseEntry k m.entries⟩

/-- The map of a list of pairs; of two pairs with one key the later value stands. -/
def ofList (pairs : List (κ × ν)) : SortedMap κ ν :=
  pairs.foldl (fun m e => m.insert e.1 e.2) ∅

/-- The map with every entry of another put in. -/
def insertAll (m other : SortedMap κ ν) : SortedMap κ ν :=
  other.entries.foldl (fun m e => m.insert e.1 e.2) m

@[simp] theorem get?_empty (k : κ) : (∅ : SortedMap κ ν).get? k = none := rfl

theorem entryAt?_insertEntry_self [Std.ReflOrd κ] (k : κ) (v : ν) (entries : List (κ × ν)) :
    (entryAt? k (insertEntry k v entries)).map (·.2) = some v := by
  fun_induction insertEntry k v entries with
  | case1 => simp [entryAt?, Std.ReflOrd.compare_self]
  | case2 e rest h => simp [entryAt?, Std.ReflOrd.compare_self]
  | case3 e rest h => simp [entryAt?, h]
  | case4 e rest h ih => simpa [entryAt?, h] using ih

@[simp] theorem get?_insert_self [Std.ReflOrd κ] (m : SortedMap κ ν) (k : κ) (v : ν) :
    (m.insert k v).get? k = some v :=
  entryAt?_insertEntry_self k v m.entries

end Search

/-- The same keys with every value replaced by `f` of it. -/
def mapValues (f : ν → ω) (m : SortedMap κ ν) : SortedMap κ ω :=
  ⟨m.entries.map fun e => (e.1, f e.2)⟩

/-- The entries that satisfy `p`. -/
def filter (p : κ → ν → Bool) (m : SortedMap κ ν) : SortedMap κ ν :=
  ⟨m.entries.filter fun e => p e.1 e.2⟩

end SortedMap

/-- A finite set as the sorted map of its members. -/
abbrev SortedSet (κ : Type) := SortedMap κ Unit

namespace SortedSet

variable {κ : Type} [Ord κ]

def ofList (items : List κ) : SortedSet κ := SortedMap.ofList (items.map (·, ()))

/-- Adds a member; one that is present keeps its written form. -/
def add (s : SortedSet κ) (k : κ) : SortedSet κ := s.insert k ()

end SortedSet

end RelationalStore

import RelationalStore.Query.Payload
import RelationalStore.Proofs.OperationTriple

/- Where the faults of a payload are. A fault that a reader reports is at a place of the value that
   it was given (`PayloadError.Within`), however deep, and its text is made of the keys and array
   positions on the way there. The readers build the place step by step as they descend, so the
   lemmas are about one step each: what is within a member or an item is within the object or the
   array. Where an earlier look at the keys has left no case, no fault arises: the keys that the
   readers of operators meet are operators (`within_scalarTest` and the like), and a member that is
   asked for by name is there. -/
namespace RelationalStore
open Read

/-- A value has a position: each step of it leads to a member or an item. -/
inductive Json.Has : Json → Path → Prop where
  | here (j : Json) : Has j []
  | key {members : List (String × Json)} {name : String} {part : Json} {p : Path}
      (hmem : (name, part) ∈ members) (h : Has part p) : Has (.object members) (.key name :: p)
  | index {items : List Json} {position : Nat} {part : Json} {p : Path}
      (hitem : items[position]? = some part) (h : Has part p) :
      Has (.array items) (.index position :: p)

/-- A fault within a value that stands at a path. -/
def PayloadError.Within (path : Path) (j : Json) (e : PayloadError) : Prop :=
  e.fault ≠ .ruledOut ∧ ∃ p : Path, e.path = some (path ++ p) ∧ j.Has p

/-- A fault within one of the members that stand at a path. Where the key is none of a payload, the
fault is at the member itself. -/
def PayloadError.Below (path : Path) (members : List (String × Json)) (e : PayloadError) : Prop :=
  ∃ name part, (name, part) ∈ members ∧ e.Within (path.key name) part ∧
    (name ∈ Query.payloadKeys ∨ e.path = some (path.key name))

/-! ### The text of a position -/

/-- A step behind others. -/
def PathStep.text : PathStep → String
  | .key name => "." ++ name
  | .index position => "[" ++ toString position ++ "]"

/-- A position as messages write it: keys joined by points, array positions in brackets, and a word
for the top. -/
def Path.spelled : Path → String
  | [] => "<root>"
  | .key name :: rest => name ++ String.join (rest.map PathStep.text)
  | .index position :: rest =>
    "[" ++ toString position ++ "]" ++ String.join (rest.map PathStep.text)

namespace Path

/-- Behind a text that is not empty every key has its point. -/
theorem renderFrom_eq {shown : String} (h : shown ≠ "") (p : Path) :
    renderFrom shown p = shown ++ String.join (p.map PathStep.text) := by
  induction p generalizing shown with
  | nil => simp [renderFrom]
  | cons step rest ih =>
    cases step with
    | key name =>
      have hshown : shown.isEmpty = false := by simpa using h
      calc renderFrom shown (.key name :: rest)
          = renderFrom (shown ++ "." ++ name) rest := by simp [renderFrom, hshown]
        _ = shown ++ "." ++ name ++ String.join (rest.map PathStep.text) := ih (by simp [h])
        _ = shown ++ String.join ((PathStep.key name :: rest).map PathStep.text) := by
          simp [PathStep.text, String.append_assoc]
    | index position =>
      calc renderFrom shown (.index position :: rest)
          = renderFrom (shown ++ s!"[{position}]") rest := rfl
        _ = shown ++ s!"[{position}]" ++ String.join (rest.map PathStep.text) := ih (by simp [h])
        _ = shown ++ String.join ((PathStep.index position :: rest).map PathStep.text) := by
          simp [PathStep.text, String.append_assoc, toString]

/-- The text is right if the first key is not empty, or has nothing behind it. -/
theorem render_eq_spelled {name : String} {p : Path} (h : name ≠ "" ∨ p = []) :
    render (.key name :: p) = spelled (.key name :: p) := by
  have hfirst : render (.key name :: p) = renderFrom name p := rfl
  rw [hfirst]
  rcases h with h | rfl
  · exact renderFrom_eq h p
  · simp [renderFrom, spelled]

end Path

namespace Payload
variable {α β : Type} {path : Path} {j : Json} {e : PayloadError}

/-- A reading that fails within a value only. -/
abbrev ReadsWithin (path : Path) (j : Json) (r : Reading α) : Prop :=
  Yields r (fun _ => True) (PayloadError.Within path j)

/-! ### One step -/

theorem within_here {fault : PayloadFault} (h : fault ≠ .ruledOut) :
    PayloadError.Within path j ⟨fault, some path⟩ :=
  ⟨h, [], by rw [List.append_nil], .here j⟩

theorem within_key {members : List (String × Json)} {name : String} {part : Json}
    (hmem : (name, part) ∈ members) (h : e.Within (path.key name) part) :
    e.Within path (.object members) := by
  obtain ⟨hfault, p, hpath, hhas⟩ := h
  refine ⟨hfault, .key name :: p, ?_, .key hmem hhas⟩
  rw [hpath, Path.key, List.append_assoc]
  rfl

theorem within_index {items : List Json} {position : Nat} {part : Json}
    (hitem : items[position]? = some part) (h : e.Within (path.index position) part) :
    e.Within path (.array items) := by
  obtain ⟨hfault, p, hpath, hhas⟩ := h
  refine ⟨hfault, .index position :: p, ?_, .index hitem hhas⟩
  rw [hpath, Path.index, List.append_assoc]
  rfl

theorem within_refuse {fault : PayloadFault} (h : fault ≠ .ruledOut) :
    ReadsWithin path j (refuse fault path : Reading α) :=
  .error (within_here h)

theorem within_require (fault : PayloadFault) (h : fault ≠ .ruledOut) (value : Option α) :
    ReadsWithin path j (require fault path value) :=
  .elim (within_refuse h) fun _ _ => .ok trivial

/-- The reading of a member fails within the object. -/
theorem ReadsWithin.member {members : List (String × Json)} {name : String} {part : Json}
    {r : Reading α} (h : ReadsWithin (path.key name) part r) (hmem : (name, part) ∈ members) :
    ReadsWithin path (.object members) r :=
  h.mono (fun _ _ => trivial) fun _ => within_key hmem

theorem ReadsWithin.item {items : List Json} {position : Nat} {part : Json} {r : Reading α}
    (h : ReadsWithin (path.index position) part r) (hitem : items[position]? = some part) :
    ReadsWithin path (.array items) r :=
  h.mono (fun _ _ => trivial) fun _ => within_index hitem

/-! ### Parts without a structure -/

theorem within_array : ReadsWithin path j (array path j) := within_require .notArray nofun _

theorem within_string : ReadsWithin path j (string path j) := within_require .notString nofun _

theorem within_boolean : ReadsWithin path j (boolean path j) := within_require .notBoolean nofun _

theorem within_natural : ReadsWithin path j (natural path j) := within_require .notNatural nofun _

/-- An item that is no name is reported at its array. -/
theorem within_fieldNames (path : Path) (j : Json) : ReadsWithin path j (fieldNames path j) := by
  unfold fieldNames
  split
  · exact .ok trivial
  · refine .mono (.mapM (Q := fun _ => True) fun item _ => ?_) (fun _ _ => trivial) fun _ he => he
    exact within_require .notString nofun _
  · exact within_refuse nofun

theorem within_textMode : ReadsWithin path j (textMode path j) := by
  unfold textMode
  split
  · exact .ok trivial
  · exact .ok trivial
  · exact within_refuse nofun

theorem within_direction : ReadsWithin path j (direction path j) := by
  unfold direction
  split
  · exact .ok trivial
  · exact .ok trivial
  · exact within_refuse nofun

/-! ### Keys that were looked at before -/

theorem mem_of_memberOf? {members : List (String × Json)} {name : String} {part : Json}
    (h : Json.memberOf? members name = some part) : (name, part) ∈ members := by
  obtain ⟨m, hm, rfl⟩ := Option.map_eq_some_iff.1 h
  have hname : m.1 = name := by simpa using List.find?_some hm
  rw [← hname]
  exact List.mem_of_find?_eq_some hm

theorem key_of_keysWithin {members : List (String × Json)} {keys : List String} {m : String × Json}
    (h : keysWithin members keys) (hm : m ∈ members) : m.1 ∈ keys := by
  simpa using List.all_eq_true.1 h m hm

theorem keysWithin_rest {members : List (String × Json)} {keys : List String} {m : String × Json}
    (h : keysWithin (m :: members) keys) : keysWithin members keys := by
  simp only [keysWithin, List.all_cons, Bool.and_eq_true] at h ⊢
  exact h.2

/-- A member that is known to be there is found. -/
theorem yields_member {E : PayloadError → Prop} {members : List (String × Json)} {name : String}
    (h : hasKey members name) :
    Yields (member members name) (fun part => (name, part) ∈ members) E := by
  obtain ⟨part, hpart⟩ := Option.isSome_iff_exists.1 h
  have hfound : member members name = .ok part := by rw [member, hpart]; rfl
  rw [hfound]
  exact .ok (mem_of_memberOf? hpart)

/-- The items after the first of those from a position on. -/
theorem items_succ {items rest : List Json} {item : Json} {position : Nat}
    (h : ∀ i, items[position + i]? = (item :: rest)[i]?) (i : Nat) :
    items[position + 1 + i]? = rest[i]? := by
  rw [Nat.add_assoc, Nat.add_comm 1, h, List.getElem?_cons_succ]

/-! ### Filters -/

mutual

theorem within_scalarTest (path : Path) (acc : ScalarTest) :
    ∀ members all : List (String × Json), members ⊆ all →
      keysWithin members Query.fieldOperators →
      ReadsWithin path (.object all) (scalarTest path acc members)
  | [], _, _, _ => .ok trivial
  | (key, value) :: rest, all, hall, hkeys => by
    rw [List.cons_subset] at hall
    have hkey : key ∈ Query.fieldOperators := key_of_keysWithin hkeys List.mem_cons_self
    have hrest (acc : ScalarTest) : ReadsWithin path (.object all) (scalarTest path acc rest) :=
      within_scalarTest path acc rest all hall.2 (keysWithin_rest hkeys)
    rw [scalarTest.eq_def]
    simp only
    split
    case h_2 =>
      exact .andThen ((within_negation _ value).member hall.1) fun _ => hrest _
    case h_12 =>
      exact .andThen (within_textMode.member hall.1) fun _ => hrest _
    case h_16 =>
      exact .andThen (within_boolean.member hall.1) fun _ => hrest _
    case h_17 =>
      -- Each of the operators has its case above.
      simp [Query.fieldOperators] at hkey
      grind
    case h_3 | h_4 | h_14 | h_15 =>
      exact .andThen (within_array.member hall.1) fun _ => hrest _
    case h_9 | h_10 | h_11 =>
      exact .andThen (within_string.member hall.1) fun _ => hrest _
    all_goals exact .andThen (.pure trivial) hrest

theorem within_negation (path : Path) : ∀ j : Json, ReadsWithin path j (negation path j)
  | .object members => by
    rw [negation]
    split
    · next hkeys =>
      rw [Bool.and_eq_true] at hkeys
      have htest := within_scalarTest path {} members members (List.Subset.refl members) hkeys.2
      exact .andThen htest fun _ => .pure trivial
    · exact .pure trivial
  | .null => .pure trivial
  | .bool _ => .pure trivial
  | .int _ => .pure trivial
  | .float _ => .pure trivial
  | .string _ => .pure trivial
  | .array _ => .pure trivial

end

mutual

theorem within_filterMembers (path : Path) (acc : Filter) :
    ∀ members all : List (String × Json), members ⊆ all →
      ReadsWithin path (.object all) (filterMembers path acc members)
  | [], _, _ => .ok trivial
  | (key, value) :: rest, all, hall => by
    rw [List.cons_subset] at hall
    have hrest (acc : Filter) : ReadsWithin path (.object all) (filterMembers path acc rest) :=
      within_filterMembers path acc rest all hall.2
    rw [filterMembers.eq_def]
    simp only
    split
    case h_4 =>
      exact .andThen ((within_condition _ value).member hall.1) fun _ => hrest _
    all_goals exact .andThen ((within_filters _ value).member hall.1) fun _ => hrest _

theorem within_filters (path : Path) : ∀ j : Json, ReadsWithin path j (filters path j)
  | .array items => by
    rw [filters]
    exact within_filterItems path 0 items items fun i => by rw [Nat.zero_add]
  | .object members => by
    rw [filters]
    have hmembers := within_filterMembers path {} members members (List.Subset.refl members)
    exact .andThen hmembers fun _ => .pure trivial
  | .null => within_refuse nofun
  | .bool _ => within_refuse nofun
  | .int _ => within_refuse nofun
  | .float _ => within_refuse nofun
  | .string _ => within_refuse nofun

/-- The items from a position on. -/
theorem within_filterItems (path : Path) (position : Nat) :
    ∀ rest items : List Json, (∀ i, items[position + i]? = rest[i]?) →
      ReadsWithin path (.array items) (filterItems path position rest)
  | [], _, _ => .ok trivial
  | item :: rest, items, hitems => by
    rw [filterItems]
    refine .andThen ((within_filter (path.index position) item).item (hitems 0)) fun _ => ?_
    have hrest := within_filterItems path (position + 1) rest items (items_succ hitems)
    exact .andThen hrest fun _ => .pure trivial

theorem within_filter (path : Path) : ∀ j : Json, ReadsWithin path j (filter path j)
  | .object members => by
    rw [filter]
    exact within_filterMembers path {} members members (List.Subset.refl members)
  | .null => within_refuse nofun
  | .bool _ => within_refuse nofun
  | .int _ => within_refuse nofun
  | .float _ => within_refuse nofun
  | .string _ => within_refuse nofun
  | .array _ => within_refuse nofun

theorem within_condition (path : Path) : ∀ j : Json, ReadsWithin path j (condition path j)
  | .object members => by
    rw [condition]
    split
    · exact .pure trivial
    · split
      · next hkeys =>
        have htest := within_relationTest path {} members members (List.Subset.refl members) hkeys
        exact .andThen htest fun _ => .pure trivial
      · split
        · next hkeys =>
          have htest := within_scalarTest path {} members members (List.Subset.refl members) hkeys
          exact .andThen htest fun _ => .pure trivial
        · have hmembers := within_filterMembers path {} members members (List.Subset.refl members)
          exact .andThen hmembers fun _ => .pure trivial
  | .null => .pure trivial
  | .bool _ => .pure trivial
  | .int _ => .pure trivial
  | .float _ => .pure trivial
  | .string _ => .pure trivial
  | .array _ => .pure trivial

theorem within_relationTest (path : Path) (acc : RelationTest) :
    ∀ members all : List (String × Json), members ⊆ all →
      keysWithin members Query.relationOperators →
      ReadsWithin path (.object all) (relationTest path acc members)
  | [], _, _, _ => .ok trivial
  | (key, value) :: rest, all, hall, hkeys => by
    rw [List.cons_subset] at hall
    have hkey : key ∈ Query.relationOperators := key_of_keysWithin hkeys List.mem_cons_self
    have hrest (acc : RelationTest) :
        ReadsWithin path (.object all) (relationTest path acc rest) :=
      within_relationTest path acc rest all hall.2 (keysWithin_rest hkeys)
    rw [relationTest.eq_def]
    simp only
    split
    case h_1 | h_2 =>
      exact .andThen ((within_relationTarget _ value).member hall.1) fun _ => hrest _
    case h_3 | h_4 | h_5 =>
      exact .andThen ((within_filter _ value).member hall.1) fun _ => hrest _
    case h_6 =>
      simp [Query.relationOperators] at hkey
      grind

theorem within_relationTarget (path : Path) : ∀ j : Json,
    ReadsWithin path j (relationTarget path j)
  | .object members => by
    rw [relationTarget]
    have hmembers := within_filterMembers path {} members members (List.Subset.refl members)
    exact .andThen hmembers fun _ => .pure trivial
  | .null => .pure trivial
  | .bool _ => within_refuse nofun
  | .int _ => within_refuse nofun
  | .float _ => within_refuse nofun
  | .string _ => within_refuse nofun
  | .array _ => within_refuse nofun

end

/-! ### Orders -/

theorem within_nullsPlace {members : List (String × Json)} :
    ReadsWithin path (.object members)
      (nullsPlace (path.key "nulls") (Json.memberOf? members "nulls")) := by
  cases h : Json.memberOf? members "nulls" with
  | none => exact .ok trivial
  | some part =>
    have hmem := mem_of_memberOf? h
    refine ReadsWithin.member ?_ hmem
    unfold nullsPlace
    split
    · exact .ok trivial
    · exact .ok trivial
    · exact .ok trivial
    · exact within_refuse nofun

mutual

theorem within_orderMembers (path : Path) :
    ∀ members all : List (String × Json), members ⊆ all →
      ReadsWithin path (.object all) (orderMembers path members)
  | [], _, _ => .ok trivial
  | (field, value) :: rest, all, hall => by
    rw [List.cons_subset] at hall
    rw [orderMembers]
    refine .andThen ((within_orderKey (path.key field) value).member hall.1) fun _ => ?_
    exact .andThen (within_orderMembers path rest all hall.2) fun _ => .pure trivial

theorem within_orderKey (path : Path) : ∀ j : Json, ReadsWithin path j (orderKey path j)
  | .string s => by
    rw [orderKey]
    exact .andThen within_direction fun _ => .pure trivial
  | .object members => by
    rw [orderKey]
    split
    · next hsort =>
      refine .bind (yields_member hsort) fun part hmem => ?_
      refine .andThen (within_direction.member hmem) fun _ => ?_
      exact .andThen within_nullsPlace fun _ => .pure trivial
    · split
      · next hcount =>
        rw [Bool.and_eq_true] at hcount
        refine .bind (yields_member hcount.2) fun part hmem => ?_
        exact .andThen (within_direction.member hmem) fun _ => .pure trivial
      · have hmembers := within_orderMembers path members members (List.Subset.refl members)
        exact .andThen hmembers fun _ => .pure trivial
  | .null => within_refuse nofun
  | .bool _ => within_refuse nofun
  | .int _ => within_refuse nofun
  | .float _ => within_refuse nofun
  | .array _ => within_refuse nofun

end

theorem within_orderObject (path : Path) (j : Json) : ReadsWithin path j (orderObject path j) := by
  unfold orderObject
  split
  · next members => exact within_orderMembers path members members (List.Subset.refl members)
  · exact within_refuse nofun

theorem within_orderItems (path : Path) (position : Nat) (rest items : List Json)
    (hitems : ∀ i, items[position + i]? = rest[i]?) :
    ReadsWithin path (.array items) (orderItems path position rest) := by
  induction rest generalizing position with
  | nil => exact .ok trivial
  | cons item rest ih =>
    rw [orderItems]
    refine .andThen ((within_orderObject (path.index position) item).item (hitems 0)) fun _ => ?_
    exact .andThen (ih (position + 1) (items_succ hitems)) fun _ => .pure trivial

theorem within_order (path : Path) (j : Json) : ReadsWithin path j (order path j) := by
  unfold order
  split
  · next items => exact within_orderItems path 0 items items fun i => by rw [Nat.zero_add]
  · exact within_orderObject path j

/-! ### Write data -/

/-- The word of an update is one of the operations. -/
theorem yields_updateOp {E : PayloadError → Prop} {operator : String}
    (h : operator ∈ Query.updateOperators) (value : Json) :
    Yields (updateOp operator value) (fun _ => True) E := by
  unfold updateOp
  split
  case h_8 =>
    simp [Query.updateOperators] at h
    grind
  all_goals exact .ok trivial

mutual

theorem within_writeMembers (path : Path) :
    ∀ members all : List (String × Json), members ⊆ all →
      ReadsWithin path (.object all) (writeMembers path members)
  | [], _, _ => .ok trivial
  | (field, value) :: rest, all, hall => by
    rw [List.cons_subset] at hall
    rw [writeMembers]
    refine .andThen ((within_fieldWrite (path.key field) value).member hall.1) fun _ => ?_
    exact .andThen (within_writeMembers path rest all hall.2) fun _ => .pure trivial
termination_by structural members => members

theorem within_fieldWrite (path : Path) : ∀ j : Json, ReadsWithin path j (fieldWrite path j)
  | .object members => by
    rw [fieldWrite.eq_def]
    simp only
    split
    · next hkeys =>
      rw [Bool.and_eq_true] at hkeys
      have hwrite := within_nestedWrite path {} members members (List.Subset.refl members) hkeys.2
      exact .andThen hwrite fun _ => .pure trivial
    · split
      · split
        · next hop =>
          exact .andThen (yields_updateOp (by simpa using hop) _) fun _ => .pure trivial
        · exact .pure trivial
      · exact .pure trivial
  | .null => .pure trivial
  | .bool _ => .pure trivial
  | .int _ => .pure trivial
  | .float _ => .pure trivial
  | .string _ => .pure trivial
  | .array _ => .pure trivial
termination_by structural j => j

theorem within_writeData (path : Path) : ∀ j : Json, ReadsWithin path j (writeData path j)
  | .object members => by
    rw [writeData]
    have hmembers := within_writeMembers path members members (List.Subset.refl members)
    exact .andThen hmembers fun _ => .pure trivial
  | .null => within_refuse nofun
  | .bool _ => within_refuse nofun
  | .int _ => within_refuse nofun
  | .float _ => within_refuse nofun
  | .string _ => within_refuse nofun
  | .array _ => within_refuse nofun
termination_by structural j => j

theorem within_writeItems (path : Path) (position : Nat) :
    ∀ rest items : List Json, (∀ i, items[position + i]? = rest[i]?) →
      ReadsWithin path (.array items) (writeItems path position rest)
  | [], _, _ => .ok trivial
  | item :: rest, items, hitems => by
    rw [writeItems]
    refine .andThen ((within_writeData (path.index position) item).item (hitems 0)) fun _ => ?_
    have hrest := within_writeItems path (position + 1) rest items (items_succ hitems)
    exact .andThen hrest fun _ => .pure trivial
termination_by structural rest => rest

theorem within_writeRows (path : Path) : ∀ j : Json, ReadsWithin path j (writeRows path j)
  | .array items => by
    rw [writeRows]
    exact within_writeItems path 0 items items fun i => by rw [Nat.zero_add]
  | .object members => by
    rw [writeRows]
    have hmembers := within_writeMembers path members members (List.Subset.refl members)
    exact .andThen hmembers fun _ => .pure trivial
  | .null => within_refuse nofun
  | .bool _ => within_refuse nofun
  | .int _ => within_refuse nofun
  | .float _ => within_refuse nofun
  | .string _ => within_refuse nofun
termination_by structural j => j

theorem within_nestedWrite (path : Path) (acc : NestedWrite) :
    ∀ members all : List (String × Json), members ⊆ all →
      keysWithin members Query.nestedOperators →
      ReadsWithin path (.object all) (nestedWrite path acc members)
  | [], _, _, _ => .ok trivial
  | (key, value) :: rest, all, hall, hkeys => by
    rw [List.cons_subset] at hall
    have hkey : key ∈ Query.nestedOperators := key_of_keysWithin hkeys List.mem_cons_self
    have hrest (acc : NestedWrite) : ReadsWithin path (.object all) (nestedWrite path acc rest) :=
      within_nestedWrite path acc rest all hall.2 (keysWithin_rest hkeys)
    rw [nestedWrite.eq_def]
    simp only
    split
    case h_1 =>
      exact .andThen ((within_writeRows _ value).member hall.1) fun _ => hrest _
    case h_2 =>
      exact .andThen ((within_filters _ value).member hall.1) fun _ => hrest _
    case h_3 => exact .andThen (.pure trivial) hrest
    case h_4 =>
      exact .andThen ((within_createMany _ value).member hall.1) fun _ => hrest _
    case h_5 =>
      split
      · exact .andThen (.pure trivial) hrest
      · exact .andThen ((within_filters _ value).member hall.1) fun _ => hrest _
    case h_6 =>
      simp [Query.nestedOperators] at hkey
      grind
termination_by structural members => members

theorem within_createMany (path : Path) : ∀ j : Json, ReadsWithin path j (createMany path j)
  | .object members => by
    rw [createMany]
    refine .andThen (within_createManyData path members members (List.Subset.refl members)) ?_
    intro data
    cases hskip : Json.memberOf? members "skipDuplicates" with
    | none => exact .andThen (.pure trivial) fun _ => .pure trivial
    | some value =>
      refine .andThen (within_boolean.member (mem_of_memberOf? hskip)) fun _ => .pure trivial
  | .null => within_refuse nofun
  | .bool _ => within_refuse nofun
  | .int _ => within_refuse nofun
  | .float _ => within_refuse nofun
  | .string _ => within_refuse nofun
  | .array _ => within_refuse nofun
termination_by structural j => j

theorem within_createManyData (path : Path) :
    ∀ members all : List (String × Json), members ⊆ all →
      ReadsWithin path (.object all) (createManyData path members)
  | [], _, _ => within_refuse nofun
  | (key, value) :: rest, all, hall => by
    rw [List.cons_subset] at hall
    rw [createManyData]
    split
    · next hdata =>
      subst hdata
      exact (within_writeRows _ value).member hall.1
    · exact within_createManyData path rest all hall.2
termination_by structural members => members

end

theorem within_data (path : Path) (j : Json) : ReadsWithin path j (data path j) := by
  unfold data
  split
  · next items =>
    have hitems := within_writeItems path 0 items items fun i => by rw [Nat.zero_add]
    exact .andThen hitems fun _ => .pure trivial
  · exact .andThen (within_writeData path j) fun _ => .pure trivial

/-! ### Selections -/

theorem within_countEntries (path : Path) (members all : List (String × Json))
    (hall : members ⊆ all) : ReadsWithin path (.object all) (countEntries path members) := by
  induction members with
  | nil => exact .ok trivial
  | cons m rest ih =>
    obtain ⟨name, value⟩ := m
    rw [List.cons_subset] at hall
    have hrest (entry : List (String × Option Filter)) :
        ReadsWithin path (.object all) (do
          let more ← countEntries path rest
          pure (entry ++ more)) :=
      .andThen (ih hall.2) fun _ => .pure trivial
    rw [countEntries.eq_def]
    simp only
    split
    · exact .andThen (.pure trivial) hrest
    · exact .andThen (.pure trivial) hrest
    · next arguments =>
      cases hw : Json.memberOf? arguments "where" with
      | none => exact .andThen (.pure trivial) hrest
      | some w =>
        have hfilter := (within_filter ((path.key name).key "where") w).member (mem_of_memberOf? hw)
        exact .andThen (hfilter.member hall.1) fun _ => hrest _
    · have hrefused : ReadsWithin (path.key name) value
          (refuse .badCountEntry (path.key name) : Reading (List (String × Option Filter))) :=
        within_refuse nofun
      exact .andThen (hrefused.member hall.1) hrest

theorem within_countSelection (path : Path) (j : Json) :
    ReadsWithin path j (countSelection path j) := by
  unfold countSelection
  split
  · exact .ok trivial
  · next members =>
    split
    · exact within_refuse nofun
    · next entries hselect =>
      have hentries := within_countEntries (path.key "select") entries entries
        (List.Subset.refl entries)
      exact .andThen (hentries.member (mem_of_memberOf? hselect)) fun _ => .pure trivial
    · next part _ hselect =>
      have hrefused : ReadsWithin (path.key "select") part
          (refuse .notObject (path.key "select") : Reading CountSelection) :=
        within_refuse nofun
      exact hrefused.member (mem_of_memberOf? hselect)
  · exact within_refuse nofun

/-! ### Payloads -/

mutual

/-- A key that is none of a payload is reported where it stands, and the others are read. -/
theorem within_queryMembers (path : Path) (acc : Query) : ∀ members all : List (String × Json),
    members ⊆ all → Yields (queryMembers path acc members) (fun _ => True) (PayloadError.Below path all)
  | [], _, _ => .ok trivial
  | (key, value) :: rest, all, hall => by
    rw [List.cons_subset] at hall
    have hrest (acc : Query) :
        Yields (queryMembers path acc rest) (fun _ => True) (PayloadError.Below path all) :=
      within_queryMembers path acc rest all hall.2
    have hbelow {α : Type} {r : Reading α} (hkey : key ∈ Query.payloadKeys)
        (hr : ReadsWithin (path.key key) value r) :
        Yields r (fun _ => True) (PayloadError.Below path all) :=
      hr.mono (fun _ _ => trivial) fun _ he => ⟨key, value, hall.1, he, .inl hkey⟩
    rw [queryMembers.eq_def]
    simp only
    split
    case h_1 => exact .andThen (hbelow (by decide) (within_filter _ value)) fun _ => hrest _
    case h_2 => exact .andThen (hbelow (by decide) (within_order _ value)) fun _ => hrest _
    case h_3 | h_4 =>
      exact .andThen (hbelow (by decide) (within_selection _ value)) fun _ => hrest _
    case h_5 | h_6 => exact .andThen (hbelow (by decide) within_natural) fun _ => hrest _
    case h_7 => exact .andThen (hbelow (by decide) (within_fieldNames _ value)) fun _ => hrest _
    case h_8 => exact .andThen (hbelow (by decide) (within_data _ value)) fun _ => hrest _
    case h_9 => exact .andThen (hbelow (by decide) within_boolean) fun _ => hrest _
    case h_10 => exact .error ⟨key, value, hall.1, within_here nofun, .inr rfl⟩

theorem within_selection (path : Path) : ∀ j : Json, ReadsWithin path j (selection path j)
  | .object members => by
    rw [selection]
    exact within_selectionMembers path members members (List.Subset.refl members)
  | .null => within_refuse nofun
  | .bool _ => within_refuse nofun
  | .int _ => within_refuse nofun
  | .float _ => within_refuse nofun
  | .string _ => within_refuse nofun
  | .array _ => within_refuse nofun

theorem within_selectionMembers (path : Path) : ∀ members all : List (String × Json),
    members ⊆ all → ReadsWithin path (.object all) (selectionMembers path members)
  | [], _, _ => .ok trivial
  | (name, value) :: rest, all, hall => by
    rw [List.cons_subset] at hall
    have hrest (taken : Selected) : ReadsWithin path (.object all) (do
        let more ← selectionMembers path rest
        pure ((name, taken) :: more)) :=
      .andThen (within_selectionMembers path rest all hall.2) fun _ => .pure trivial
    rw [selectionMembers.eq_def]
    simp only
    split
    · exact .andThen ((within_countSelection _ value).member hall.1) fun _ => hrest _
    · split
      · exact hrest _
      · next members =>
        have hquery := within_queryMembers (path.key name) {} members members
          (List.Subset.refl members)
        have hvalue : ReadsWithin (path.key name) (.object members)
            (queryMembers (path.key name) {} members) :=
          hquery.mono (fun _ _ => trivial) fun _ ⟨_, _, hmem, he, _⟩ => within_key hmem he
        exact .andThen (hvalue.member hall.1) fun _ => hrest _
      · have hrefused : ReadsWithin (path.key name) value
            (refuse .badSelection (path.key name) : Reading Selected) :=
          within_refuse nofun
        exact .andThen (hrefused.member hall.1) hrest

end

/-- The reading of a whole value, which stands at a path: something is read, or a fault is reported at
a position that the value has, in the words that messages have for it. -/
def Located (path : Path) (j : Json) (r : Reading α) : Prop :=
  (∃ a, r = .ok a) ∨
    ∃ fault p, r = .error ⟨fault, some (path ++ p)⟩ ∧ fault ≠ .ruledOut ∧ j.Has p ∧
      (path ++ p).render = (path ++ p).spelled

/-- Below a key that is not empty every position is in the right words. -/
theorem ReadsWithin.located {name : String} (hname : name ≠ "") {r : Reading α}
    (h : ReadsWithin [.key name] j r) : Located [.key name] j r := by
  cases r with
  | ok a => exact .inl ⟨a, rfl⟩
  | error e =>
    obtain ⟨fault, _⟩ := e
    obtain ⟨hfault, p, rfl, hhas⟩ := h
    exact .inr ⟨fault, p, rfl, hfault, hhas, Path.render_eq_spelled (.inl hname)⟩

/-- Whatever a payload is, it is read or its fault is at a position in it. -/
theorem faults_located (j : Json) :
    Located [] j (Query.ofJson j) ∧ Located [.key "where"] j (Filter.ofJson j) ∧
      Located [.key "orderBy"] j (OrderBy.ofJson j) := by
  refine ⟨?_, (within_filter _ j).located (by decide), (within_order _ j).located (by decide)⟩
  unfold Query.ofJson
  split
  · exact .inl ⟨_, rfl⟩
  · next members =>
    have hmembers := within_queryMembers [] {} members members (List.Subset.refl members)
    cases hread : queryMembers [] {} members with
    | ok q => exact .inl ⟨q, rfl⟩
    | error e =>
      rw [hread] at hmembers
      obtain ⟨fault, _⟩ := e
      obtain ⟨name, part, hmem, ⟨hfault, p, rfl, hhas⟩, hname⟩ := hmembers
      refine .inr ⟨fault, .key name :: p, rfl, hfault, .key hmem hhas, ?_⟩
      refine Path.render_eq_spelled (hname.imp (fun hkey => ?_) fun hhere => ?_)
      · -- No key of a payload is empty.
        exact ne_of_mem_of_not_mem hkey (by decide)
      · simpa [Path.key] using hhere
  · exact .inr ⟨.queryNotObject, [], rfl, nofun, .here j, rfl⟩

end Payload

end RelationalStore

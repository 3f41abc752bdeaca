import RelationalStore.Query.Payload
import RelationalStore.Proofs.OperationTriple

/- Which fields behind a relation a payload can name. The reader of payloads has no schema and takes
   an object for what its keys are: operators of a relation, operators of a field, a direction with
   `sort`, or else names of the related entity. So a name is read as a name unless it is one of
   these words, however many relations it stands behind (`filter_along`, `order_along`). The words
   that no field may be called (`Identifier.payloadWords`) are fewer: a field that is called as an
   operator is not found behind a relation. -/
namespace RelationalStore

/-- A string, a number or a boolean. -/
def Json.isLiteral : Json → Bool
  | .bool _ | .int _ | .float _ | .string _ => true
  | _ => false

/-- The direction as payloads write it. -/
def Direction.text : Direction → String
  | .asc => "asc"
  | .desc => "desc"

namespace Query

/-- The words that an object under a relation is recognised by: operators on its rows, or on a
field. -/
def operators : List String := relationOperators ++ fieldOperators

end Query

/-! ### Through relations -/

/-- A payload under the names of relations, one inside the other. -/
def Json.along : List String → Json → Json
  | [], j => j
  | name :: rest, j => .object [(name, j.along rest)]

/-- The filter with one condition on a field behind relations. -/
def Filter.along : List String → String → Condition → Filter
  | [], field, c => { conditions := [(field, c)] }
  | name :: rest, field, c => { conditions := [(name, .nested (along rest field c))] }

/-- The clause on a field behind relations. -/
def OrderBy.along : List String → String → OrderKey → OrderBy
  | [], field, key => ⟨field, key⟩
  | name :: rest, field, key => ⟨name, .relation [along rest field key]⟩

namespace Payload
variable {path : Path} {name field : String}

theorem keysWithin_singleton (j : Json) (keys : List String) :
    keysWithin [(name, j)] keys = keys.contains name := by
  simp [keysWithin]

/-- A name that is accepted for a field joins no filters. -/
theorem not_connective (h : Identifier.checkField name = .ok ()) :
    name ≠ "AND" ∧ name ≠ "OR" ∧ name ≠ "NOT" ∧ name ≠ "_count" := by
  unfold Identifier.checkField at h
  split at h
  · cases h
  · next hword => simpa [Identifier.payloadWords] using hword

/-- One member under the name of a field or relation is one condition. -/
theorem filterMembers_singleton (h : Identifier.checkField name = .ok ()) (j : Json) :
    filterMembers path {} [(name, j)] = (do
      let c ← condition (path.key name) j
      pure { conditions := [(name, c)] }) := by
  obtain ⟨hand, hor, hnot, -⟩ := not_connective h
  rw [filterMembers]
  · cases condition (path.key name) j <;> rfl
  · exact hand
  · exact hor
  · exact hnot

/-- An object with one member that is no operator is a filter on the related entity. -/
theorem condition_singleton (h : name ∉ Query.operators) (j : Json) :
    condition path (.object [(name, j)]) = (do
      let f ← filterMembers path {} [(name, j)]
      pure (.nested f)) := by
  simp only [Query.operators, List.mem_append, not_or] at h
  rw [condition]
  simp [keysWithin_singleton, h]

/-- An object with one operator is never a filter on the related entity. -/
theorem condition_operator (h : name ∈ Query.operators) (j : Json) (f : Filter) :
    condition path (.object [(name, j)]) ≠ .ok (.nested f) := by
  have hwithin : Query.relationOperators.contains name ∨ Query.fieldOperators.contains name := by
    simpa [Query.operators] using h
  rw [condition]
  simp only [List.isEmpty_cons, keysWithin_singleton]
  split
  · next hempty => cases hempty
  · split
    · cases relationTest path {} [(name, j)] <;> nofun
    · next hrelation =>
      rw [if_pos (hwithin.resolve_left hrelation)]
      cases scalarTest path {} [(name, j)] <;> nofun

theorem condition_literal {v : Json} (hv : v.isLiteral) : condition path v = .ok (.equals v) := by
  cases v <;> first | rfl | cases hv

/-- A field behind relations is found if neither it nor a relation after the first is called as an
operator. -/
theorem filter_along (names : List String) {v : Json} (hv : v.isLiteral)
    (hfield : Identifier.checkField field = .ok ())
    (hnames : ∀ name ∈ names, Identifier.checkField name = .ok ())
    (hwords : ∀ name ∈ (names ++ [field]).tail, name ∉ Query.operators) :
    filter path (.along names (.object [(field, v)])) =
      .ok (.along names field (.equals v)) := by
  induction names generalizing path with
  | nil =>
    rw [Json.along, filter, filterMembers_singleton hfield, condition_literal hv]
    rfl
  | cons first rest ih =>
    rw [List.forall_mem_cons] at hnames
    rw [Json.along, filter, filterMembers_singleton hnames.1]
    have hinner : condition (path.key first) (.along rest (.object [(field, v)])) =
        .ok (.nested (.along rest field (.equals v))) := by
      cases rest with
      | nil =>
        rw [Json.along, condition_singleton (hwords field (by simp)),
          filterMembers_singleton hfield, condition_literal hv]
        rfl
      | cons second rest =>
        have hfilter : filter (path.key first) (.along (second :: rest) (.object [(field, v)])) =
            .ok (.along (second :: rest) field (.equals v)) :=
          ih hnames.2 fun name hname => hwords name (List.mem_of_mem_tail hname)
        rw [Json.along, filter] at hfilter
        rw [Json.along, condition_singleton (hwords second (by simp)), hfilter]
        rfl
    rw [hinner]
    rfl

/-! ### Orders -/

theorem orderKey_text (d : Direction) : orderKey path (.string d.text) = .ok (.scalar d none) := by
  cases d <;> rfl

/-- An object with one member that is neither `sort` nor a count is an order of the related
entity. -/
theorem orderKey_singleton (hsort : name ≠ "sort") (hcount : name ≠ "_count") (j : Json) :
    orderKey path (.object [(name, j)]) = (do
      let clauses ← orderMembers path [(name, j)]
      pure (.relation clauses)) := by
  have hsort : hasKey [(name, j)] "sort" = false := by simp [hasKey, Json.memberOf?, hsort]
  have hcount : hasKey [(name, j)] "_count" = false := by simp [hasKey, Json.memberOf?, hcount]
  simp [orderKey, hsort, hcount]

/-- An object with a direction under `sort` orders by a field of the entity itself. -/
theorem orderKey_sort (d : Direction) :
    orderKey path (.object [("sort", .string d.text)]) = .ok (.scalar d none) := by
  cases d <;> rfl

/-- A field behind relations is found if neither it nor a relation after the first is called
`sort`. -/
theorem order_along (names : List String) (d : Direction)
    (hfield : Identifier.checkField field = .ok ())
    (hnames : ∀ name ∈ names, Identifier.checkField name = .ok ())
    (hwords : ∀ name ∈ (names ++ [field]).tail, name ≠ "sort") :
    order path (.along names (.object [(field, .string d.text)])) =
      .ok [.along names field (.scalar d none)] := by
  induction names generalizing path with
  | nil =>
    simp only [Json.along, order, orderObject, orderMembers, orderKey_text]
    rfl
  | cons first rest ih =>
    rw [List.forall_mem_cons] at hnames
    have hinner : orderKey (path.key first) (.along rest (.object [(field, .string d.text)])) =
        .ok (.relation [.along rest field (.scalar d none)]) := by
      cases rest with
      | nil =>
        rw [Json.along, orderKey_singleton (hwords field (by simp)) (not_connective hfield).2.2.2]
        simp only [orderMembers, orderKey_text]
        rfl
      | cons second rest =>
        have horder : order (path.key first)
            (.along (second :: rest) (.object [(field, .string d.text)])) =
              .ok [.along (second :: rest) field (.scalar d none)] :=
          ih hnames.2 fun name hname => hwords name (List.mem_of_mem_tail hname)
        have hcount := (not_connective (hnames.2 second List.mem_cons_self)).2.2.2
        rw [Json.along, order, orderObject] at horder
        rw [Json.along, orderKey_singleton (hwords second (by simp)) hcount, horder]
        · rfl
        · nofun
    rw [Json.along, order, orderObject, orderMembers, hinner]
    · rfl
    · nofun

/-! ### One relation -/

/-- A field is found behind a relation, in filters and in orders, if and only if it is not called as
an operator, for orders: not called `sort`. -/
theorem addresses_iff {rel f : String} (hrel : Identifier.checkField rel = .ok ())
    (hf : Identifier.checkField f = .ok ()) (path : Path) :
    (∀ v : Json, v.isLiteral →
      (filter path (.object [(rel, .object [(f, v)])]) =
          .ok { conditions := [(rel, .nested { conditions := [(f, .equals v)] })] } ↔
        f ∉ Query.operators)) ∧
      ∀ d : Direction,
        (order path (.object [(rel, .object [(f, .string d.text)])]) =
            .ok [⟨rel, .relation [⟨f, .scalar d none⟩]⟩] ↔ f ≠ "sort") := by
  constructor
  · intro v hv
    constructor
    · intro hread hword
      rw [filter, filterMembers_singleton hrel, Except.bind_eq_ok] at hread
      obtain ⟨c, hc, hone⟩ := hread
      cases hone
      exact condition_operator hword v _ hc
    · intro hword
      exact filter_along [rel] hv hf (by simpa using hrel) (by simpa using hword)
  · intro d
    constructor
    · intro hread hsort
      subst hsort
      rw [order, orderObject, orderMembers, orderKey_sort] at hread
      · cases hread
      · nofun
    · intro hsort
      exact order_along [rel] d hf (by simpa using hrel) (by simpa using hsort)

/-- The title of a book's author. -/
theorem addresses_iff_title :
    filter [] (.object [("author", .object [("title", .string "Dr")])]) =
        .ok { conditions := [("author", .nested { conditions := [("title", .equals (.string "Dr"))] })] } ∧
      order [] (.object [("author", .object [("title", .string "desc")])]) =
        .ok [⟨"author", .relation [⟨"title", .scalar .desc none⟩]⟩] := by
  have hauthor : Identifier.checkField "author" = .ok () := rfl
  have htitle : Identifier.checkField "title" = .ok () := rfl
  have hread := addresses_iff hauthor htitle []
  exact ⟨(hread.1 (.string "Dr") rfl).2 (by decide), (hread.2 .desc).2 (by decide)⟩

/-- Fields may be called `contains` or `sort`, and are not found behind a relation then: the first is
read as a test on the relation, the second as an order by the relation itself. -/
theorem misreads_operators :
    Identifier.checkField "author" = .ok () ∧ Identifier.checkField "contains" = .ok () ∧
      Identifier.checkField "sort" = .ok () ∧
      Filter.ofJson (.object [("author", .object [("contains", .string "x")])]) =
        .ok { conditions := [("author", .scalar { contains := some "x" })] } ∧
      Filter.ofJson (.object [("author", .object [("contains", .string "x")])]) ≠
        .ok { conditions :=
          [("author", .nested { conditions := [("contains", .equals (.string "x"))] })] } ∧
      OrderBy.ofJson (.object [("author", .object [("sort", .string "asc")])]) =
        .ok [⟨"author", .scalar .asc none⟩] ∧
      OrderBy.ofJson (.object [("author", .object [("sort", .string "asc")])]) ≠
        .ok [⟨"author", .relation [⟨"sort", .scalar .asc none⟩]⟩] := by
  refine ⟨rfl, rfl, rfl, rfl, ?_, rfl, ?_⟩
  · have hread : Filter.ofJson (.object [("author", .object [("contains", .string "x")])]) =
        .ok { conditions := [("author", .scalar { contains := some "x" })] } := rfl
    rw [hread]
    nofun
  · have hread : OrderBy.ofJson (.object [("author", .object [("sort", .string "asc")])]) =
        .ok [⟨"author", .scalar .asc none⟩] := rfl
    rw [hread]
    nofun

end Payload

end RelationalStore

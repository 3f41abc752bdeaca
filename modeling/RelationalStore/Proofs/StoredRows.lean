import RelationalStore.Engine.Request
import RelationalStore.Proofs.MapEntries
import RelationalStore.Proofs.SchemaResolution

/- Every row that a read gives is a row of a table. So whatever holds of the rows of all tables that
   a transaction has (`View.Gives`) holds of what it reads: by key, by an index, through a relation,
   by a filter or by a unique selector. -/
namespace RelationalStore
open SortedMap Read

namespace Table
variable {t : Table} {key : Key} {row : Row}

theorem mem_toList_of_get? (h : t.get? key = some row) : row ∈ t.toList := mem_values_of_get? h

theorem mem_toList_of_lookup {index : String} {rows : List Row}
    (h : t.lookup index key = .ok rows) : ∀ row ∈ rows, row ∈ t.toList := by
  unfold lookup at h
  split at h
  · cases h
    intro row hrow
    obtain ⟨k, -, hk⟩ := List.mem_filterMap.1 hrow
    exact mem_toList_of_get? hk
  · cases h

end Table

namespace View
variable {v : View} {Q : String → Row → Prop} {e : Entity}

/-- Every row that the view can have of a table satisfies `Q`. -/
def Gives (v : View) (Q : String → Row → Prop) : Prop :=
  ∀ n t, v.transaction.table v.tables n = .ok t → ∀ row ∈ t.toList, Q n row

/-- A reading of rows with `Q` of an entity of that name. -/
abbrev Reads (r : Read (List Row)) (Q : Row → Prop) : Prop :=
  Yields r (fun rows => ∀ row ∈ rows, Q row) fun _ => True

theorem Gives.table (h : v.Gives Q) (e : Entity) :
    Yields (v.table e) (fun t => ∀ row ∈ t.toList, Q e.name row) fun _ => True :=
  .of_ok (fun t ht => h e.name t ht) fun _ _ => trivial

theorem Gives.rows (h : v.Gives Q) (e : Entity) : Reads (v.rows e) (Q e.name) :=
  .bind (h.table e) fun _ ht => .pure ht

theorem Gives.row? (h : v.Gives Q) (e : Entity) (key : Key) :
    Yields (v.row? e key) (fun found => ∀ row ∈ found, Q e.name row) fun _ => True := by
  refine .bind (h.table e) fun t ht => .pure fun row hrow => ?_
  exact ht row (Table.mem_toList_of_get? hrow)

theorem Gives.rowsWhere (h : v.Gives Q) (e : Entity) (fields : List String) (key : Key) :
    Reads (v.rowsWhere e fields key) (Q e.name) := by
  refine .bind (h.table e) fun t ht => .ite (fun _ => .pure ?_) fun _ => ?_
  · intro row hrow
    exact ht row (Table.mem_toList_of_get? (by simpa using hrow))
  · split
    · refine .of_ok (fun rows hrows row hrow => ?_) fun _ _ => trivial
      exact ht row (Table.mem_toList_of_lookup hrows row hrow)
    · exact .pure fun row hrow => ht row (List.mem_filter.1 hrow).1

theorem Gives.relatedRows (h : v.Gives Q) (hs : v.schema.Resolved) (r : Relation) (row : Row) :
    Reads (v.relatedRows r row) (Q r.target) := by
  refine .ite (fun _ => .pure (by simp)) fun _ => ?_
  refine .bind (R := fun target => target.name = r.target) (.of_ok ?_ fun _ _ => trivial)
    fun target htarget => ?_
  · intro target htarget
    exact hs.name (Option.elim_ok_eq_ok.1 htarget)
  · rw [← htarget]
    exact h.rowsWhere target r.far _

theorem reads_select {rows : List Row} {Q : Row → Prop} (h : ∀ row ∈ rows, Q row) (v : View)
    (e : Entity) (f : Filter) : Reads (v.select e rows f) Q :=
  (Yields.filterM fun _ _ => .any).mono (fun _ hout row hrow => h row (hout.subset hrow))
    fun _ _ => trivial

/-- The rows that match are rows of the table, in the same order. -/
theorem matching_sublist (v : View) (e : Entity) (filter : Option Filter) :
    Yields (v.matching e filter) (fun rows => ∃ t, v.table e = .ok t ∧ rows.Sublist t.toList)
      fun _ => True := by
  refine .bind (R := fun rows => ∃ t, v.table e = .ok t ∧ rows = t.toList) ?_ fun rows hrows => ?_
  · exact .bind (.of_ok (fun t ht => ht) fun _ _ => trivial) fun t ht => .pure ⟨t, ht, rfl⟩
  · obtain ⟨t, ht, rfl⟩ := hrows
    split
    · exact (Yields.filterM fun _ _ => .any).mono (fun _ hout => ⟨t, ht, hout⟩) fun _ _ => trivial
    · exact .pure ⟨t, ht, .refl _⟩

theorem Gives.matching (h : v.Gives Q) (e : Entity) (filter : Option Filter) :
    Reads (v.matching e filter) (Q e.name) := by
  refine .bind (h.rows e) fun rows hrows => ?_
  split
  · exact reads_select hrows v e _
  · exact .pure hrows

theorem Gives.findUnique (h : v.Gives Q) (e : Entity) (selector : Filter) :
    Yields (v.findUnique e selector) (fun found => ∀ row ∈ found, Q e.name row) fun _ => True := by
  refine .bind .any fun fixed _ => ?_
  split
  · exact .throw trivial
  · have hfound (candidates : List Row) (hall : ∀ row ∈ candidates, Q e.name row) :
        Yields (candidates.findM? fun row => v.lets e row selector)
          (fun found => ∀ row ∈ found, Q e.name row) fun _ => True :=
      (Yields.findM? fun _ _ => .any).mono (fun _ hout row hrow => hall row (hout row hrow))
        fun _ _ => trivial
    refine .ite (fun _ => ?_) fun _ => ?_
    · refine .bind (h.row? e _) fun found hrow => hfound found.toList fun row hmem => ?_
      exact hrow row (by simpa using hmem)
    · refine .bind (h.table e) fun t ht => .bind (.of_ok ?_ fun _ _ => trivial) hfound
      intro rows hrows row hrow
      exact ht row (Table.mem_toList_of_lookup hrows row hrow)

end View

end RelationalStore

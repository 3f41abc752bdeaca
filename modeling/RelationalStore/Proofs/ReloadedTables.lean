import RelationalStore.Proofs.PairedTables

/- A file holds the rows of a table and not its keys, and a table is loaded by adding the rows one
   by one. No row is refused if no two of them share a value of a unique index, and the table that
   is made agrees with the first one (`Table.reload`). What the recursion carries is which rows are
   there already, each under the key that it has itself (`Table.Refills`): in the first table the
   key of a row can have another form, where the row was put in the place of one with an equal key. -/
namespace RelationalStore
open SortedMap

namespace Table
variable {D : Discipline} {κ : String → NumberClass} {V : String → Value → Prop} {t u : Table}
  {e : Key × Row}

/-- A row under the key that it has itself. -/
def ownEntry (t : Table) (e : Key × Row) : Key × Row := (t.keyOf e.2, e.2)

/-- A good table without rows may be filled with the rows of the table, each under its own key. -/
structure Refillable (D : Discipline) (t : Table) : Prop where
  good : D.Good t
  empty : D.Good (Table.ofDef t.definition)
  own : ∀ e ∈ t.rows.entries, D.Suits t.definition (t.keyOf e.2) (some e.2)

/-- The other table has rows of the table under keys of their own, and those of `rest` are still to
come. -/
structure Refills (D : Discipline) (t : Table) (rest : List (Key × Row)) (u : Table) : Prop where
  good : D.Good u
  definition : u.definition = t.definition
  mem : ∀ f, f ∈ u.rows.entries ↔ ∃ e ∈ t.rows.entries, e ∉ rest ∧ f = t.ownEntry e

namespace Refillable
variable (h : t.Refillable D)
include h

theorem compare_ownEntry (he : e ∈ t.rows.entries) {f : Key × Row}
    (hf : f ∈ t.rows.entries) (hc : compare (t.ownEntry e).1 (t.ownEntry f).1 = .eq) : e = f := by
  have ht := D.sound h.good
  have hK := Key.compare_isLE_trans D.classes t.definition.keyPath
  have hfits {e : Key × Row} (he : e ∈ t.rows.entries) :
      e.1.Fits D.classes t.definition.keyPath ∧ (t.keyOf e.2).Fits D.classes t.definition.keyPath :=
    ⟨ht.rows.keys e he, keyOf_fits (ht.fits e he)⟩
  refine eq_of_compare_eq hK ht.rows he hf ?_
  refine hK.eq_trans (hfits he).1 (hfits hf).2 (hfits hf).1 ?_
    (Std.OrientedCmp.eq_symm (ht.stored f hf))
  exact hK.eq_trans (hfits he).1 (hfits he).2 (hfits hf).2 (ht.stored e he) hc

end Refillable

namespace Refills
variable {rest : List (Key × Row)}

/-- The next row passes every check. -/
theorem passes (h : t.Refills D (e :: rest) u) (ht : t.Refillable D) (hunique : t.Unique)
    (he : e ∈ t.rows.entries) : (Call.add e.2).Passes u := by
  have hsound := D.sound ht.good
  have hkey : u.keyOf e.2 = t.keyOf e.2 := by rw [keyOf, keyOf, h.definition]
  have hfits : (t.keyOf e.2).Fits D.classes u.definition.keyPath := by
    rw [h.definition]
    exact keyOf_fits (hsound.fits e he)
  -- A row that is there already is another one.
  have hother {f : Key × Row} (hf : f ∈ u.rows.entries) :
      ∃ e' ∈ t.rows.entries, e' ≠ e ∧ f = t.ownEntry e' := by
    obtain ⟨e', he', hrest, rfl⟩ := (h.mem f).1 hf
    exact ⟨e', he', fun heq => hrest (by simp [heq]), rfl⟩
  rw [Call.Passes, hkey]
  refine ⟨?_, ?_, ?_⟩
  · rw [← Key.hasNull_eq_of_compare (hsound.stored e he)]
    exact hsound.nonnull e he
  · refine (get?_none_iff (D.sound h.good).rows hfits).2 fun f hf hc => ?_
    obtain ⟨e', he', hne, rfl⟩ := hother hf
    exact hne (ht.compare_ownEntry he he' hc).symm
  · refine ((D.sound h.good).checkUnique_iff ?_).2 fun i hi hu hn f hf hshare => ?_
    · rw [h.definition]
      exact hsound.fits e he
    · obtain ⟨e', he', hne, rfl⟩ := hother hf
      rw [h.definition] at hi
      exact absurd (hunique i hi hu e he e' he' hn hshare).symm hne

/-- The table with the next row. -/
theorem next (h : t.Refills D (e :: rest) u) (ht : t.Refillable D) (he : e ∈ t.rows.entries)
    (hrest : e ∉ rest) : t.Refills D rest (u.restore (t.keyOf e.2) (some e.2)) := by
  have hsuits : D.Suits u.definition (t.keyOf e.2) (some e.2) := by
    rw [h.definition]
    exact ht.own e he
  refine ⟨D.restore h.good hsuits, by rw [definition_restore, h.definition], fun f => ?_⟩
  rw [mem_restore (D.sound h.good).rows (D.accepts hsuits).fits]
  constructor
  · rintro (⟨row, hrow, rfl⟩ | ⟨hf, -⟩)
    · cases hrow
      exact ⟨e, he, hrest, rfl⟩
    · obtain ⟨e', he', hnot, rfl⟩ := (h.mem f).1 hf
      exact ⟨e', he', fun hmem => hnot (List.mem_cons_of_mem e hmem), rfl⟩
  · rintro ⟨e', he', hnot, rfl⟩
    by_cases heq : e' = e
    · exact .inl ⟨e.2, rfl, by rw [heq]; rfl⟩
    · refine .inr ⟨(h.mem _).2 ⟨e', he', by simp [heq, hnot], rfl⟩, fun hc => ?_⟩
      exact heq (ht.compare_ownEntry he he' hc).symm

/-- All that are still to come are added. -/
theorem foldlM (h : t.Refills D rest u) (ht : t.Refillable D) (hunique : t.Unique)
    (hmem : ∀ e ∈ rest, e ∈ t.rows.entries) (hnodup : rest.Nodup) :
    ∃ u', (rest.map (·.2)).foldlM (fun u row => (u.add row).map (·.2)) u = .ok u' ∧
      t.Refills D [] u' := by
  induction rest generalizing u with
  | nil => exact ⟨u, rfl, h⟩
  | cons e rest ih =>
    rw [List.forall_mem_cons] at hmem
    rw [List.nodup_cons] at hnodup
    have hadd : (u.add e.2).map (·.2) = .ok (u.restore (t.keyOf e.2) (some e.2)) := by
      have hkey : Call.key u.definition (.add e.2) = t.keyOf e.2 := by
        rw [h.definition]
        rfl
      rw [← hkey]
      exact Call.perform_eq_ok_iff.2 ⟨h.passes ht hunique hmem.1, rfl⟩
    obtain ⟨u', hu', hdone⟩ := ih (h.next ht hmem.1 hnodup.1) hmem.2 hnodup.2
    refine ⟨u', ?_, hdone⟩
    rw [List.map_cons, List.foldlM_cons, hadd]
    exact hu'

/-- With every row the tables agree. -/
theorem agrees (h : t.Refills D [] u) (ht : t.Refillable D) : t.Agrees D u where
  left := ht.good
  right := h.good
  definition := h.definition.symm
  rows := by
    have hK := Key.compare_isLE_trans D.classes t.definition.keyPath
    have hsound := D.sound ht.good
    have hright := (D.sound h.good).rows
    rw [Table.Ordered, h.definition] at hright
    refine Alike.of_mem hK hsound.rows hright (fun e he => ?_) fun f hf => ?_
    · exact ⟨t.ownEntry e, (h.mem _).2 ⟨e, he, by simp, rfl⟩, hsound.stored e he, rfl⟩
    · obtain ⟨e, he, -, rfl⟩ := (h.mem f).1 hf
      exact ⟨e, he, hsound.stored e he, rfl⟩

end Refills

/-- A table without shared values is made of its rows again. -/
theorem Refillable.reload (h : t.Refillable D) (hunique : t.Unique) :
    ∃ u, ofRows t.definition t.toList = .ok u ∧ t.Agrees D u := by
  have hstart : t.Refills D t.rows.entries (Table.ofDef t.definition) := by
    refine ⟨h.empty, rfl, fun f => ⟨fun hf => absurd hf List.not_mem_nil, ?_⟩⟩
    rintro ⟨e, he, hnot, -⟩
    exact absurd he hnot
  have hnodup : t.rows.entries.Nodup := by
    refine (D.sound h.good).rows.sorted.imp fun hlt heq => ?_
    rw [heq, Std.ReflOrd.compare_self] at hlt
    cases hlt
  obtain ⟨u, hu, hrefills⟩ := hstart.foldlM h hunique (fun _ he => he) hnodup
  exact ⟨u, hu, hrefills.agrees h⟩

/-- Tables with the same rows agree: both agree with the table that is made of them. -/
theorem Refillable.agrees_of_toList (h : t.Refillable D) (hunique : t.Unique) (hu : u.Refillable D)
    (hunique' : u.Unique) (hd : t.definition = u.definition) (hrows : t.toList = u.toList) :
    t.Agrees D u := by
  obtain ⟨x, hx, htx⟩ := h.reload hunique
  obtain ⟨y, hy, huy⟩ := hu.reload hunique'
  rw [hd, hrows, hy] at hx
  cases hx
  exact htx.trans huy.symm

theorem Of.refillable (h : t.Of κ V) : t.Refillable (.of κ V) where
  good := h
  empty := .ofDef t.definition
  own e he := by
    refine bears_own (h.within e he) (h.values e he) ?_
    rw [← keyOf, ← Key.hasNull_eq_of_compare (h.stored e he)]
    exact h.nonnull e he

theorem Of.reload (h : t.Of κ V) (hunique : t.Unique) :
    ∃ u, ofRows t.definition t.toList = .ok u ∧ t.Agrees (.of κ V) u :=
  h.refillable.reload hunique

theorem Typed.refillable {kinds : String → ScalarKind} (h : t.Typed kinds) :
    t.Refillable (.ofKinds kinds) where
  good := h
  empty := .ofDef t.definition
  own e he := by
    refine TableDef.types_own (h.values e he) ?_
    rw [← keyOf, ← Key.hasNull_eq_of_compare (h.stored e he)]
    exact h.nonnull e he

end Table

end RelationalStore

import RelationalStore.Proofs.RecordedRequests

/- Deletions keep the ledger of an operation, and with them every request that writes. The rows
   whose deletion is open are still there (`Stands` with the keys of open deletions among the keys
   that are known): nothing but its own deletion takes a row away, and a deletion that is nested in
   others is of a row whose deletion had not begun. So each of them, when it comes to an end,
   deletes a row that is there. -/
namespace RelationalStore
open SortedMap Read

theorem Entity.keysOf_singleton_union (e : Entity) (row : Row) (K : Set (String × Key)) :
    e.keysOf [row] ∪ K = insert (e.name, e.keyOf row) K := by
  ext p
  simp [Entity.keysOf]

namespace Ledger
open Operation
variable {l : Ledger} {K B : Set (String × Key)} {e child : Entity} {row : Row} {α : Type}

/-- The operation keeps the ledger, but for the row with a key, which it may take away. -/
abbrev Spends (l : Ledger) (K B : Set (String × Key)) (p : String × Key) (op : Operation α) : Prop :=
  Triple (l.Stands (insert p K) B) op (fun _ w => l.Stands K B w ∧ True)
    fun _ w => l.Stands K B w ∧ True

theorem Spends.of_carries {p : String × Key} {op : Operation α} {Q : α → Prop}
    (h : Carries (l.Stands (insert p K) B) op Q) : l.Spends K B p op :=
  Triple.mono h (fun _ hw => hw) (fun _ _ hw => ⟨hw.1.mono (Set.subset_insert p K) subset_rfl, trivial⟩)
    fun _ _ hw => ⟨hw.1.mono (Set.subset_insert p K) subset_rfl, trivial⟩

/-- A deletion that is nested in open ones begins with a row of its own. -/
theorem beginDelete_stands (hopen : K ⊆ B) {key : Key} :
    Triple (l.Stands (insert (e.name, key) K) B) (beginDelete e key)
      (fun fresh w => if fresh then (e.name, key) ∉ K ∧
          l.Stands (insert (e.name, key) K) (insert (e.name, key) B) w
        else l.Stands K B w)
      fun _ w => l.Stands K B w ∧ True := by
  refine Triple.get fun w hw => Triple.ite (fun _ => ?_) fun hnew => ?_
  · refine Triple.pure fun w' hw' => ?_
    subst hw'
    exact hw.mono (Set.subset_insert _ K) subset_rfl
  · refine fun w' _ => ⟨fun hmem => hnew ?_, ?_⟩
    · refine List.any_eq_true.2 ⟨(e.name, key), hw.begun _ (hopen hmem), ?_⟩
      simp [Key.equiv, Std.ReflOrd.compare_self]
    · refine ⟨⟨hw.sorted, hw.records, hw.replayed⟩, hw.keys, fun p hp => ?_⟩
      rcases hp with rfl | hp
      · exact List.mem_cons_self
      · exact List.mem_cons_of_mem _ (hw.begun p hp)

theorem carries_clearKey (hc : l.schema.entity? child.name = some child) {r : Relation}
    (hr : r ∈ child.owningRelations) (hkey : (child.name, child.keyOf row) ∈ K) :
    Carries (l.Stands K B) (clearKey (child.dependentOf r) child row) fun _ => True := by
  have hcleared : child.keyOf (r.near.foldl (fun row f => row.insert f .null) row) =
      child.keyOf row :=
    Entity.keyOf_foldl (fun f hf row =>
      Entity.keyOf_insert ((l.alone.entity l.resolved hc).near hr f hf) .null row) row
  refine Keeps.bind (touch_stands hc _) fun next hnext => ?_
  have hsame : child.keyOf next = child.keyOf row := hnext.trans hcleared
  exact Triple.bind (replaceRow_owes hc (by rwa [hsame]) hsame) fun _ => note_stands child .update _

/-- Each row is read again, so it is there when something is done to it. -/
theorem carries_forEachPresent (hc : l.schema.entity? child.name = some child) (rows : List Row)
    {f : Row → Operation Unit} (hf : ∀ row, l.Spends K B (child.name, child.keyOf row) (f row)) :
    Carries (l.Stands K B) (forEachPresent l.schema child rows f) fun _ => True := by
  refine Keeps.forM fun row _ => Triple.bind (R := fun found w =>
    l.Stands (child.keysOf found.toList ∪ K) B w) ?_ fun found => ?_
  · refine look_stands hc fun v _ hgives => ?_
    exact (hgives.row? child _).mono (fun _ h => by simpa using h) fun _ h => h
  · split
    · next current =>
      rw [Option.toList_some, Entity.keysOf_singleton_union]
      exact hf current
    · exact Triple.pure fun _ h => ⟨h.mono Set.subset_union_right subset_rfl, trivial⟩

/-- What is done to the dependents through one relation. -/
theorem carries_settleDependents (row : Row) (he : l.schema.entity? e.name = some e) {d : Dependent}
    (hd : d ∈ e.dependents) {f : Entity → Row → Operation Unit}
    (hf : ∀ child, l.schema.entity? child.name = some child → ∀ row,
      l.Spends K B (child.name, child.keyOf row) (f child row)) :
    Carries (l.Stands K B) (settleDependents l.schema e row f d) fun _ => True := by
  obtain ⟨c, hc, r, hr, -, rfl⟩ := (l.resolved.dependents he d).1 hd
  unfold settleDependents
  refine Triple.ite (fun _ => Keeps.pure trivial) fun _ => ?_
  refine Keeps.bind (carries_require l.resolved _) fun child hchild => ?_
  obtain ⟨hchild, hname⟩ := hchild
  cases Schema.entity_inj hchild hc hname
  refine Keeps.andThen (Keeps.look fun _ _ => .any) fun rows => ?_
  split
  · exact Keeps.pure trivial
  · exact Triple.ite (fun _ => Keeps.throw trivial) fun _ => Keeps.pure trivial
  · exact carries_forEachPresent hc rows fun row => hf c hc row
  · exact carries_forEachPresent hc rows fun row =>
      .of_carries (carries_clearKey hc hr (Set.mem_insert _ K))

/-- The row of a deletion that had begun before is left to that deletion. -/
theorem spends_deleteWithin (depth : Nat) (hopen : K ⊆ B) (he : l.schema.entity? e.name = some e)
    (row : Row) : l.Spends K B (e.name, e.keyOf row) (deleteWithin l.schema depth e row) := by
  induction depth generalizing K B e row with
  | zero => exact .of_carries (Q := fun _ => True) (Keeps.pure trivial)
  | succ depth ih =>
    have hsettled : Carries (l.Stands (insert (e.name, e.keyOf row) K) (insert (e.name, e.keyOf row) B))
        (e.dependents.forM (settleDependents l.schema e row (deleteWithin l.schema depth)))
        fun _ => True :=
      Keeps.forM fun d hd => carries_settleDependents row he hd fun child hchild row =>
        ih (Set.insert_subset_insert hopen) hchild row
    refine Triple.bind (beginDelete_stands hopen) fun fresh => Triple.ite (fun hfresh => ?_) fun hold => ?_
    · simp only [if_pos hfresh]
      refine Triple.of_eq fun w hw => ?_
      have hclosed {w' : Work} (h : l.Stands K (insert (e.name, e.keyOf row) B) w' ∧ True) :
          l.Stands K B w' ∧ True :=
        ⟨h.1.mono subset_rfl (Set.subset_insert _ B), trivial⟩
      refine Triple.mono (Triple.bind (Triple.mono hsettled (fun _ h => h) (fun _ _ h => h.1)
        fun _ _ h => ?_) fun _ => deleteRow_stands he hw.1) (fun _ hw' => hw' ▸ hw.2)
        (fun _ _ => hclosed) fun _ _ => hclosed
      exact ⟨h.1.mono (Set.subset_insert _ K) subset_rfl, trivial⟩
    · simp only [if_neg hold]
      exact Triple.pure fun _ hw => ⟨hw, trivial⟩

theorem spends_delete (he : l.schema.entity? e.name = some e) (row : Row) :
    l.Spends ∅ ∅ (e.name, e.keyOf row) (delete l.schema e row) :=
  Triple.get fun _ hw => Triple.mono (spends_deleteWithin _ subset_rfl he row) (fun _ h => h ▸ hw)
    (fun _ _ h => h) fun _ _ h => h

end Ledger

/-! ### Requests -/

namespace Request
open Operation Ledger
variable {l : Ledger} {e : Entity} {q : Query} {α : Type} {r : Request α}

/-- Every request that writes notes what it writes. -/
theorem Writes.carries (h : r.Writes q) (he : l.schema.entity? e.name = some e) :
    Carries (l.Stands ∅ ∅) (r.operation l.schema e) fun _ => True := by
  have hlook {β : Type} (reading : View → Read β) :
      Carries (l.Stands ∅ ∅) (look l.schema reading) fun _ => True :=
    Keeps.look fun _ _ => .any
  have hcreate (data : WriteData) :
      Carries (l.Stands ∅ ∅) (Operation.create l.schema e ∅ data) fun _ => True :=
    carries_createRow he .empty data
  have hfound (selector : Filter) : Triple (l.Stands ∅ ∅)
      (look l.schema fun v => v.findUnique e selector >>= fun found => requireFound e found)
      (fun row w => l.Stands (e.keysOf [row] ∪ ∅) ∅ w) fun _ w => l.Stands ∅ ∅ w ∧ True := by
    refine look_stands he fun v _ hgives => .bind (hgives.findUnique e selector) fun found hfound => ?_
    exact .elim (.error trivial) fun row hrow => .ok (by simpa using hfound row hrow)
  cases h with
  | create =>
    refine Keeps.andThen (Keeps.ofExcept .any) fun data => ?_
    refine Keeps.andThen (Keeps.ofExcept .any) fun _ => ?_
    exact Keeps.andThen (hcreate data) fun _ => hlook _
  | createMany =>
    refine Keeps.andThen ?_ fun _ => Keeps.pure trivial
    exact (Keeps.insertBatch (fun _ => trivial) fun data _ => hcreate data).mono
      (fun _ _ => trivial) fun _ h => h
  | createManyAndReturn =>
    refine Keeps.andThen ?_ fun _ => hlook _
    exact (Keeps.insertBatch (fun _ => trivial) fun data _ => hcreate data).mono
      (fun _ _ => trivial) fun _ h => h
  | update =>
    refine Keeps.andThen (Keeps.ofExcept .any) fun selector => ?_
    refine Keeps.andThen (Keeps.ofExcept .any) fun data => ?_
    refine Keeps.andThen (Keeps.ofExcept .any) fun _ => ?_
    refine carries_bind (M := fun row => e.keysOf [row]) (hfound selector) fun row => ?_
    refine Keeps.andThen (carries_update he data (.inl ⟨row, by simp, rfl⟩)) fun _ => ?_
    exact Keeps.look fun _ _ => .any
  | updateMany =>
    refine Keeps.andThen (Keeps.ofExcept .any) fun data => ?_
    refine Triple.ite (fun _ => Keeps.throw trivial) fun _ => ?_
    refine carries_bind (M := e.keysOf) (look_stands he fun v _ hgives => ?_) fun rows => ?_
    · exact hgives.matching e q.filter
    · refine Keeps.andThen (Keeps.forM fun row hrow => ?_) fun _ => Keeps.pure trivial
      exact Keeps.discard (carries_update he data (.inl ⟨row, hrow, rfl⟩))
  | delete =>
    refine Keeps.andThen (Keeps.ofExcept .any) fun selector => ?_
    refine Triple.bind (hfound selector) fun row => ?_
    rw [Entity.keysOf_singleton_union]
    have hstays {β : Type} (reading : View → Read β) :
        Carries (l.Stands (insert (e.name, e.keyOf row) ∅) ∅) (look l.schema reading) fun _ => True :=
      Keeps.look fun _ _ => .any
    refine Triple.bind (Triple.mono (hstays _) (fun _ h => h) (fun _ _ h => h.1) fun _ _ h =>
      ⟨h.1.mono (Set.subset_insert _ ∅) subset_rfl, trivial⟩) fun record => ?_
    exact Triple.bind (spends_delete he row) fun _ => Triple.pure fun _ h => h
  | deleteMany =>
    -- Each row is read again, since the deletion of another one may have taken or changed it.
    refine Keeps.andThen (hlook _) fun rows => Keeps.foldlM trivial fun n _ row _ => ?_
    refine Triple.bind (R := fun found w => l.Stands (e.keysOf found.toList ∪ ∅) ∅ w) ?_ fun found => ?_
    · refine look_stands he fun v _ hgives => ?_
      exact (hgives.row? e _).mono (fun _ h => by simpa using h) fun _ h => h
    · split
      · next current =>
        rw [Option.toList_some, Entity.keysOf_singleton_union]
        exact Triple.bind (spends_delete he current) fun _ => Triple.pure fun _ h => h
      · exact Triple.pure fun _ h => ⟨h.mono (Set.empty_subset _) subset_rfl, trivial⟩

end Request

end RelationalStore

import Mathlib.Data.List.Perm.Subperm
import RelationalStore.Proofs.ScopedQueries

/- Deletions stay in scope. Which rows a deletion reaches depends on the data, and the walk of
   `Engine.Scope` looks at no row: it closes the name of the entity under cascades, once for each
   entity of the schema, and takes in the entities that depend on any of those. That many rounds are
   enough, because every round that changes anything adds an entity (`closed_cascadeClosure`). The
   deletion itself goes from an entity of the closure to its dependents only. -/
namespace RelationalStore
open SortedMap Read

/-! ### The closure under cascades -/

namespace Schema
variable {s : Schema} {names : SortedSet String} {n : String}

/-- Rows of `child` are deleted with rows of `parent`. -/
def Cascades (s : Schema) (parent child : String) : Prop :=
  ∃ e, s.entity? parent = some e ∧ ∃ d ∈ e.dependents, d.onDelete = .cascade ∧ d.entity = child

theorem mem_keys_add {k : String} (h : Ordered names) :
    n ∈ SortedMap.keys (SortedSet.add names k) ↔ n = k ∨ n ∈ names.keys := by
  rw [SortedSet.add, h.insert.mem_keys_iff, h.mem_keys_iff, get?_insert_eq]
  split
  · next hk => simp [hk]
  · next hk => simp [Ne.symm hk]

theorem mem_keys_foldl_add (h : Ordered names) (ds : List Dependent) :
    Ordered (ds.foldl (fun all d => SortedSet.add all d.entity) names) ∧
      ∀ n, n ∈ (ds.foldl (fun all d => SortedSet.add all d.entity) names).keys ↔
        n ∈ names.keys ∨ ∃ d ∈ ds, d.entity = n := by
  induction ds generalizing names with
  | nil => exact ⟨h, by simp⟩
  | cons d ds ih =>
    have hadd : Ordered (SortedSet.add names d.entity) := h.insert
    obtain ⟨ho, hmem⟩ := ih hadd
    refine ⟨ho, fun n => ?_⟩
    rw [List.foldl_cons, hmem, mem_keys_add h]
    simp only [List.mem_cons, exists_eq_or_imp]
    constructor
    · intro hcase
      rcases hcase with (rfl | hn) | hn
      · exact .inr (.inl rfl)
      · exact .inl hn
      · exact .inr (.inr hn)
    · intro hcase
      rcases hcase with hn | rfl | hn
      · exact .inl (.inr hn)
      · exact .inl (.inl rfl)
      · exact .inr hn

theorem ordered_addCascaded (h : Ordered names) : Ordered (s.addCascaded names) :=
  (mem_keys_foldl_add h _).1

/-- One round adds what the names so far cascade to. -/
theorem mem_addCascaded (h : Ordered names) :
    n ∈ (s.addCascaded names).keys ↔ n ∈ names.keys ∨ ∃ m ∈ names.keys, s.Cascades m n := by
  rw [addCascaded, (mem_keys_foldl_add h _).2]
  apply or_congr_right
  simp only [List.mem_flatMap, Cascades]
  constructor
  · intro hex
    obtain ⟨d, ⟨m, hm, hd⟩, rfl⟩ := hex
    cases he : s.entity? m with
    | none => simp [he] at hd
    | some e =>
      simp only [he, Option.elim, List.mem_filter, decide_eq_true_eq] at hd
      exact ⟨m, hm, e, he, d, hd.1, hd.2, rfl⟩
  · intro hex
    obtain ⟨m, hm, e, he, d, hd, hcascade, rfl⟩ := hex
    refine ⟨d, ⟨m, hm, ?_⟩, rfl⟩
    simp only [he, Option.elim, List.mem_filter, decide_eq_true_eq]
    exact ⟨hd, hcascade⟩

/-- Whatever the names cascade to is among them. -/
def Closed (s : Schema) (names : SortedSet String) : Prop :=
  ∀ m ∈ names.keys, ∀ n, s.Cascades m n → n ∈ names.keys

/-- A round changes nothing or adds a name. -/
theorem closed_or_grows (h : Ordered names) :
    s.Closed names ∨ names.keys.length < (s.addCascaded names).keys.length := by
  by_cases hclosed : s.Closed names
  · exact .inl hclosed
  · simp only [Closed, not_forall] at hclosed
    obtain ⟨m, hm, n, hcascades, hnew⟩ := hclosed
    refine .inr ?_
    -- The missing name and those from before are all there after the round, and are distinct.
    have hnodup : (n :: names.keys).Nodup := List.nodup_cons.2 ⟨hnew, h.nodup_keys⟩
    refine (List.subperm_of_subset hnodup fun k hk => ?_).length_le
    rcases List.mem_cons.1 hk with rfl | hk
    · exact (mem_addCascaded h).2 (.inr ⟨m, hm, hcascades⟩)
    · exact (mem_addCascaded h).2 (.inl hk)

theorem Closed.addCascaded (hclosed : s.Closed names) (h : Ordered names) :
    s.Closed (s.addCascaded names) := by
  have hsame (k : String) : k ∈ (s.addCascaded names).keys → k ∈ names.keys := by
    intro hk
    rcases (mem_addCascaded h).1 hk with hk | ⟨m, hm, hcascades⟩
    · exact hk
    · exact hclosed m hm k hcascades
  intro m hm n hcascades
  exact (mem_addCascaded h).2 (.inl (hclosed m (hsame m hm) n hcascades))

/-- What `k` rounds come to: the first name, and entities of the schema; closed, or more names
than rounds. -/
theorem repeat_addCascaded (hs : s.Resolved) {e : Entity} (he : s.entity? e.name = some e)
    (k : Nat) :
    let names := Nat.repeat s.addCascaded k (SortedSet.ofList [e.name])
    Ordered names ∧ e.name ∈ names.keys ∧ (∀ n ∈ names.keys, (s.entity? n).isSome) ∧
      (s.Closed names ∨ k < names.keys.length) := by
  induction k with
  | zero =>
    refine ⟨ordered_ofList _, mem_keys_set.2 (by simp), fun n hn => ?_, .inr ?_⟩
    · rw [List.mem_singleton.1 (mem_keys_set.1 hn), he]
      rfl
    · exact List.length_pos_of_mem (mem_keys_set.2 (List.mem_singleton_self e.name))
  | succ k ih =>
    obtain ⟨ho, hfirst, hentities, hgrowth⟩ := ih
    refine ⟨ordered_addCascaded ho, (mem_addCascaded ho).2 (.inl hfirst), fun n hn => ?_, ?_⟩
    · rcases (mem_addCascaded ho).1 hn with hn | ⟨m, -, c, hc, d, hd, -, rfl⟩
      · exact hentities n hn
      · obtain ⟨child, hchild, -⟩ := (hs.dependents hc d).1 hd
        rw [hchild]
        rfl
    · rcases hgrowth with hclosed | hlong
      · exact .inl (hclosed.addCascaded ho)
      · rcases closed_or_grows ho with hclosed | hgrows
        · exact .inl (hclosed.addCascaded ho)
        · exact .inr (by simp only [Nat.repeat]; omega)

/-- As many rounds as there are entities are enough. -/
theorem closed_cascadeClosure (hs : s.Resolved) {e : Entity} (he : s.entity? e.name = some e) :
    e.name ∈ (s.cascadeClosure e).keys ∧ s.Closed (s.cascadeClosure e) := by
  obtain ⟨ho, hfirst, hentities, hgrowth⟩ := repeat_addCascaded hs he s.entities.size
  refine ⟨hfirst, hgrowth.resolve_right fun hlong => ?_⟩
  -- There cannot be more names than the schema has entities.
  have hsub : (s.cascadeClosure e).keys ⊆ s.entities.keys :=
    fun n hn => hs.ordered.mem_keys_iff.2 (hentities n hn)
  have hle := (List.subperm_of_subset ho.nodup_keys hsub).length_le
  have hsize : s.entities.keys.length = s.entities.size := List.length_map _
  rw [hsize] at hle
  exact absurd hlong (Nat.not_lt.2 hle)

/-- A dependent that does anything is among the tables of the deletion. -/
theorem mem_dependentTables {e c : Entity} {d : Dependent} (hn : n ∈ (s.cascadeClosure e).keys)
    (hc : s.entity? n = some c) (hd : d ∈ c.dependents) (hacts : d.onDelete ≠ .noAction) :
    d.entity ∈ s.dependentTables e := by
  refine List.mem_flatMap.2 ⟨n, hn, ?_⟩
  rw [hc]
  exact List.mem_map_of_mem (List.mem_filter.2 ⟨hd, by simpa using hacts⟩)

end Schema

/-! ### Writes -/

namespace Transaction
variable {tx : Transaction} {tables : Tables} {name : String}

/-- A write goes on in the same scope and takes no table away. -/
def Goes (tx : Transaction) (tables : Tables) (next : Transaction × Tables) : Prop :=
  next.1.scope = tx.scope ∧ ∀ n, (tables.get? n).isSome → (next.2.get? n).isSome

theorem goes_insert (u : Undo) (t : Table) : tx.Goes tables (tx.note u, tables.insert name t) := by
  refine ⟨rfl, fun n hn => ?_⟩
  simp only [get?_insert_eq]
  split
  · rfl
  · exact hn

theorem tableToWrite_inScope (h : tx.Sees tables name) :
    Yields (tx.tableToWrite tables name) (fun _ => True) Error.InScope := by
  refine .bind (table_inScope h) fun t _ => ?_
  exact .ite (fun _ => .pure trivial) fun _ => .throw nofun

theorem requireKey_inScope (t : Table) (row : Row) :
    Yields (t.requireKey row) (fun _ => True) Error.InScope :=
  .ite (fun _ => .error nofun) fun _ => .ok trivial

theorem checkUnique_inScope (t : Table) (key : Key) (row : Row) :
    Yields (t.checkUnique key row) (fun _ => True) Error.InScope := by
  unfold Table.checkUnique
  split
  · exact .error nofun
  · exact .ok trivial

theorem put_inScope (h : tx.Sees tables name) (row : Row) :
    Yields (tx.put tables name row) (fun r => tx.Goes tables r.2) Error.InScope := by
  refine .andThen (tableToWrite_inScope h) fun t => ?_
  have hput : Yields (t.put row) (fun _ => True) Error.InScope := by
    refine .andThen (requireKey_inScope t row) fun key => ?_
    exact .andThen (checkUnique_inScope t key row) fun _ => .pure trivial
  exact .andThen hput fun _ => .pure (goes_insert _ _)

theorem delete_inScope (h : tx.Sees tables name) (key : Key) :
    Yields (tx.delete tables name key) (fun r => tx.Goes tables r.2) Error.InScope := by
  refine .andThen (tableToWrite_inScope h) fun t => ?_
  split
  · exact .pure ⟨rfl, fun _ hn => hn⟩
  · exact .pure (goes_insert _ _)

end Transaction

/-- The work is in a transaction over the tables of the scope, and they all exist. -/
structure Work.Covers (scope : List String) (w : Work) : Prop where
  same : w.transaction.scope = scope
  exist : ∀ n ∈ scope, (w.tables.get? n).isSome

namespace Operation
variable {scope : List String} {s : Schema} {e : Entity}

/-- The operation stays in scope, where it has all the tables of the scope. -/
abbrev Scoped {α : Type} (scope : List String) (op : Operation α) : Prop :=
  Keeps (Work.Covers scope) op (fun _ => True) Error.InScope

theorem sees_of_covers {w : Work} (h : w.Covers scope) {n : String} (hn : n ∈ scope) :
    w.transaction.Sees w.tables n :=
  ⟨by rw [h.same]; exact hn, h.exist n hn⟩

theorem scoped_look {α : Type} {reading : View → Read α}
    (h : ∀ v : View, v.schema = s → (∀ n ∈ scope, v.Sees n) → Read.Scoped (reading v)) :
    Scoped scope (look s reading) :=
  Keeps.look fun _ hw => h _ rfl fun _ hn => sees_of_covers hw hn

theorem scoped_ofExcept {α : Type} {r : Except Error α} (h : Read.Scoped r) :
    Scoped scope (MonadExcept.ofExcept r) :=
  Keeps.ofExcept h

theorem scoped_settle {α : Type} {w : Work} (hw : w.Covers scope)
    {outcome : Except Error (α × Transaction × Tables)}
    (h : Yields outcome (fun r => w.transaction.Goes w.tables r.2) Error.InScope) :
    Triple (· = w) (settle outcome) (fun _ w => w.Covers scope)
      fun e w => w.Covers scope ∧ e.InScope := by
  refine Triple.settle (h.mono (fun r hgoes => ?_) fun _ he => ⟨hw, he⟩)
  obtain ⟨hscope, hexist⟩ := hgoes
  exact ⟨hscope.trans hw.same, fun n hn => hexist n (hw.exist n hn)⟩

theorem scoped_note (kind : ChangeKind) (key : Key) : Scoped scope (note e kind key) :=
  Triple.modify fun _ hw => ⟨⟨hw.same, hw.exist⟩, trivial⟩

theorem scoped_touch (row : Row) : Scoped scope (touch e row) := by
  refine Keeps.andThen (Triple.get fun w hw => ?_) fun _ => Keeps.pure trivial
  refine Triple.bind (R := fun _ w' => w'.Covers scope) (fun w' hw' => ?_) fun _ =>
    Triple.pure fun w' hw' => ⟨hw', trivial⟩
  exact ⟨hw.same, hw.exist⟩

theorem scoped_putRow (h : e.name ∈ scope) (row : Row) : Scoped scope (putRow e row) :=
  Triple.get fun _ hw =>
    (scoped_settle hw (Transaction.put_inScope (sees_of_covers hw h) row)).mono (fun _ h => h)
      (fun _ _ h => ⟨h, trivial⟩) fun _ _ h => h

theorem scoped_deleteRow (h : e.name ∈ scope) (key : Key) : Scoped scope (deleteRow e key) :=
  Triple.get fun _ hw =>
    Triple.bind (R := fun _ w => w.Covers scope)
      (Triple.bind (scoped_settle hw (Transaction.delete_inScope (sees_of_covers hw h) key))
        fun _ => Triple.pure fun _ h => h)
      fun _ => scoped_note .delete key

theorem scoped_beginDelete (key : Key) : Scoped scope (beginDelete e key) := by
  refine Triple.get fun w hw => Triple.ite (fun _ => ?_) fun _ => ?_
  · intro w' heq
    subst heq
    exact ⟨hw, trivial⟩
  · intro w' heq
    subst heq
    exact ⟨⟨hw.same, hw.exist⟩, trivial⟩

theorem scoped_require (name : String) :
    Keeps (Work.Covers scope) (MonadExcept.ofExcept (s.require name))
      (fun e => s.entity? name = some e) Error.InScope :=
  Keeps.ofExcept (s.scoped_require name)

/-! ### The deletion -/

theorem scoped_clearKey {d : Dependent} {child : Entity} (h : child.name ∈ scope) (row : Row) :
    Scoped scope (clearKey d child row) := by
  refine Keeps.andThen (scoped_touch _) fun row => ?_
  refine Keeps.andThen (Keeps.discard (scoped_putRow h row)) fun _ => scoped_note _ _

theorem scoped_forEachPresent (h : e.name ∈ scope) (rows : List Row)
    {f : Row → Operation Unit} (hf : ∀ row, Scoped scope (f row)) :
    Scoped scope (forEachPresent s e rows f) := by
  refine Keeps.forM fun row _ => ?_
  refine Keeps.andThen (scoped_look fun v _ hv => View.scoped_row? (hv _ h) _) fun found => ?_
  split
  · exact hf _
  · exact Keeps.pure trivial

/-- The tables that a deletion from an entity can come to are in the scope. -/
structure DeletesWithin (s : Schema) (root : Entity) (scope : List String) : Prop where
  closed : s.Closed (s.cascadeClosure root)
  dependents : ∀ n ∈ s.dependentTables root, n ∈ scope

theorem scoped_settleDependents (hs : s.Resolved) {root : Entity}
    (hroot : DeletesWithin s root scope) {deleteChild : Entity → Row → Operation Unit}
    (hchild : ∀ child row, s.entity? child.name = some child →
      child.name ∈ (s.cascadeClosure root).keys → child.name ∈ scope →
      Scoped scope (deleteChild child row))
    (he : s.entity? e.name = some e) (hin : e.name ∈ (s.cascadeClosure root).keys) (row : Row)
    {d : Dependent} (hd : d ∈ e.dependents) :
    Scoped scope (settleDependents s e row deleteChild d) := by
  unfold settleDependents
  refine Triple.ite (fun _ => Keeps.pure trivial) fun hacts => ?_
  have hacts : d.onDelete ≠ .noAction := fun h => by simp [h] at hacts
  refine Keeps.bind (scoped_require d.entity) fun child hfound => ?_
  have hname : child.name = d.entity := hs.name hfound
  have hscope : child.name ∈ scope := by
    rw [hname]
    exact hroot.dependents _ (Schema.mem_dependentTables hin he hd hacts)
  refine Keeps.andThen (scoped_look fun v _ hv => View.scoped_rowsWhere (hv _ hscope) _ _)
    fun rows => ?_
  split
  · exact Keeps.pure trivial
  · exact Triple.ite (fun _ => Keeps.throw nofun) fun _ => Keeps.pure trivial
  · -- Only a cascade goes on, and it goes on within the closure.
    next hcascade =>
    refine scoped_forEachPresent hscope rows fun row => hchild child row ?_ ?_ hscope
    · rw [hname]
      exact hfound
    · rw [hname]
      exact hroot.closed e.name hin d.entity ⟨e, he, d, hd, hcascade, rfl⟩
  · exact scoped_forEachPresent hscope rows fun row => scoped_clearKey hscope row

theorem scoped_deleteWithin (hs : s.Resolved) {root : Entity} (hroot : DeletesWithin s root scope)
    (depth : Nat) : ∀ (e : Entity) (row : Row), s.entity? e.name = some e →
      e.name ∈ (s.cascadeClosure root).keys → e.name ∈ scope →
      Scoped scope (deleteWithin s depth e row) := by
  induction depth with
  | zero => exact fun e row _ _ _ => Keeps.pure trivial
  | succ depth ih =>
    intro e row he hin hscope
    refine Keeps.andThen (scoped_beginDelete _) fun fresh => ?_
    refine Triple.ite (fun _ => ?_) fun _ => Keeps.pure trivial
    refine Keeps.andThen (Keeps.forM fun d hd => ?_) fun _ => scoped_deleteRow hscope _
    exact scoped_settleDependents hs hroot ih he hin row hd

theorem scoped_delete (hs : s.Resolved) (hroot : DeletesWithin s e scope)
    (he : s.entity? e.name = some e) (hscope : e.name ∈ scope) (row : Row) :
    Scoped scope (delete s e row) := by
  have hin := (Schema.closed_cascadeClosure hs he).1
  exact Triple.get fun w hw => Triple.mono
    (scoped_deleteWithin hs hroot _ e row he hin hscope) (fun _ h => h ▸ hw) (fun _ _ h => h)
    fun _ _ h => h

end Operation

end RelationalStore

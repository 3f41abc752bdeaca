import RelationalStore.Proofs.CreationRuns
import RelationalStore.Proofs.RecordedRequests

/- The writes of single rows that a creation or an update comes down to, in order. A tracer goes
   along with an operation and gives each write with the tables right after it, up to where the
   operation fails. `Schema.Follows` says that tables come from others by the writes of a trace:
   each does what its kind says (`Schema.Wrote`), and nothing else is written. `Operation.Recounts`
   says this of an operation and its tracer; it has one rule for each way in which operations are
   put together. -/
namespace RelationalStore
open SortedMap Read Operation

/-! ### Tracers -/

/-- A write of one row. -/
inductive Touch where
  /-- A new row, with the relation and the parent that it is made for, if there is one. -/
  | stored (e : Entity) (origin : Option (Relation × Row)) (row : Row)
  /-- A row that was there gets the key of a parent. -/
  | connected (r : Relation) (target : Entity) (parent child : Row)
  /-- A row that was there loses the key of its parent. -/
  | released (r : Relation) (target : Entity) (child : Row)
  /-- A row that was there gets the values of an update. -/
  | updated (e : Entity) (row : Row)

/-- The entity whose table is written to. -/
def Touch.entity : Touch → Entity
  | .stored e _ _ | .updated e _ => e
  | .connected _ target _ _ | .released _ target _ => target

/-- The writes of an operation that starts with some work, each with the tables right after it. -/
abbrev Tracer := Work → List (Touch × Tables)

namespace Tracer
variable {α β : Type}

/-- Nothing is written. -/
def silent : Tracer := fun _ => []

/-- The operation is one write. -/
def mark (touch : Touch) (op : Operation α) : Tracer := fun w =>
  match op.run w with
  | .ok _ w' => [(touch, w'.tables)]
  | .error _ _ => []

/-- First something that writes nothing. -/
def after (x : Operation α) (f : α → Tracer) : Tracer := fun w =>
  match x.run w with
  | .ok a w' => f a w'
  | .error _ _ => []

/-- One operation after the other. -/
def bind (x : Operation α) (trace : Tracer) (f : α → Tracer) : Tracer := fun w =>
  trace w ++ after x f w

/-- The same for each item. -/
def each (f : β → Operation Unit) (trace : β → Tracer) : List β → Tracer
  | [] => silent
  | b :: rest => bind (f b) (trace b) fun _ => each f trace rest

end Tracer

/-! ### What a write does -/

/-- A row is there under its key, and differs in the foreign key and the times of the last write at
most. -/
def Tables.HasLike (tables : Tables) (r : Relation) (target : Entity) (child : Row) : Prop :=
  ∃ current, tables.Has target.name current ∧ target.keyOf current = target.keyOf child ∧
    ∀ f, f ∉ r.far → f ∉ target.stamps → current.value f = child.value f

/-- A row that was read is put back with another foreign key. -/
structure Schema.Rekeyed (s : Schema) (r : Relation) (target : Entity) (child next : Row)
    (tables tables' : Tables) : Prop where
  held : s.Held r target
  stores : target.Stores next tables tables'
  same : ∀ f, f ∉ r.far → f ∉ target.stamps → next.value f = child.value f
  current : target.KeyAlone → tables.HasLike r target child

/-- A row that is made for a parent has the parent's key, as far as that is not null; a field that needs
a value has one. -/
structure Schema.MadeFor (s : Schema) (r : Relation) (target : Entity) (parent row : Row) : Prop where
  held : s.Held r target
  same : ∀ f, ((r.childLink parent).value f).isNull = false → row.value f = (r.childLink parent).value f
  needed : ∀ f ∈ r.far, ((target.field? f).any fun g => g.required || g.id) = true →
    (row.value f).isNull = false

/-- What a write makes of the tables. A row is updated only if it is one of `updating`. -/
inductive Schema.Wrote (s : Schema) (updating : Entity → Row → Prop) (tables : Tables) :
    Touch → Tables → Prop
  | stored {e : Entity} {origin : Option (Relation × Row)} {row : Row} {tables' : Tables}
      (entity : s.entity? e.name = some e) (stores : e.Stores row tables tables')
      (new : ∀ x, tables.Has e.name x → compare (e.keyOf row) (e.keyOf x) ≠ .eq)
      (made : ∀ p ∈ origin, s.MadeFor p.1 e p.2 row) :
      Wrote s updating tables (.stored e origin row) tables'
  | connected {r : Relation} {target : Entity} {parent child next : Row} {tables' : Tables}
      (rekeyed : s.Rekeyed r target child next tables tables')
      (linked : ∀ f ∈ r.far, f ∉ target.stamps → next.value f = (r.childLink parent).value f) :
      Wrote s updating tables (.connected r target parent child) tables'
  | released {r : Relation} {target : Entity} {child next : Row} {tables' : Tables}
      (rekeyed : s.Rekeyed r target child next tables tables') :
      Wrote s updating tables (.released r target child) tables'
  | updated {e : Entity} {row next : Row} {tables' : Tables} (entity : s.entity? e.name = some e)
      (given : updating e row) (stores : e.Stores next tables tables')
      (key : e.KeyAlone → e.keyOf next = e.keyOf row) :
      Wrote s updating tables (.updated e row) tables'

/-- The tables come from others by the writes of a trace and by nothing else. -/
inductive Schema.Follows (s : Schema) (κ : String → String → NumberClass)
    (updating : Entity → Row → Prop) : Tables → List (Touch × Tables) → Tables → Prop
  | nil {tables : Tables} : Follows s κ updating tables [] tables
  | cons {tables next last : Tables} {touch : Touch} {rest : List (Touch × Tables)}
      (first : s.Wrote updating tables touch next) (holds : s.Holds κ next)
      (more : Follows s κ updating next rest last) :
      Follows s κ updating tables ((touch, next) :: rest) last

variable {s : Schema} {κ : String → String → NumberClass} {updating : Entity → Row → Prop}
  {e target : Entity} {r : Relation}

namespace Schema.Rekeyed
variable {child next : Row} {T T' : Tables}

/-- Where the primary key is not written to, the row is put back under its own. -/
theorem keyOf (h : s.Rekeyed r target child next T T') (hs : s.Resolved) (halone : target.KeyAlone) :
    target.keyOf next = target.keyOf child :=
  Key.ofRow_eq fun f hf =>
    h.same f (fun hfar => halone.far hs h.held f hfar hf) (halone f hf).1

/-- So is any row that is another or the very same. -/
theorem hasLike (h : s.Rekeyed r target child next T T') (hs : s.Resolved) (halone : target.KeyAlone)
    {row : Row} (hrow : T.HasLike r target row)
    (hown : compare (target.keyOf child) (target.keyOf row) = .eq → row = child) :
    T'.HasLike r target row := by
  obtain ⟨current, hcurrent, hkey, hsame⟩ := hrow
  -- The write replaces the row itself or is under another key.
  by_cases hreplaced : compare (target.keyOf child) (target.keyOf row) = .eq
  · obtain rfl := hown hreplaced
    exact ⟨next, h.stores.has, h.keyOf hs halone, h.same⟩
  · refine ⟨current, (h.stores _ _).2 (.inr ⟨hcurrent, fun _ => ?_⟩), hkey, hsame⟩
    rwa [h.keyOf hs halone, hkey]

end Schema.Rekeyed

namespace Schema.Follows
variable {T T' T'' : Tables} {trace more : List (Touch × Tables)}

theorem holds (h : s.Follows κ updating T trace T') (hT : s.Holds κ T) : s.Holds κ T' := by
  induction h with
  | nil => exact hT
  | cons _ hnext _ ih => exact ih hnext

theorem append (h : s.Follows κ updating T trace T') (h' : s.Follows κ updating T' more T'') :
    s.Follows κ updating T (trace ++ more) T'' := by
  induction h with
  | nil => exact h'
  | cons hfirst hnext _ ih => exact .cons hfirst hnext (ih h')

/-- A write in the trace, with the tables before it and what comes later. -/
theorem split {touch : Touch} {next : Tables}
    (h : s.Follows κ updating T (trace ++ (touch, next) :: more) T') (hT : s.Holds κ T) :
    ∃ before, s.Holds κ before ∧ s.Wrote updating before touch next ∧ s.Holds κ next ∧
      s.Follows κ updating next more T' := by
  induction trace generalizing T with
  | nil =>
    cases h with
    | cons hfirst hnext hmore => exact ⟨T, hT, hfirst, hnext, hmore⟩
  | cons step rest ih =>
    cases h with
    | cons _ hnext hmore => exact ih hmore hnext

end Schema.Follows

/-! ### Operations and their tracers -/

namespace Operation
variable {T : Tables} {α β : Type} {Q : α → Tables → Prop} {R : β → Tables → Prop}

/-- From the tables the operation goes on to others by the writes that the tracer gives, whether it
fails or not; its result has `Q`. -/
abbrev Recounts (s : Schema) (κ : String → String → NumberClass) (updating : Entity → Row → Prop)
    (T : Tables) (op : Operation α) (trace : Tracer) (Q : α → Tables → Prop) : Prop :=
  ∀ w, w.tables = T →
    match op.run w with
    | .ok a w' => s.Follows κ updating T (trace w) w'.tables ∧ Q a w'.tables
    | .error _ w' => s.Follows κ updating T (trace w) w'.tables

namespace Recounts
variable {op : Operation α} {trace : Tracer} {x : Operation β} {f : β → Operation α}
  {traces : β → Tracer} {P : β → Prop}

theorem mono {Q' : α → Tables → Prop} (h : Recounts s κ updating T op trace Q')
    (hQ : ∀ a T', Q' a T' → Q a T') : Recounts s κ updating T op trace Q := by
  intro w hw
  have hrun := h w hw
  cases hr : op.run w with
  | ok a w' =>
    rw [hr] at hrun
    exact ⟨hrun.1, hQ a w'.tables hrun.2⟩
  | error err w' =>
    rw [hr] at hrun
    exact hrun

theorem still {P : α → Prop} (h : Still T op P) (hQ : ∀ a, P a → Q a T) :
    Recounts s κ updating T op .silent Q := by
  intro w hw
  have hrun := h w hw
  cases hr : op.run w with
  | ok a w' =>
    rw [hr] at hrun
    simp only [hrun.1]
    exact ⟨.nil, hQ a hrun.2⟩
  | error err w' =>
    rw [hr] at hrun
    simp only [hrun.1]
    exact .nil

theorem pure {a : α} (h : Q a T) : Recounts s κ updating T (Pure.pure a) .silent Q :=
  still (P := fun b => b = a) (Keeps.pure rfl) fun _ ha => ha ▸ h

theorem throw {err : Error} : Recounts s κ updating T (MonadExcept.throw err : Operation α) .silent Q :=
  still (P := fun _ => False) (Keeps.throw trivial) fun _ h => h.elim

theorem ite {p : Prop} [Decidable p] {y : Operation α} {other : Tracer}
    (hx : p → Recounts s κ updating T op trace Q) (hy : ¬ p → Recounts s κ updating T y other Q) :
    Recounts s κ updating T (if p then op else y) (if p then trace else other) Q := by
  by_cases h : p
  · simp only [h, if_true]
    exact hx h
  · simp only [h, if_false]
    exact hy h

/-- An operation that is one write or fails without it. -/
theorem mark {touch : Touch} (h : Triple (fun w => w.tables = T) op
    (fun a w => s.Wrote updating T touch w.tables ∧ s.Holds κ w.tables ∧ Q a w.tables)
    fun _ w => w.tables = T) : Recounts s κ updating T op (.mark touch op) Q := by
  intro w hw
  have hrun := h w hw
  rw [Tracer.mark]
  cases hr : op.run w with
  | ok a w' =>
    rw [hr] at hrun
    exact ⟨.cons hrun.1 hrun.2.1 .nil, hrun.2.2⟩
  | error err w' =>
    rw [hr] at hrun
    simp only [show w'.tables = T from hrun]
    exact .nil

theorem after (hx : Still T x P) (hf : ∀ b, P b → Recounts s κ updating T (f b) (traces b) Q) :
    Recounts s κ updating T (x >>= f) (.after x traces) Q := by
  intro w hw
  have hrun := hx w hw
  rw [EStateM.run_bind, Tracer.after]
  cases hr : x.run w with
  | ok b w' =>
    rw [hr] at hrun
    exact hf b hrun.2 w' hrun.1
  | error err w' =>
    rw [hr] at hrun
    simp only [hrun.1]
    exact .nil

section
variable (hT : s.Holds κ T)
include hT

theorem bind (hx : Recounts s κ updating T x trace R) (hf : ∀ b T', s.Holds κ T' → R b T' →
    Recounts s κ updating T' (f b) (traces b) Q) :
    Recounts s κ updating T (x >>= f) (.bind x trace traces) Q := by
  intro w hw
  have hrun := hx w hw
  rw [EStateM.run_bind, Tracer.bind, Tracer.after]
  cases hr : x.run w with
  | ok b w' =>
    rw [hr] at hrun
    obtain ⟨hfollows, hR⟩ := hrun
    have hrest := hf b w'.tables (hfollows.holds hT) hR w' rfl
    simp only
    cases hr' : (f b).run w' with
    | ok a w'' =>
      rw [hr'] at hrest
      exact ⟨hfollows.append hrest.1, hrest.2⟩
    | error err w'' =>
      rw [hr'] at hrest
      exact hfollows.append hrest
  | error err w' =>
    rw [hr] at hrun
    simpa using hrun

/-- In the end something that writes nothing. -/
theorem last (hx : Recounts s κ updating T x trace R) (hf : ∀ b T', s.Holds κ T' → R b T' →
    Still T' (f b) fun a => Q a T') : Recounts s κ updating T (x >>= f) trace Q := by
  intro w hw
  have hrun := hx w hw
  rw [EStateM.run_bind]
  cases hr : x.run w with
  | ok b w' =>
    rw [hr] at hrun
    obtain ⟨hfollows, hR⟩ := hrun
    have hrest := hf b w'.tables (hfollows.holds hT) hR w' rfl
    simp only
    cases hr' : (f b).run w' with
    | ok a w'' =>
      rw [hr'] at hrest
      simp only [hrest.1]
      exact ⟨hfollows, hrest.2⟩
    | error err w'' =>
      rw [hr'] at hrest
      simp only [hrest.1]
      exact hfollows
  | error err w' =>
    rw [hr] at hrun
    exact hrun

theorem discard (h : Recounts s κ updating T x trace R) :
    Recounts s κ updating T (discard x) trace fun _ _ => True :=
  last hT h fun _ _ _ _ => Keeps.pure trivial

/-- A loop, in which what holds of the tables goes on to hold. -/
theorem each {l : List β} {g : β → Operation Unit} {I : Tables → Prop} (hI : I T)
    (hg : ∀ b ∈ l, ∀ T', s.Holds κ T' → I T' →
      Recounts s κ updating T' (g b) (traces b) fun _ => I) :
    Recounts s κ updating T (l.forM g) (.each g traces l) fun _ => I := by
  induction l generalizing T with
  | nil => exact pure hI
  | cons b l ih =>
    refine bind hT (hg b List.mem_cons_self T hT hI) fun _ T' hT' hI' => ?_
    exact ih hT' hI' fun b' hb' => hg b' (List.mem_cons_of_mem b hb')

end

/-- What is passed over has written up to where it failed. -/
theorem skipDuplicate {creation : Operation Row} {Q : Row → Tables → Prop}
    (h : Recounts s κ updating T creation trace Q) (skip : Bool) :
    Recounts s κ updating T (skipDuplicate skip creation) trace fun _ _ => True := by
  intro w hw
  have hrun := h w hw
  rw [run_skipDuplicate]
  cases hr : creation.run w with
  | ok row w' =>
    rw [hr] at hrun
    exact ⟨hrun.1, trivial⟩
  | error err w' =>
    rw [hr] at hrun
    -- Where the failure is passed over, the trace up to it is that of the whole.
    cases err with
    | uniqueViolation entity fields =>
      cases skip with
      | false => exact hrun
      | true => exact ⟨hrun, trivial⟩
    | _ => exact hrun

/-- What the result has in any case. -/
theorem besides {P : α → Prop} (h : Recounts s κ updating T op trace Q)
    (h' : Keeps (fun _ => True) op P fun _ => True) :
    Recounts s κ updating T op trace fun a T' => Q a T' ∧ P a := by
  intro w hw
  have hrun := h w hw
  have hresult := h' w trivial
  cases hr : op.run w with
  | ok a w' =>
    rw [hr] at hrun hresult
    exact ⟨hrun.1, hrun.2, hresult.2⟩
  | error err w' =>
    rw [hr] at hrun
    exact hrun

end Recounts

end Operation

end RelationalStore

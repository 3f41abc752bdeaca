import Mathlib.Data.List.Forall2
import RelationalStore.Engine.Operation

/- What running something leads to. `Read.Yields` is about a reading: what it gives, or the error it
   fails with; `Read.Unless` is about two of them, which are the same unless the first fails for one
   of some reasons. `Operation.Triple` is about an operation: from a state where `P` holds it ends
   in a state where `Q` holds of the result, or fails where `E` holds of the error; a failed
   operation keeps what it had done, so its state matters too. `Operation.Coincides` is about two of
   them that do the same from there. Each has one rule for each way in which bigger ones are put
   together, and later proofs follow the code by these rules alone. -/
namespace RelationalStore

/-! ### Success -/

section Success
variable {ε α β : Type} {a : α} {b : β}

theorem Except.bind_eq_ok {x : Except ε α} {f : α → Except ε β} :
    (x >>= f) = .ok b ↔ ∃ a, x = .ok a ∧ f a = .ok b := by
  cases x <;> simp [bind, Except.bind]

theorem Except.map_eq_ok {x : Except ε α} {f : α → β} :
    x.map f = .ok b ↔ ∃ a, x = .ok a ∧ f a = b := by
  cases x <;> simp [Except.map]

theorem Except.map_eq_error {x : Except ε α} {f : α → β} {e : ε} :
    x.map f = .error e ↔ x = .error e := by
  cases x <;> simp [Except.map]

theorem Except.toOption_eq_some {ε α : Type*} {x : Except ε α} {a : α} :
    x.toOption = some a ↔ x = .ok a := by
  cases x <;> simp [Except.toOption]

theorem Except.toOption_eq_none {x : Except ε α} : x.toOption = none ↔ ∃ e, x = .error e := by
  cases x <;> simp [Except.toOption]

theorem Except.isOk_eq_false {x : Except ε α} : x.isOk = false ↔ ∃ e, x = .error e := by
  cases x <;> simp [Except.isOk, Except.toBool]

theorem Except.mapM_eq_ok {f : α → Except ε β} {as : List α} {bs : List β} :
    as.mapM f = .ok bs ↔ List.Forall₂ (fun a b => f a = .ok b) as bs := by
  induction as generalizing bs with
  | nil =>
    cases bs with
    | nil => simp [pure, Except.pure]
    | cons b bs => simp [pure, Except.pure]
  | cons a as ih =>
    simp only [List.mapM_cons, Except.bind_eq_ok, ih]
    constructor
    · intro hex
      obtain ⟨b, hb, bs', hbs, h⟩ := hex
      cases h
      exact .cons hb hbs
    · intro h
      cases h with
      | cons hb hbs => exact ⟨_, hb, _, hbs, rfl⟩

theorem Option.elim_ok_eq_ok {x : Option α} {e : ε} :
    x.elim (.error e) Except.ok = .ok a ↔ x = some a := by
  cases x <;> simp

end Success

/-! ### Readings -/

namespace Read
variable {ε α β : Type} {Q : α → Prop} {R : β → Prop} {E : ε → Prop}

/-- The error that something fails with. -/
def fault? (r : Except ε α) : Option ε :=
  match r with
  | .ok _ => none
  | .error e => some e

@[simp] theorem fault?_eq_some {r : Except ε α} {e : ε} : fault? r = some e ↔ r = .error e := by
  cases r <;> simp [fault?]

/-- The reading gives something with `Q`, or fails with an error with `E`. -/
def Yields (r : Except ε α) (Q : α → Prop) (E : ε → Prop) : Prop :=
  match r with
  | .ok a => Q a
  | .error e => E e

namespace Yields

theorem ok {a : α} (h : Q a) : Yields (.ok a) Q E := h

theorem any {r : Except ε α} : Yields r (fun _ => True) fun _ => True := by
  cases r <;> trivial

theorem pure {a : α} (h : Q a) : Yields (Pure.pure a) Q E := h

theorem error {e : ε} (h : E e) : Yields (.error e : Except ε α) Q E := h

theorem throw {e : ε} (h : E e) : Yields (MonadExcept.throw e : Except ε α) Q E := h

theorem mono {r : Except ε α} {Q' : α → Prop} {E' : ε → Prop} (h : Yields r Q' E')
    (hQ : ∀ a, Q' a → Q a) (hE : ∀ e, E' e → E e) : Yields r Q E := by
  cases r with
  | ok a => exact hQ a h
  | error e => exact hE e h

/-- It is enough to know of the result that it is one. -/
theorem of_ok {r : Except ε α} (hQ : ∀ a, r = .ok a → Q a) (hE : ∀ e, r = .error e → E e) :
    Yields r Q E := by
  cases r with
  | ok a => exact hQ a rfl
  | error e => exact hE e rfl

theorem bind {r : Except ε β} {f : β → Except ε α} (hr : Yields r R E)
    (hf : ∀ b, R b → Yields (f b) Q E) : Yields (r >>= f) Q E := by
  cases r with
  | ok b => exact hf b hr
  | error e => exact hr

/-- Whatever the first gives. -/
theorem andThen {r : Except ε β} {f : β → Except ε α} (hr : Yields r (fun _ => True) E)
    (hf : ∀ b, Yields (f b) Q E) : Yields (r >>= f) Q E :=
  bind hr fun b _ => hf b

theorem ite {c : Prop} [Decidable c] {r s : Except ε α} (hr : c → Yields r Q E)
    (hs : ¬ c → Yields s Q E) : Yields (if c then r else s) Q E := by
  by_cases h : c
  · simp only [h, if_true]; exact hr h
  · simp only [h, if_false]; exact hs h

theorem mapM {l : List β} {f : β → Except ε α} (hf : ∀ b ∈ l, Yields (f b) Q E) :
    Yields (l.mapM f) (fun as => ∀ a ∈ as, Q a) E := by
  induction l with
  | nil => exact pure (by simp)
  | cons b l ih =>
    rw [List.mapM_cons]
    refine bind (hf b List.mem_cons_self) fun a ha => ?_
    refine bind (ih fun b' hb' => hf b' (List.mem_cons_of_mem b hb')) fun as has => ?_
    exact pure (by simpa using ⟨ha, has⟩)

theorem foldlM {l : List β} {f : α → β → Except ε α} {a : α} (ha : Q a)
    (hf : ∀ a, Q a → ∀ b ∈ l, Yields (f a b) Q E) : Yields (l.foldlM f a) Q E := by
  induction l generalizing a with
  | nil => exact pure ha
  | cons b l ih =>
    rw [List.foldlM_cons]
    refine bind (hf a ha b List.mem_cons_self) fun a' ha' => ?_
    exact ih ha' fun a ha b' hb' => hf a ha b' (List.mem_cons_of_mem b hb')

theorem forM {l : List β} {f : β → Except ε Unit} (hf : ∀ b ∈ l, Yields (f b) (fun _ => True) E) :
    Yields (l.forM f) (fun _ => True) E := by
  induction l with
  | nil => exact trivial
  | cons b l ih =>
    refine bind (hf b List.mem_cons_self) fun _ _ => ?_
    exact ih fun b' hb' => hf b' (List.mem_cons_of_mem b hb')

theorem filterAuxM {l : List β} {f : β → Except ε Bool} (hf : ∀ b ∈ l, Yields (f b) (fun _ => True) E) :
    ∀ acc : List β, Yields (l.filterAuxM f acc)
      (fun out => ∃ kept : List β, kept.Sublist l ∧ out = kept.reverse ++ acc) E := by
  induction l with
  | nil => exact fun acc => pure ⟨[], .slnil, rfl⟩
  | cons b l ih =>
    intro acc
    rw [List.filterAuxM]
    refine bind (hf b List.mem_cons_self) fun p _ => ?_
    refine mono (ih (fun b' hb' => hf b' (List.mem_cons_of_mem b hb')) _) ?_ fun _ he => he
    intro out hout
    obtain ⟨kept, hkept, rfl⟩ := hout
    cases p with
    | false => exact ⟨kept, hkept.cons b, rfl⟩
    | true => exact ⟨b :: kept, hkept.cons_cons b, by simp⟩

/-- What passes a filter was there before, in the same order. -/
theorem filterM {l : List β} {f : β → Except ε Bool} (hf : ∀ b ∈ l, Yields (f b) (fun _ => True) E) :
    Yields (l.filterM f) (fun out => out.Sublist l) E := by
  refine bind (filterAuxM hf []) fun out hout => pure ?_
  obtain ⟨kept, hkept, rfl⟩ := hout
  simpa using hkept

theorem anyM {l : List β} {f : β → Except ε Bool} (hf : ∀ b ∈ l, Yields (f b) (fun _ => True) E) :
    Yields (l.anyM f) (fun _ => True) E := by
  induction l with
  | nil => exact trivial
  | cons b l ih =>
    refine bind (hf b List.mem_cons_self) fun p _ => ?_
    cases p with
    | true => exact pure trivial
    | false => exact ih fun b' hb' => hf b' (List.mem_cons_of_mem b hb')

theorem allM {l : List β} {f : β → Except ε Bool} (hf : ∀ b ∈ l, Yields (f b) (fun _ => True) E) :
    Yields (l.allM f) (fun _ => True) E := by
  induction l with
  | nil => exact trivial
  | cons b l ih =>
    refine bind (hf b List.mem_cons_self) fun p _ => ?_
    cases p with
    | true => exact ih fun b' hb' => hf b' (List.mem_cons_of_mem b hb')
    | false => exact pure trivial

/-- What is found was there. -/
theorem findM? {l : List β} {f : β → Except ε Bool} (hf : ∀ b ∈ l, Yields (f b) (fun _ => True) E) :
    Yields (l.findM? f) (fun found => ∀ b ∈ found, b ∈ l) E := by
  induction l with
  | nil => exact pure (by simp)
  | cons b l ih =>
    refine bind (hf b List.mem_cons_self) fun p _ => ?_
    cases p with
    | true => exact pure (by simp)
    | false =>
      refine mono (ih fun b' hb' => hf b' (List.mem_cons_of_mem b hb')) ?_ fun _ he => he
      exact fun found h b' hb' => List.mem_cons_of_mem b (h b' hb')

theorem elim {x : Option β} {r : Except ε α} {f : β → Except ε α} (hr : Yields r Q E)
    (hf : ∀ b ∈ x, Yields (f b) Q E) : Yields (x.elim r f) Q E := by
  cases x with
  | none => exact hr
  | some b => exact hf b rfl

section
variable {E : Error → Prop}

theorem and {a b : Read Bool} (ha : Yields a (fun _ => True) E) (hb : Yields b (fun _ => True) E) :
    Yields (a.and b) (fun _ => True) E :=
  bind ha fun _ _ => ite (fun _ => hb) fun _ => pure trivial

theorem not {a : Read Bool} (ha : Yields a (fun _ => True) E) : Yields a.not (fun _ => True) E :=
  bind ha fun _ _ => pure trivial

theorem all {l : List (Read Bool)} (h : ∀ a ∈ l, Yields a (fun _ => True) E) :
    Yields (Read.all l) (fun _ => True) E := by
  induction l with
  | nil => exact trivial
  | cons a l ih =>
    exact and (h a List.mem_cons_self) (ih fun b hb => h b (List.mem_cons_of_mem a hb))

end

end Yields

/-! ### Two readings -/

section Two
variable {α β : Type}

/-- The first reading fails for one of some reasons, or the second one is the same. -/
inductive Unless (E : Error → Prop) : Except Error α → Except Error α → Prop where
  | fails {e : Error} {r : Except Error α} (he : E e) : Unless E (.error e) r
  | same (r : Except Error α) : Unless E r r

namespace Unless
variable {E : Error → Prop}

/-- Where the first one succeeds the second one gives the same. -/
theorem ok {x y : Except Error α} {a : α} (h : Unless E x y) (hx : x = .ok a) : y = .ok a := by
  cases h with
  | fails he => cases hx
  | same _ => exact hx

/-- It is enough that the second ones agree on what the first ones both give. -/
theorem bind_ok {x y : Except Error β} {f g : β → Except Error α} (hx : Unless E x y)
    (hf : ∀ b, x = .ok b → Unless E (f b) (g b)) : Unless E (x >>= f) (y >>= g) := by
  cases hx with
  | fails he => exact .fails he
  | same x =>
    cases x with
    | ok b => exact hf b rfl
    | error e => exact .same _

theorem bind {x y : Except Error β} {f g : β → Except Error α} (hx : Unless E x y)
    (hf : ∀ b, Unless E (f b) (g b)) : Unless E (x >>= f) (y >>= g) :=
  bind_ok hx fun b _ => hf b

theorem ite {c : Prop} [Decidable c] {x x' y y' : Except Error α} (hx : c → Unless E x x')
    (hy : ¬ c → Unless E y y') : Unless E (if c then x else y) (if c then x' else y') := by
  by_cases h : c
  · rw [if_pos h, if_pos h]
    exact hx h
  · rw [if_neg h, if_neg h]
    exact hy h

section Loops
variable {l : List β}

theorem mapM {f g : β → Except Error α} (h : ∀ b ∈ l, Unless E (f b) (g b)) :
    Unless E (l.mapM f) (l.mapM g) := by
  induction l with
  | nil => exact .same _
  | cons b rest ih =>
    rw [List.mapM_cons, List.mapM_cons]
    refine bind (h b List.mem_cons_self) fun a => bind (ih fun b hb => ?_) fun as => .same _
    exact h b (List.mem_cons_of_mem _ hb)

theorem foldlM {f g : α → β → Except Error α} (h : ∀ a, ∀ b ∈ l, Unless E (f a b) (g a b)) (a : α) :
    Unless E (l.foldlM f a) (l.foldlM g a) := by
  induction l generalizing a with
  | nil => exact .same _
  | cons b rest ih =>
    rw [List.foldlM_cons, List.foldlM_cons]
    refine bind (h a b List.mem_cons_self) fun a => ih (fun a b hb => ?_) a
    exact h a b (List.mem_cons_of_mem _ hb)

variable {f g : β → Except Error Bool} (h : ∀ b ∈ l, Unless E (f b) (g b))
include h

theorem filterM : Unless E (l.filterM f) (l.filterM g) := by
  have haux (acc : List β) : Unless E (l.filterAuxM f acc) (l.filterAuxM g acc) := by
    induction l generalizing acc with
    | nil => exact .same _
    | cons b rest ih =>
      rw [List.filterAuxM, List.filterAuxM]
      refine bind (h b List.mem_cons_self) fun passes => ih (fun b hb => ?_) _
      exact h b (List.mem_cons_of_mem _ hb)
  exact bind (haux []) fun kept => .same _

theorem findM? : Unless E (l.findM? f) (l.findM? g) := by
  induction l with
  | nil => exact .same _
  | cons b rest ih =>
    rw [List.findM?, List.findM?]
    refine bind (h b List.mem_cons_self) fun found => ?_
    cases found with
    | true => exact .same _
    | false => exact ih fun b hb => h b (List.mem_cons_of_mem _ hb)

theorem anyM : Unless E (l.anyM f) (l.anyM g) := by
  induction l with
  | nil => exact .same _
  | cons b rest ih =>
    rw [List.anyM, List.anyM]
    refine bind (h b List.mem_cons_self) fun holds => ?_
    cases holds with
    | true => exact .same _
    | false => exact ih fun b hb => h b (List.mem_cons_of_mem _ hb)

theorem allM : Unless E (l.allM f) (l.allM g) := by
  induction l with
  | nil => exact .same _
  | cons b rest ih =>
    rw [List.allM, List.allM]
    refine bind (h b List.mem_cons_self) fun holds => ?_
    cases holds with
    | true => exact ih fun b hb => h b (List.mem_cons_of_mem _ hb)
    | false => exact .same _

end Loops

theorem and {a a' b b' : Read Bool} (ha : Unless E a a') (hb : Unless E b b') :
    Unless E (a.and b) (a'.and b') :=
  bind ha fun _ => ite (fun _ => hb) fun _ => .same _

theorem not {a a' : Read Bool} (ha : Unless E a a') : Unless E a.not a'.not :=
  bind ha fun _ => .same _

theorem all_cons {a a' : Read Bool} {as as' : List (Read Bool)} (ha : Unless E a a')
    (has : Unless E (Read.all as) (Read.all as')) :
    Unless E (Read.all (a :: as)) (Read.all (a' :: as')) :=
  ha.and has

end Unless

end Two

end Read

/-! ### Operations -/

namespace Operation
variable {σ α β : Type} {P I : σ → Prop} {Q : α → σ → Prop} {R : β → σ → Prop}
  {E : Error → σ → Prop}

/-- From a state with `P` the operation ends with `Q`, or fails with `E`. -/
def Triple (P : σ → Prop) (op : EStateM Error σ α) (Q : α → σ → Prop)
    (E : Error → σ → Prop) : Prop :=
  ∀ w, P w →
    match op.run w with
    | .ok a w' => Q a w'
    | .error e w' => E e w'

namespace Triple

theorem pure {a : α} (h : ∀ w, P w → Q a w) : Triple P (Pure.pure a) Q E := h

theorem throw {e : Error} (h : ∀ w, P w → E e w) : Triple P (MonadExcept.throw e) Q E := h

theorem mono {op : EStateM Error σ α} {P' : σ → Prop} {Q' : α → σ → Prop}
    {E' : Error → σ → Prop} (h : Triple P' op Q' E') (hP : ∀ w, P w → P' w)
    (hQ : ∀ a w, Q' a w → Q a w) (hE : ∀ e w, E' e w → E e w) : Triple P op Q E := by
  intro w hw
  have := h w (hP w hw)
  cases hr : op.run w with
  | ok a w' => rw [hr] at this; exact hQ a w' this
  | error e w' => rw [hr] at this; exact hE e w' this

theorem and {op : EStateM Error σ α} {P' : σ → Prop} {Q' : α → σ → Prop}
    {E' : Error → σ → Prop} (h : Triple P op Q E) (h' : Triple P' op Q' E') :
    Triple (fun w => P w ∧ P' w) op (fun a w => Q a w ∧ Q' a w) fun e w => E e w ∧ E' e w := by
  intro w hw
  have hone := h w hw.1
  have hother := h' w hw.2
  cases hr : op.run w with
  | ok a w' =>
    rw [hr] at hone hother
    exact ⟨hone, hother⟩
  | error e w' =>
    rw [hr] at hone hother
    exact ⟨hone, hother⟩

theorem bind {x : EStateM Error σ β} {f : β → EStateM Error σ α} (hx : Triple P x R E)
    (hf : ∀ b, Triple (R b) (f b) Q E) : Triple P (x >>= f) Q E := by
  intro w hw
  have hxw := hx w hw
  show match EStateM.bind x f w with
    | .ok a w' => Q a w'
    | .error e w' => E e w'
  unfold EStateM.bind
  cases hr : x w with
  | ok b w' =>
    rw [EStateM.run, hr] at hxw
    exact hf b w' hxw
  | error e w' =>
    rw [EStateM.run, hr] at hxw
    exact hxw

theorem ite {c : Prop} [Decidable c] {x y : EStateM Error σ α} (hx : c → Triple P x Q E)
    (hy : ¬ c → Triple P y Q E) : Triple P (if c then x else y) Q E := by
  by_cases h : c
  · simp only [h, if_true]; exact hx h
  · simp only [h, if_false]; exact hy h

theorem get {f : σ → EStateM Error σ α} (h : ∀ w, P w → Triple (· = w) (f w) Q E) :
    Triple P (MonadState.get >>= f) Q E := by
  intro w hw
  exact h w hw w rfl

theorem modify {f : σ → σ} {Q : Unit → σ → Prop} (h : ∀ w, P w → Q () (f w)) :
    Triple P (modify f) Q E := h

theorem ofExcept {r : Except Error α}
    (h : ∀ w, P w → Read.Yields r (fun a => Q a w) (fun e => E e w)) :
    Triple P (MonadExcept.ofExcept r) Q E := by
  intro w hw
  have := h w hw
  cases r with
  | ok a => exact this
  | error e => exact this

theorem look {P : Work → Prop} {Q : α → Work → Prop} {E : Error → Work → Prop} {s : Schema}
    {reading : View → Read α} (h : ∀ w, P w →
      Read.Yields (reading ⟨s, w.tables, w.transaction⟩) (fun a => Q a w) (fun e => E e w)) :
    Triple P (look s reading) Q E :=
  get fun w hw => ofExcept fun _ hw' => by subst hw'; exact h _ hw

/-- The outcome of a write becomes the state of the work; a write that fails leaves it. -/
theorem settle {w : Work} {outcome : Except Error (α × Transaction × Tables)} {Q : α → Work → Prop}
    {E : Error → Work → Prop} (h : Read.Yields outcome
      (fun r => Q r.1 { w with transaction := r.2.1, tables := r.2.2 }) fun e => E e w) :
    Triple (· = w) (settle outcome) Q E := by
  refine bind (R := fun r w' => w' = w ∧ Q r.1 { w with transaction := r.2.1, tables := r.2.2 })
    (ofExcept fun w' hw' => ?_) fun r => ?_
  · subst hw'
    exact h.mono (fun _ hr => ⟨rfl, hr⟩) fun _ he => he
  · refine bind (R := fun _ => Q r.1) (modify fun w' hw' => ?_) fun _ => pure fun _ h => h
    obtain ⟨rfl, hr⟩ := hw'
    exact hr

theorem of_eq {op : EStateM Error σ α} (h : ∀ w, P w → Triple (· = w) op Q E) : Triple P op Q E :=
  fun w hw => h w hw w rfl

/-- What the operation did end with. -/
theorem of_run {op : EStateM Error σ α} {w w' : σ} {a : α} (hrun : op.run w = .ok a w')
    (h : Triple (· = w) op Q E) : Q a w' := by
  have hdone := h w rfl
  rwa [hrun] at hdone

/-- What never fails gives something. -/
theorem run_ok {op : EStateM Error σ α} {w : σ} (h : Triple (· = w) op Q fun _ _ => False) :
    ∃ a w', op.run w = .ok a w' ∧ Q a w' := by
  have hrun := h w rfl
  cases hop : op.run w with
  | ok a w' =>
    rw [hop] at hrun
    exact ⟨a, w', rfl, hrun⟩
  | error e w' =>
    rw [hop] at hrun
    exact hrun.elim

/-- What never succeeds fails with something. -/
theorem run_error {op : EStateM Error σ α} {w : σ} (h : Triple (· = w) op (fun _ _ => False) E) :
    ∃ e w', op.run w = .error e w' ∧ E e w' := by
  have hrun := h w rfl
  cases hop : op.run w with
  | ok a w' =>
    rw [hop] at hrun
    exact hrun.elim
  | error e w' =>
    rw [hop] at hrun
    exact ⟨e, w', rfl, hrun⟩

/-! A loop that goes from a state to states that are reached from it (`R`). What is done for an item
(`D`) stays done, so in the end it is done for each. -/

section Loops
variable {R : σ → σ → Prop} {D : β → σ → Prop} {l : List β} {w₀ : σ} (hrefl : ∀ w, R w w)
  (htrans : ∀ w w' w'', R w w' → R w' w'' → R w w'') (hstable : ∀ b w w', R w w' → D b w → D b w')
include hrefl htrans hstable

theorem forM_each {f : β → EStateM Error σ Unit}
    (hf : ∀ b ∈ l, ∀ w, I w → R w₀ w →
      Triple (· = w) (f b) (fun _ w' => I w' ∧ R w w' ∧ D b w') E)
    (h₀ : I w₀) :
    Triple (· = w₀) (l.forM f) (fun _ w => I w ∧ R w₀ w ∧ ∀ b ∈ l, D b w) E := by
  induction l generalizing w₀ with
  | nil =>
    refine pure fun w hw => ?_
    subst hw
    exact ⟨h₀, hrefl w, by simp⟩
  | cons b l ih =>
    refine bind (hf b List.mem_cons_self w₀ h₀ (hrefl w₀)) fun _ => of_eq fun w hw => ?_
    obtain ⟨hI, hR, hD⟩ := hw
    refine mono (ih (fun b' hb' w' hI' hR' => ?_) hI) (fun _ h => h) (fun _ w' h => ?_)
      fun _ _ h => h
    · exact hf b' (List.mem_cons_of_mem b hb') w' hI' (htrans _ _ _ hR hR')
    · obtain ⟨hI', hR', hall⟩ := h
      exact ⟨hI', htrans _ _ _ hR hR', List.forall_mem_cons.2 ⟨hstable b _ _ hR' hD, hall⟩⟩

theorem foldlM_each {f : α → β → EStateM Error σ α}
    (hf : ∀ a, ∀ b ∈ l, ∀ w, I w → R w₀ w →
      Triple (· = w) (f a b) (fun _ w' => I w' ∧ R w w' ∧ D b w') E)
    (h₀ : I w₀) (a : α) :
    Triple (· = w₀) (l.foldlM f a) (fun _ w => I w ∧ R w₀ w ∧ ∀ b ∈ l, D b w) E := by
  induction l generalizing w₀ a with
  | nil =>
    refine pure fun w hw => ?_
    subst hw
    exact ⟨h₀, hrefl w, by simp⟩
  | cons b l ih =>
    rw [List.foldlM_cons]
    refine bind (hf a b List.mem_cons_self w₀ h₀ (hrefl w₀)) fun a' => of_eq fun w hw => ?_
    obtain ⟨hI, hR, hD⟩ := hw
    refine mono (ih (fun a b' hb' w' hI' hR' => ?_) hI a') (fun _ h => h) (fun _ w' h => ?_)
      fun _ _ h => h
    · exact hf a b' (List.mem_cons_of_mem b hb') w' hI' (htrans _ _ _ hR hR')
    · obtain ⟨hI', hR', hall⟩ := h
      exact ⟨hI', htrans _ _ _ hR hR', List.forall_mem_cons.2 ⟨hstable b _ _ hR' hD, hall⟩⟩

end Loops

theorem tryCatch {x : EStateM Error σ α} {handle : Error → EStateM Error σ α} {F : Error → σ → Prop}
    (hx : Triple P x Q F) (hh : ∀ e, Triple (F e) (handle e) Q E) :
    Triple P (tryCatch x handle) Q E := by
  intro w hw
  have hxw := hx w hw
  show match EStateM.tryCatch x handle w with
    | .ok a w' => Q a w'
    | .error e w' => E e w'
  unfold EStateM.tryCatch
  cases hr : x w with
  | ok a w' =>
    rw [EStateM.run, hr] at hxw
    exact hxw
  | error e w' =>
    rw [EStateM.run, hr] at hxw
    exact hh e w' hxw

end Triple

/-- The operation keeps `I`, whether it fails or not; its result has `Q` or its error has `E`. -/
abbrev Keeps (I : σ → Prop) (op : EStateM Error σ α) (Q : α → Prop) (E : Error → Prop) : Prop :=
  Triple I op (fun a w => I w ∧ Q a) (fun e w => I w ∧ E e)

namespace Keeps
variable {Q : α → Prop} {R : β → Prop} {E : Error → Prop}

theorem pure {a : α} (h : Q a) : Keeps I (Pure.pure a) Q E := Triple.pure fun _ hw => ⟨hw, h⟩

theorem throw {e : Error} (h : E e) : Keeps I (MonadExcept.throw e : EStateM Error σ α) Q E :=
  Triple.throw fun _ hw => ⟨hw, h⟩

theorem mono {op : EStateM Error σ α} {Q' : α → Prop} {E' : Error → Prop} (h : Keeps I op Q' E')
    (hQ : ∀ a, Q' a → Q a) (hE : ∀ e, E' e → E e) : Keeps I op Q E :=
  Triple.mono h (fun _ hw => hw) (fun a _ hw => ⟨hw.1, hQ a hw.2⟩) fun e _ hw => ⟨hw.1, hE e hw.2⟩

/-- Whatever is done, where nothing is asked. -/
theorem any {op : EStateM Error σ α} : Keeps (fun _ => True) op (fun _ => True) fun _ => True := by
  intro w _
  cases op.run w <;> exact ⟨trivial, trivial⟩

/-- What the result has in any case it has also where something is kept. -/
theorem besides {op : EStateM Error σ α} {Q' : α → Prop} (h : Keeps I op Q E)
    (h' : Keeps (fun _ => True) op Q' fun _ => True) : Keeps I op (fun a => Q a ∧ Q' a) E :=
  (Triple.and h h').mono (fun _ hw => ⟨hw, trivial⟩) (fun _ _ hw => ⟨hw.1.1, hw.1.2, hw.2.2⟩)
    fun _ _ hw => hw.1

theorem bind {x : EStateM Error σ β} {f : β → EStateM Error σ α} (hx : Keeps I x R E)
    (hf : ∀ b, R b → Keeps I (f b) Q E) : Keeps I (x >>= f) Q E :=
  Triple.bind hx fun b w hw => hf b hw.2 w hw.1

/-- Whatever the first gives. -/
theorem andThen {x : EStateM Error σ β} {f : β → EStateM Error σ α}
    (hx : Keeps I x (fun _ => True) E) (hf : ∀ b, Keeps I (f b) Q E) : Keeps I (x >>= f) Q E :=
  bind hx fun b _ => hf b

theorem ofExcept {r : Except Error α} (h : Read.Yields r Q E) :
    Keeps I (MonadExcept.ofExcept r) Q E :=
  Triple.ofExcept fun _ hw => h.mono (fun _ ha => ⟨hw, ha⟩) fun _ he => ⟨hw, he⟩

theorem look {I : Work → Prop} {s : Schema} {reading : View → Read α} (h : ∀ w, I w → Read.Yields (reading ⟨s, w.tables, w.transaction⟩) Q E) :
    Keeps I (look s reading) Q E :=
  Triple.look fun w hw => (h w hw).mono (fun _ ha => ⟨hw, ha⟩) fun _ he => ⟨hw, he⟩

theorem discard {x : EStateM Error σ β} (h : Keeps I x R E) :
    Keeps I (discard x) (fun _ => True) E :=
  bind h fun _ _ => pure trivial

theorem forM {l : List β} {f : β → EStateM Error σ Unit}
    (hf : ∀ b ∈ l, Keeps I (f b) (fun _ => True) E) : Keeps I (l.forM f) (fun _ => True) E := by
  induction l with
  | nil => exact pure trivial
  | cons b l ih =>
    refine bind (hf b List.mem_cons_self) fun _ _ => ?_
    exact ih fun b' hb' => hf b' (List.mem_cons_of_mem b hb')

theorem foldlM {l : List β} {f : α → β → EStateM Error σ α} {a : α} (ha : Q a)
    (hf : ∀ a, Q a → ∀ b ∈ l, Keeps I (f a b) Q E) : Keeps I (l.foldlM f a) Q E := by
  induction l generalizing a with
  | nil => exact pure ha
  | cons b l ih =>
    rw [List.foldlM_cons]
    refine bind (hf a ha b List.mem_cons_self) fun a' ha' => ?_
    exact ih ha' fun a ha b' hb' => hf a ha b' (List.mem_cons_of_mem b hb')

theorem mapM {l : List β} {f : β → EStateM Error σ α} (hf : ∀ b ∈ l, Keeps I (f b) Q E) :
    Keeps I (l.mapM f) (fun as => ∀ a ∈ as, Q a) E := by
  induction l with
  | nil => exact pure (by simp)
  | cons b l ih =>
    rw [List.mapM_cons]
    refine bind (hf b List.mem_cons_self) fun a ha => ?_
    refine bind (ih fun b' hb' => hf b' (List.mem_cons_of_mem b hb')) fun as has => ?_
    exact pure (by simpa using ⟨ha, has⟩)

/-! Where the invariant is all that is asked of the state, what each step gives is kept. -/

theorem forM_each {D : β → Prop} {l : List β} {f : β → EStateM Error σ Unit}
    (hf : ∀ b ∈ l, Keeps I (f b) (fun _ => D b) E) :
    Keeps I (l.forM f) (fun _ => ∀ b ∈ l, D b) E := by
  induction l with
  | nil => exact pure (by simp)
  | cons b l ih =>
    refine bind (hf b List.mem_cons_self) fun _ hb => ?_
    refine mono (ih fun b' hb' => hf b' (List.mem_cons_of_mem b hb')) (fun _ hall => ?_) fun _ h => h
    exact List.forall_mem_cons.2 ⟨hb, hall⟩

theorem mapM_each {D : β → α → Prop} {l : List β} {f : β → EStateM Error σ α}
    (hf : ∀ b ∈ l, Keeps I (f b) (D b) E) : Keeps I (l.mapM f) (List.Forall₂ D l) E := by
  induction l with
  | nil => exact pure .nil
  | cons b l ih =>
    rw [List.mapM_cons]
    refine bind (hf b List.mem_cons_self) fun a ha => ?_
    refine bind (ih fun b' hb' => hf b' (List.mem_cons_of_mem b hb')) fun as has => ?_
    exact pure (.cons ha has)

end Keeps

/-! ### Two operations -/

/-- From states with `P` both operations do the same, and it ends with `Q` unless it fails. -/
structure Coincides (P : σ → Prop) (x y : EStateM Error σ α) (Q : α → σ → Prop) : Prop where
  same : ∀ w, P w → x.run w = y.run w
  ends : Triple P x Q fun _ _ => True

namespace Coincides
variable {P' : σ → Prop} {Q' : α → σ → Prop}

theorem refl {x : EStateM Error σ α} (h : Triple P x Q fun _ _ => True) : Coincides P x x Q :=
  ⟨fun _ _ => rfl, h⟩

theorem pure {a : α} (h : ∀ w, P w → Q a w) : Coincides P (Pure.pure a) (Pure.pure a) Q :=
  refl (Triple.pure h)

theorem mono {x y : EStateM Error σ α} (h : Coincides P' x y Q') (hP : ∀ w, P w → P' w)
    (hQ : ∀ a w, Q' a w → Q a w) : Coincides P x y Q :=
  ⟨fun w hw => h.same w (hP w hw), Triple.mono h.ends hP hQ fun _ _ h => h⟩

theorem of_eq {x y : EStateM Error σ α} (h : ∀ w, P w → Coincides (· = w) x y Q) :
    Coincides P x y Q :=
  ⟨fun w hw => (h w hw).same w rfl, Triple.of_eq fun w hw => (h w hw).ends⟩

theorem bind {x y : EStateM Error σ β} {f g : β → EStateM Error σ α} (hx : Coincides P x y R)
    (hf : ∀ b, Coincides (R b) (f b) (g b) Q) : Coincides P (x >>= f) (y >>= g) Q where
  same w hw := by
    have hends := hx.ends w hw
    rw [EStateM.run_bind, EStateM.run_bind, ← hx.same w hw]
    cases hrun : x.run w with
    | ok b w' =>
      rw [hrun] at hends
      exact (hf b).same w' hends
    | error e w' => rfl
  ends := Triple.bind hx.ends fun b => (hf b).ends

theorem ite {c : Prop} [Decidable c] {x x' y y' : EStateM Error σ α} (hx : c → Coincides P x x' Q)
    (hy : ¬ c → Coincides P y y' Q) :
    Coincides P (if c then x else y) (if c then x' else y') Q := by
  by_cases h : c
  · simp only [h, if_true]; exact hx h
  · simp only [h, if_false]; exact hy h

theorem forM {l : List β} {f g : β → EStateM Error σ Unit}
    (hf : ∀ b ∈ l, Coincides I (f b) (g b) fun _ => I) :
    Coincides I (l.forM f) (l.forM g) fun _ => I := by
  induction l with
  | nil => exact pure fun _ h => h
  | cons b l ih =>
    exact bind (hf b List.mem_cons_self) fun _ => ih fun b' hb' => hf b' (List.mem_cons_of_mem b hb')

theorem mapM {l : List β} {f g : β → EStateM Error σ α}
    (hf : ∀ b ∈ l, Coincides I (f b) (g b) fun _ => I) :
    Coincides I (l.mapM f) (l.mapM g) fun _ => I := by
  induction l with
  | nil => exact pure fun _ h => h
  | cons b l ih =>
    rw [List.mapM_cons, List.mapM_cons]
    refine bind (hf b List.mem_cons_self) fun a => ?_
    exact bind (ih fun b' hb' => hf b' (List.mem_cons_of_mem b hb')) fun as => pure fun _ h => h

end Coincides

/-! ### Success of an operation -/

theorem bind_eq_ok {x : EStateM Error σ β} {f : β → EStateM Error σ α} {w w' : σ} {a : α} :
    (x >>= f).run w = .ok a w' ↔
      ∃ b w₁, x.run w = .ok b w₁ ∧ (f b).run w₁ = .ok a w' := by
  rw [EStateM.run_bind]
  cases x.run w with
  | ok b w₁ => simp
  | error err w₁ => simp

/-- Where the first operation succeeds, the second one does the same. -/
def Entails (x y : EStateM Error σ α) : Prop :=
  ∀ w a w', x.run w = .ok a w' → y.run w = .ok a w'

namespace Entails

/-- An operation that leaves everything as it is. -/
theorem still {x : EStateM Error σ Unit}
    (h : ∀ w, Keeps (· = w) x (fun _ => True) fun _ => True) : Entails x (Pure.pure ()) := by
  intro w a w' hrun
  have hsame := h w w rfl
  rw [hrun] at hsame
  obtain ⟨rfl, -⟩ := hsame
  rfl

theorem forM {l : List β} {f g : β → EStateM Error σ Unit}
    (h : ∀ b ∈ l, Entails (f b) (g b)) : Entails (l.forM f) (l.forM g) := by
  induction l with
  | nil => exact fun _ _ _ hrun => hrun
  | cons b l ih =>
    intro w a w' hrun
    obtain ⟨u, w₁, hfirst, hrest⟩ := bind_eq_ok.1 hrun
    refine bind_eq_ok.2 ⟨u, w₁, h b List.mem_cons_self w u w₁ hfirst, ?_⟩
    exact ih (fun b' hb' => h b' (List.mem_cons_of_mem b hb')) w₁ a w' hrest

end Entails

end Operation

end RelationalStore

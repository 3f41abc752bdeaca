import RelationalStore.Proofs.RequestWrites
import RelationalStore.Proofs.SoundKeys

/- Operations that write rows, from tables to tables. A part of an operation that writes nothing is
   described by what it gives (`Still`); one that writes, by what becomes of the tables
   (`Course.Goes`): the rows that are there are retained, those that were planned are made, and no
   foreign key comes to dangle. A part that fails has made some of the planned rows, which matters
   because a creation that fails may be passed over. -/
namespace RelationalStore
open SortedMap Read

/-- What does not change in the course of a request that writes. -/
structure Course where
  schema : Schema
  classes : String → String → NumberClass
  /-- The foreign keys into which nothing comes unchecked. -/
  vouched : String → Relation → Prop
  /-- The fields that may change in rows that are there. -/
  fluid : String → String → Prop
  /-- The tables at first. -/
  first : Tables
  resolved : schema.Resolved
  kinds : schema.KeysOfKinds
  admissible : schema.Admissible fluid

namespace Course
variable (c : Course)

abbrev Holds (tables : Tables) : Prop := c.schema.Holds c.classes tables

abbrev Retains (tables tables' : Tables) : Prop := c.schema.Retains c.fluid tables tables'

abbrev Reaches (tables : Tables) (plan : List (String × Bool)) (tables' : Tables) : Prop :=
  c.schema.Reaches c.fluid tables plan tables'

abbrev Writing (tables : Tables) : Prop := c.schema.Writing c.classes c.vouched c.fluid c.first tables

abbrev Storable (tables : Tables) (e : Entity) (row : Row) : Prop :=
  c.schema.Storable c.classes c.vouched c.fluid c.first tables e row

abbrev Known (tables : Tables) (e : Entity) (row : Row) : Prop :=
  c.schema.Known c.classes c.vouched c.fluid c.first tables e row

abbrev Guarded (e : Entity) (r : Relation) : Prop := c.schema.Guarded c.vouched c.fluid e r

/-- The values keep to the classes of their columns. -/
abbrev Obeys (n : String) (row : Row) : Prop := row.Obeys (fun n f v => v.within (c.classes n f)) n

end Course

namespace Operation
variable {c : Course} {T : Tables} {plan more : List (String × Bool)} {α β : Type}

/-- The operation writes nothing, and its result has `Q`. -/
abbrev Still (T : Tables) (op : Operation α) (Q : α → Prop) : Prop :=
  Keeps (fun w => w.tables = T) op Q fun _ => True

end Operation

open Operation

/-- From the tables the operation goes on to others, in which the planned rows have been made, and its
result has `Q` there; if it fails, some of these rows have been made. -/
abbrev Course.Goes {α : Type} (c : Course) (T : Tables) (plan : List (String × Bool))
    (op : Operation α) (Q : α → Tables → Prop) : Prop :=
  Triple (fun w => w.tables = T) op
    (fun a w => c.Writing w.tables ∧ c.Reaches T plan w.tables ∧ Q a w.tables)
    fun _ w => c.Writing w.tables ∧ c.Reaches T (Fulfils.loosen plan) w.tables

namespace Course.Goes
variable {c : Course} {T : Tables} {plan more : List (String × Bool)} {α β : Type}
  {Q : α → Tables → Prop} {R : β → Tables → Prop}

theorem pure {a : α} (hT : c.Writing T) (h : Q a T) : c.Goes T [] (Pure.pure a) Q := by
  refine Triple.pure fun w hw => ?_
  rw [hw]
  exact ⟨hT, .refl _ _ T, h⟩

theorem throw {e : Error} (hT : c.Writing T) : c.Goes T plan (MonadExcept.throw e : Operation α) Q := by
  refine Triple.throw fun w hw => ?_
  rw [hw]
  exact ⟨hT, (Schema.Reaches.refl _ _ T).loose.loose_append plan⟩

theorem mono {op : Operation α} {Q' : α → Tables → Prop} (h : c.Goes T plan op Q')
    (hQ : ∀ a T', Q' a T' → Q a T') : c.Goes T plan op Q :=
  Triple.mono h (fun _ hw => hw) (fun a w hw => ⟨hw.1, hw.2.1, hQ a w.tables hw.2.2⟩) fun _ _ h => h

theorem ite {p : Prop} [Decidable p] {x y : Operation α} (hx : p → c.Goes T plan x Q)
    (hy : ¬ p → c.Goes T plan y Q) : c.Goes T plan (if p then x else y) Q :=
  Triple.ite hx hy

theorem bind {x : Operation β} {f : β → Operation α} (hT : c.Writing T) (hx : c.Goes T plan x R)
    (hf : ∀ b T', c.Writing T' → c.Retains T T' → R b T' → c.Goes T' more (f b) Q) :
    c.Goes T (plan ++ more) (x >>= f) Q := by
  refine Triple.bind (Triple.mono hx (fun _ h => h) (fun _ _ h => h) ?_) fun b => ?_
  · exact fun _ w h => ⟨h.1, h.2.loose_append more⟩
  · refine Triple.of_eq fun w hw => ?_
    obtain ⟨hw, hreaches, hR⟩ := hw
    refine Triple.mono (hf b w.tables hw hreaches.retains hR) (fun w' hw' => by rw [hw'])
      (fun a w' h => ?_) fun _ w' h => ?_
    · exact ⟨h.1, hreaches.trans hT.holds hw.holds h.1.holds h.2.1, h.2.2⟩
    · refine ⟨h.1, ?_⟩
      rw [Fulfils.loosen, List.map_append]
      exact hreaches.loose.trans hT.holds hw.holds h.1.holds h.2

/-- What holds of the result, given what became of the tables. -/
theorem mono_later {op : Operation α} {Q' : α → Tables → Prop} (h : c.Goes T plan op Q')
    (hQ : ∀ a T', c.Writing T' → c.Retains T T' → Q' a T' → Q a T') : c.Goes T plan op Q :=
  Triple.mono h (fun _ hw => hw)
    (fun a w hw => ⟨hw.1, hw.2.1, hQ a w.tables hw.1 hw.2.1.retains hw.2.2⟩) fun _ _ h => h

/-- First something that makes no row. -/
theorem begin {x : Operation β} {f : β → Operation α} (hT : c.Writing T) (hx : c.Goes T [] x R)
    (hf : ∀ b T', c.Writing T' → c.Retains T T' → R b T' → c.Goes T' plan (f b) Q) :
    c.Goes T plan (x >>= f) Q :=
  bind hT hx hf

/-- First something that writes nothing. -/
theorem after {x : Operation β} {f : β → Operation α} {P : β → Prop} (hT : c.Writing T)
    (hx : Still T x P) (hf : ∀ b, P b → c.Goes T plan (f b) Q) : c.Goes T plan (x >>= f) Q := by
  refine Triple.bind (R := fun b w => w.tables = T ∧ P b) (Triple.mono hx (fun _ h => h)
    (fun _ _ h => h) fun _ w h => ?_) fun b w hw => hf b hw.2 w hw.1
  rw [h.1]
  exact ⟨hT, (Schema.Reaches.refl _ _ T).loose.loose_append plan⟩

/-- In the end something that makes no row. -/
theorem last {x : Operation β} {f : β → Operation α} (hT : c.Writing T) (hx : c.Goes T plan x R)
    (hf : ∀ b T', c.Writing T' → c.Retains T T' → R b T' → c.Goes T' [] (f b) Q) :
    c.Goes T plan (x >>= f) Q := by
  rw [← List.append_nil plan]
  exact bind hT hx hf

theorem still {op : Operation α} {P : α → Prop} (hT : c.Writing T) (h : Still T op P)
    (hQ : ∀ a, P a → Q a T) : c.Goes T [] op Q := by
  refine Triple.mono h (fun _ h => h) (fun a w hw => ?_) fun _ w hw => ?_
  · rw [hw.1]
    exact ⟨hT, .refl _ _ T, hQ a hw.2⟩
  · rw [hw.1]
    exact ⟨hT, .refl _ _ T⟩

theorem discard {op : Operation α} (hT : c.Writing T) (h : c.Goes T plan op Q) :
    c.Goes T plan (discard op) fun _ T' => ∃ a, Q a T' :=
  last hT h fun a _ hT' _ hQ => pure hT' ⟨a, hQ⟩

/-- What another proof shows of the same operation. -/
theorem with_triple {op : Operation α} {P : Work → Prop} {Q' : α → Work → Prop}
    {R : α → Tables → Prop} {E : Error → Work → Prop} (h : c.Goes T plan op Q)
    (h' : Triple P op Q' E) (hP : ∀ w : Work, w.tables = T → P w)
    (hQ : ∀ a w, Q' a w → R a w.tables) : c.Goes T plan op fun a T' => Q a T' ∧ R a T' := by
  refine Triple.mono (h.and h') (fun w hw => ⟨hw, hP w hw⟩) (fun a w hw => ?_) fun _ _ hw => hw.1
  exact ⟨hw.1.1, hw.1.2.1, hw.1.2.2, hQ a w hw.2⟩

/-- The values of the result keep to their columns, if another proof says so. -/
theorem obeys {op : Operation α} {P : α → Prop} (hT : c.Writing T) (h : c.Goes T plan op Q)
    (h' : Upholds (fun tables _ => c.Holds tables) op P) :
    c.Goes T plan op fun a T' => Q a T' ∧ P a :=
  h.with_triple h' (fun w hw => by rw [hw]; exact hT.holds) fun _ _ hw => hw.2

/-- A loop, in which what holds of the tables goes on to hold, and nothing is made. -/
theorem forM {l : List β} {f : β → Operation Unit} {I : Tables → Prop} (hT : c.Writing T) (hI : I T)
    (hf : ∀ b ∈ l, ∀ T', c.Writing T' → c.Retains T T' → I T' → c.Goes T' [] (f b) fun _ => I) :
    c.Goes T [] (l.forM f) fun _ => I := by
  induction l generalizing T with
  | nil => exact pure hT hI
  | cons b l ih =>
    refine bind hT (hf b List.mem_cons_self T hT (.refl _ _ T) hI) fun _ T' hT' hTT' hI' => ?_
    refine ih hT' hI' fun b' hb' T'' hT'' hT'T'' hI'' => ?_
    refine hf b' (List.mem_cons_of_mem b hb') T'' hT'' ?_ hI''
    exact hTT'.trans hT.holds hT'.holds hT''.holds hT'T''

end Course.Goes

/-! ### Parts that write nothing -/

/-- What was written to the field of a row that is created stays, or the null that stands for nothing:
no default fills it, and it is not stamped. -/
def FieldDef.Stands (f : FieldDef) (written : Option Value) : Prop :=
  f.Plain ∨ (written.getD .null).isNull = false ∨ written.isSome = true ∧ f.updatedAt = false

theorem Entity.value_touched (e : Entity) (time : DateTime) (row : Row) (f : String) :
    Row.value ((e.fields.filter (·.updatedAt)).foldl
      (fun row g => row.insert g.name (.datetime time)) row) f =
        if f ∈ e.stamps then .datetime time else row.value f := by
  rw [Row.value, Row.get?_foldl_insert (fun g : FieldDef => g.name), ← Entity.stamps]
  split <;> rfl

namespace Operation
variable {T : Tables} {s : Schema} {e : Entity} {α : Type}

theorem Still.obeys {κ : String → String → NumberClass} {op : Operation α} {P R : α → Prop}
    (hholds : s.Holds κ T) (h : Still T op P)
    (h' : Upholds (fun tables _ => s.Holds κ tables) op R) : Still T op fun a => P a ∧ R a :=
  Triple.mono (h.and h') (fun w hw => ⟨hw, by rw [hw]; exact hholds⟩)
    (fun _ _ hw => ⟨hw.1.1, hw.1.2, hw.2.2⟩) fun _ _ hw => hw.1

theorem still_look (s : Schema) (reading : View → Read α) :
    Still T (look s reading) fun a => ∃ tx, reading ⟨s, T, tx⟩ = .ok a := by
  refine Keeps.look fun w hw => .of_ok (fun a ha => ?_) fun _ _ => trivial
  exact ⟨w.transaction, by rw [← hw]; exact ha⟩

theorem still_ofExcept (r : Except Error α) : Still T (MonadExcept.ofExcept r) fun a => r = .ok a :=
  Keeps.ofExcept (.of_ok (fun _ h => h) fun _ _ => trivial)

theorem still_note (e : Entity) (kind : ChangeKind) (key : Key) :
    Still T (note e kind key) fun _ => True :=
  Triple.modify fun _ hw => ⟨hw, trivial⟩

theorem still_now : Still T now fun _ => True := Triple.get fun _ hw _ _ => ⟨hw, trivial⟩

theorem still_token : Still T token fun _ => True := Triple.get fun _ hw _ _ => ⟨hw, trivial⟩

theorem still_touch (e : Entity) (row : Row) :
    Still T (touch e row) fun row' => ∃ time, ∀ f,
      row'.value f = if f ∈ e.stamps then .datetime time else row.value f :=
  Keeps.andThen still_now fun time => Keeps.pure ⟨time, e.value_touched time row⟩

theorem still_requireKind (f : FieldDef) (kind : ScalarKind) (call : String) :
    Still T (requireKind e f kind call) fun _ => True :=
  Triple.ite (fun _ => Keeps.throw trivial) fun _ => Keeps.pure trivial

theorem still_generate (f : FieldDef) (time : DateTime) (d : DefaultValue) :
    Still T (generate s e f time d) fun _ => True := by
  cases d with
  | autoIncrement =>
    refine Keeps.bind (still_look s _) fun t _ => ?_
    exact Triple.ite (fun _ => Keeps.pure trivial) fun _ => Keeps.throw trivial
  | uuid =>
    refine Keeps.andThen (still_requireKind f .string _) fun _ => ?_
    exact Keeps.andThen still_token fun _ => Keeps.pure trivial
  | cuid =>
    refine Keeps.andThen (still_requireKind f .string _) fun _ => ?_
    exact Keeps.andThen still_token fun _ => Keeps.pure trivial
  | now =>
    exact Keeps.andThen (still_requireKind f .datetime _) fun _ => Keeps.pure trivial
  | literal literal => exact Keeps.ofExcept .any

theorem still_absent (f : FieldDef) (time : DateTime) :
    Still T (absent s e f time) fun v => f.Plain → v = .null := by
  unfold absent
  refine Triple.ite (fun hstamp => Keeps.pure fun hplain => ?_) fun _ => ?_
  · rw [hplain.2.2] at hstamp
    cases hstamp
  · split
    · next d hd =>
      refine (still_generate f time d).mono (fun v _ hplain => ?_) fun _ h => h
      rw [FieldDef.Plain, hd] at hplain
      cases hplain.1
    · refine Triple.ite (fun hlist => Keeps.pure fun hplain => ?_) fun _ => ?_
      · rw [hplain.2.1] at hlist
        cases hlist
      · exact Triple.ite (fun _ => Keeps.throw trivial) fun _ => Keeps.pure fun _ => rfl

theorem still_complete (f : FieldDef) (time : DateTime) (written : Option Value) :
    Still T (complete s e f time written) fun v => f.Stands written → v = written.getD .null := by
  unfold complete
  split
  · refine (still_absent f time).mono (fun v hv hstands => hv ?_) fun _ h => h
    rcases hstands with hplain | hvalue | ⟨hgiven, -⟩
    · exact hplain
    · cases hvalue
    · cases hgiven
  · next value =>
    refine Triple.ite (fun _ => Keeps.pure fun _ => rfl) fun hnull => ?_
    obtain rfl : value = .null := by
      cases value with
      | null => rfl
      | _ => simp [Value.isNull] at hnull
    refine Triple.ite (fun _ => Keeps.throw trivial) fun _ => ?_
    refine Triple.ite (fun hstamp => Keeps.pure fun hstands => ?_) fun _ => Keeps.pure fun _ => rfl
    rcases hstands with hplain | hvalue | ⟨-, hunstamped⟩
    · rw [hplain.2.2] at hstamp
      cases hstamp
    · cases hvalue
    · rw [hunstamped] at hstamp
      cases hstamp

/-- A value that was written stays unless it is null, which is none for a field that needs a value. -/
theorem still_complete_written (f : FieldDef) (time : DateTime) (v : Value) :
    Still T (complete s e f time (some v)) fun v' =>
      (v.isNull = false → v' = v) ∧ ((f.required || f.id) = true → v'.isNull = false) := by
  refine Triple.ite (fun hpresent => Keeps.pure ⟨fun _ => rfl, fun _ => ?_⟩) fun hnull => ?_
  · simpa using hpresent
  · have hnull : v.isNull = true := by simpa using hnull
    have hfree (v' : Value) (h : ¬ (f.required || f.id) = true) : (v.isNull = false → v' = v) ∧
        ((f.required || f.id) = true → v'.isNull = false) :=
      ⟨fun hpresent => (Bool.eq_false_iff.1 hpresent hnull).elim, fun hneeded => absurd hneeded h⟩
    refine Triple.ite (fun _ => Keeps.throw trivial) fun h => ?_
    exact Triple.ite (fun _ => Keeps.pure (hfree _ h)) fun _ => Keeps.pure (hfree _ h)

/-- Each field of the row is completed. -/
theorem still_fillDefaults_each (hs : s.Resolved) (he : s.entity? e.name = some e) (row : Row)
    {D : FieldDef → Value → Prop}
    (h : ∀ f ∈ e.fields, ∀ time, Still T (complete s e f time (row.get? f.name)) (D f)) :
    Still T (fillDefaults s e row) fun row' => ∀ f ∈ e.fields, D f (row'.value f.name) := by
  refine Keeps.andThen still_now fun time => ?_
  refine Keeps.bind (Keeps.mapM_each (D := fun f p => p.1 = f.name ∧ D f p.2) fun f hf => ?_)
    fun values hvalues => ?_
  · exact Keeps.bind (h f hf time) fun v hv => Keeps.pure ⟨rfl, hv⟩
  · split
    · exact Keeps.throw trivial
    · exact Keeps.pure (Entity.value_ofList (hs.field he) hvalues)

theorem still_fillDefaults (hs : s.Resolved) (he : s.entity? e.name = some e) (row : Row) :
    Still T (fillDefaults s e row) fun row' =>
      ∀ f ∈ e.fields, f.Stands (row.get? f.name) → row'.value f.name = row.value f.name :=
  still_fillDefaults_each hs he row fun f _ time => still_complete f time _

/-- A foreign key with a part among the written fields references a row afterwards. -/
theorem still_checkForeignKeys {κ : String → String → NumberClass} (hs : s.Resolved)
    (hkinds : s.KeysOfKinds) (hholds : s.Holds κ T) (he : s.entity? e.name = some e) {row : Row}
    (hrow : row.Within (κ e.name)) (written : List String) :
    Still T (checkForeignKeys s e row written) fun _ =>
      ∀ r, s.Checkable e r → (∃ f ∈ r.near, f ∈ written) → ¬ T.Dangles r row := by
  refine Keeps.mono (Keeps.forM_each (D := fun r => s.Checkable e r →
    (∃ f ∈ r.near, f ∈ written) → ¬ T.Dangles r row) fun r hr => ?_)
    (fun _ h r hcheckable => h r hcheckable.owning hcheckable) fun _ h => h
  refine Triple.ite (fun hcheck => ?_) fun hcheck => Keeps.pure fun _ hwritten hdangles => ?_
  · refine Keeps.bind (still_ofExcept _) fun target htarget => ?_
    have htarget := Option.elim_ok_eq_ok.1 htarget
    have hname := hs.name htarget
    refine Keeps.bind (still_look s _) fun rows hrows => ?_
    obtain ⟨tx, hrows⟩ := hrows
    refine Triple.ite (fun _ => Keeps.throw trivial) fun hfound => Keeps.pure ?_
    intro hcheckable _ hdangles
    obtain ⟨p, hp⟩ := List.exists_mem_of_ne_nil rows (by simpa using hfound)
    have hfits := hholds.fits_near hs hkinds he hr hrow
    rw [← hname] at hfits
    obtain ⟨hp, heq⟩ := (hholds.mem_rowsWhere (by rw [hname, htarget]) (hcheckable.found target htarget)
      hrows hfits hdangles.1).1 hp
    exact hdangles.2 p (by rwa [← hname]) (Std.OrientedCmp.eq_symm heq)
  · obtain ⟨f, hnear, hf⟩ := hwritten
    refine hcheck (Bool.and_eq_true_iff.2 ⟨?_, by simp [hdangles.1]⟩)
    exact List.any_eq_true.2 ⟨f, hnear, List.contains_iff_mem.2 hf⟩

/-! ### Reading rows -/

theorem still_reread (s : Schema) (e : Entity) (key : Key) :
    Still T (reread s e key) fun row => ∃ tx, View.row? ⟨s, T, tx⟩ e key = .ok (some row) := by
  refine Keeps.bind (still_look s _) fun found hfound => ?_
  split
  · exact Keeps.pure hfound
  · exact Keeps.throw trivial

theorem still_findToConnect (s : Schema) (r : Relation) (target : Entity) (selector : Filter) :
    Still T (findToConnect s r target selector) fun row => T.Has target.name row ∧
      ∃ tx, View.findUnique ⟨s, T, tx⟩ target selector = .ok (some row) := by
  refine Keeps.bind (still_look s _) fun found hfound => ?_
  split
  · next row =>
    obtain ⟨tx, hfound⟩ := hfound
    have hgives := (View.gives_has s T tx).findUnique target selector
    rw [hfound] at hgives
    exact Keeps.pure ⟨hgives row rfl, tx, hfound⟩
  · exact Keeps.throw trivial

theorem still_relatedRows (hs : s.Resolved) (r : Relation) (row : Row) :
    Still T (look s fun v => v.relatedRows r row) fun rows => ∀ row ∈ rows, T.Has r.target row := by
  refine (still_look s _).mono (fun rows hrows => ?_) fun _ h => h
  obtain ⟨tx, hrows⟩ := hrows
  have hgives := (View.gives_has s T tx).relatedRows hs r row
  rw [hrows] at hgives
  exact hgives

theorem still_relationToWrite (e : Entity) (name : String) :
    Still T (relationToWrite e name) fun r => e.field? name = none ∧ e.relation? name = some r := by
  refine Triple.ite (fun _ => Keeps.throw trivial) fun hfield => ?_
  refine (still_ofExcept _).mono (fun r hr => ⟨?_, Option.elim_ok_eq_ok.1 hr⟩) fun _ h => h
  simpa using hfield

/-! ### Writing a row -/

section
variable {c : Course} {plan : List (String × Bool)} {Q : α → Tables → Prop} {row : Row}
  (hT : c.Writing T)
include hT

theorem goes_settle {w : Work} (hw : w.tables = T) {outcome : Except Error (α × Transaction × Tables)}
    (h : ∀ a tx T', outcome = .ok (a, tx, T') → c.Writing T' ∧ c.Reaches T plan T' ∧ Q a T') :
    Triple (· = w) (settle outcome)
      (fun a w => c.Writing w.tables ∧ c.Reaches T plan w.tables ∧ Q a w.tables)
      fun _ w => c.Writing w.tables ∧ c.Reaches T (Fulfils.loosen plan) w.tables := by
  refine Triple.settle (.of_ok (fun r hr => h r.1 r.2.1 r.2.2 hr) fun _ _ => ?_)
  rw [hw]
  exact ⟨hT, (Schema.Reaches.refl _ _ T).loose.loose_append plan⟩

variable {e : Entity} (he : c.schema.entity? e.name = some e)
include he

theorem goes_addRow (hrow : c.Storable T e row) :
    c.Goes T [(e.name, false)] (addRow e row) fun key T' =>
      T'.Has e.name row ∧ key = e.keyOf row := by
  refine Triple.get fun w hw => ?_
  refine Triple.bind (goes_settle (Q := fun key T' => T'.Has e.name row ∧ key = e.keyOf row) hT hw
    fun key tx T' h => ?_) fun key => ?_
  · rw [hw] at h
    exact hT.add c.resolved c.kinds he hrow h
  · exact Triple.bind (R := fun _ w => c.Writing w.tables ∧
      c.Reaches T [(e.name, false)] w.tables ∧ w.tables.Has e.name row ∧ key = e.keyOf row)
      (Triple.modify fun _ h => h) fun _ => Triple.pure fun _ h => h

/-- A row that was read is put back with changes. -/
theorem goes_putRow (hrow : c.Storable T e row)
    (hthere : ∃ y, T.Has e.name y ∧ ∀ f, ¬ c.fluid e.name f → row.value f = y.value f) :
    c.Goes T [] (putRow e row) fun _ T' => e.Stores row T T' := by
  refine Triple.get fun w hw => goes_settle hT hw fun key tx T' h => ?_
  rw [hw] at h
  exact hT.put c.resolved c.kinds he c.admissible hrow hthere h

theorem goes_changeRow (hrow : c.Storable T e row)
    (hthere : ∃ y, T.Has e.name y ∧ ∀ f, ¬ c.fluid e.name f → row.value f = y.value f) :
    c.Goes T [] (changeRow e row) fun _ T' => e.Stores row T T' :=
  Course.Goes.last hT (goes_putRow hT he hrow hthere) fun key _ hT' _ hstores =>
    .still hT' (still_note e .update key) fun _ _ => hstores

end

end Operation

end RelationalStore

import RelationalStore.Proofs.PairedTables
import RelationalStore.Proofs.RequestWrites

/- The same writes. Two works of an operation are twins (`Work.Twin`) if their tables are paired and
   their transactions match: they may differ in the numbers of the transactions and in the form of
   keys. From twins an operation gives the same result or the same error and leaves twins
   (`Operation.Mirrors`). There is one rule for each way in which operations are put together, and
   one lemma for each function of the engine; the readings in between are equal because the views of
   twins show the same rows (`Work.Twin.view`).

   A look with a key is the same in both only if the key is in order with the stored ones. So the
   lemmas carry that each row they go on from keeps to the declared kinds, which is what
   `Operation.Upholds` says of the first of the two works. -/
namespace RelationalStore
open SortedMap Read

/-- How the tables of a schema are kept: the values of a column are of its declared kind. -/
abbrev Schema.keeping (s : Schema) (κ : String → String → NumberClass) (n : String) :
    Table.Discipline :=
  .of (κ n) (s.Sorted κ n)

/-- What an invariant of the tables has to be: it tells that the tables are those of the schema, and
writing rows whose values are of the declared kinds keeps it. -/
structure Schema.Governs (s : Schema) (κ : String → String → NumberClass)
    (J : Tables → Transaction → Prop) : Prop where
  apt : s.Apt
  admits : s.Admits (s.Sorted κ)
  upholds : s.Upholds (s.Sorted κ) J
  holds : ∀ {tables tx}, J tables tx → s.Holds κ tables

theorem Row.Obeys.within {s : Schema} {κ : String → String → NumberClass} {n : String} {row : Row}
    (h : row.Obeys (s.Sorted κ) n) : row.Within (κ n) := fun c => (h c).1

/-- What writes lead to is such an invariant. -/
theorem Schema.Apt.governs {s : Schema} {κ : String → String → NumberClass} {first tables : Tables}
    {tx : Transaction} (hs : s.Apt) (hfirst : s.Holds κ first)
    (hd : ∀ n, (tables.get? n).map (·.definition) = (first.get? n).map (·.definition)) :
    s.Governs κ fun tables' tx' => tx.Leads (s.keeping κ) tables tx' tables' := by
  have hdefinition {tables' : Tables} {tx' : Transaction} (h : tx.Leads (s.keeping κ) tables tx' tables')
      (e : Entity) (t : Table) (he : s.entity? e.name = some e) (ht : tables'.get? e.name = some t) :
      t.definition = e.tableDef := by
    obtain ⟨t₀, ht₀, heq⟩ := exists_of_map_eq ((h.definition e.name).trans (hd e.name)) ht
    rw [← heq]
    exact hfirst.definition e t₀ he ht₀
  refine ⟨hs, ?_, ⟨fun {tables' tx'} h => ?_, ?_, ?_, ?_⟩, fun {tables' tx'} h => ?_⟩
  · exact (Schema.admits_within hs.resolved hs.kinds hfirst.classes).and
      (Schema.admits_noBig hs.resolved hs.kinds)
  · intro n t ht row hrow c
    obtain ⟨-, -, hfound⟩ := Transaction.table_ok ht
    obtain ⟨e, he, rfl⟩ := List.mem_map.1 hrow
    exact (h.under.good hfound).values e he c
  · exact fun h _ _ _ hrow _ _ _ hadd => h.trans (Transaction.leads_add h.under h.logged
      (fun _ _ => Table.bears_own hrow.within hrow) hadd)
  · exact fun h _ _ _ hrow _ _ _ hput => h.trans (Transaction.leads_put h.under h.logged
      (fun _ _ => Table.bears_own hrow.within hrow) hput)
  · intro tables' tx' h e he row hrow old _ _ hdelete
    refine h.trans (Transaction.leads_delete h.under h.logged (fun t ht _ => ?_) hdelete)
    have hkey : e.keyOf row = Key.ofRow t.definition.keyPath row := by
      rw [hdefinition h e t he ht]
      rfl
    rw [hkey]
    exact Table.bears_none hrow.within hrow
  · exact ⟨hfirst.classes, ⟨h.under.name, fun ht => (h.under.good ht).toProper⟩, hdefinition h⟩

/-- Works of an operation in two stores that hold the same rows. -/
structure Work.Twin (s : Schema) (κ : String → String → NumberClass)
    (J : Tables → Transaction → Prop) (w w' : Work) : Prop where
  invariant : J w.tables w.transaction
  tables : w.tables.Paired (s.keeping κ) w'.tables
  transaction : w.transaction.Matches w'.transaction
  supply : w'.supply = w.supply
  changes : w'.changes = w.changes
  deleting : w'.deleting = w.deleting

variable {s : Schema} {κ : String → String → NumberClass} {J : Tables → Transaction → Prop}
  {e target : Entity}

theorem Tables.Paired.holds {a b : Tables} (h : a.Paired (s.keeping κ) b) (ha : s.Holds κ a) :
    s.Holds κ b := by
  refine ⟨ha.classes, ⟨fun {n u} hu => ?_, fun {n u} hu => ?_⟩, fun e u he hu => ?_⟩ <;>
    obtain ⟨t, ht, htu⟩ := h.partner hu
  · rw [Table.name, ← htu.definition]
    exact ha.proper.name ht
  · exact htu.right.toProper
  · rw [← htu.definition]
    exact ha.definition e t he ht

/-- The views of twins show the same rows. -/
theorem Work.Twin.view {w w' : Work} (h : Work.Twin s κ J w w') (hg : s.Governs κ J) :
    View.Twin s κ ⟨s, w.tables, w.transaction⟩ ⟨s, w'.tables, w'.transaction⟩ where
  schema := rfl
  schema' := rfl
  holds := hg.holds h.invariant
  holds' := h.tables.holds (hg.holds h.invariant)
  rows e := by
    have htable := h.transaction.table h.tables e.name
    rw [View.rows, View.rows, View.table, View.table]
    cases ht : w.transaction.table w.tables e.name <;>
      cases hu : w'.transaction.table w'.tables e.name <;> rw [ht, hu] at htable
    · exact congrArg _ htable
    · exact htable.elim
    · exact htable.elim
    · exact congrArg _ htable.2.toList_eq

namespace Operation
variable {α β : Type}

/-- From twins the operation goes the same way, with the same result or error, to twins. -/
def Mirrors (s : Schema) (κ : String → String → NumberClass) (J : Tables → Transaction → Prop)
    (op : Operation α) : Prop :=
  ∀ w w', Work.Twin s κ J w w' →
    match op.run w, op.run w' with
    | .ok a v, .ok a' v' => a = a' ∧ Work.Twin s κ J v v'
    | .error e v, .error e' v' => e = e' ∧ Work.Twin s κ J v v'
    | _, _ => False

namespace Mirrors

theorem pure (a : α) : Mirrors s κ J (Pure.pure a) := fun _ _ h => ⟨rfl, h⟩

theorem throw (e : Error) : Mirrors s κ J (MonadExcept.throw e : Operation α) := fun _ _ h => ⟨rfl, h⟩

theorem bind_ok {x : Operation β} {f : β → Operation α} (hx : Mirrors s κ J x)
    (hf : ∀ w b v, J w.tables w.transaction → x.run w = .ok b v → Mirrors s κ J (f b)) :
    Mirrors s κ J (x >>= f) := by
  intro w w' h
  have hxw := hx w w' h
  show match EStateM.bind x f w, EStateM.bind x f w' with
    | .ok a v, .ok a' v' => a = a' ∧ Work.Twin s κ J v v'
    | .error e v, .error e' v' => e = e' ∧ Work.Twin s κ J v v'
    | _, _ => False
  unfold EStateM.bind
  rw [EStateM.run, EStateM.run] at hxw
  cases hr : x w <;> cases hr' : x w' <;> rw [hr, hr'] at hxw
  · obtain ⟨rfl, hv⟩ := hxw
    exact hf w _ _ h.invariant hr _ _ hv
  · exact hxw.elim
  · exact hxw.elim
  · exact hxw

/-- What the first gives has what the invariant says of it. -/
theorem bind {x : Operation β} {f : β → Operation α} {Q : β → Prop} (hx : Mirrors s κ J x)
    (hu : Upholds J x Q) (hf : ∀ b, Q b → Mirrors s κ J (f b)) : Mirrors s κ J (x >>= f) := by
  refine hx.bind_ok fun w b v hw hrun => hf b ?_
  have hrun' := hu w hw
  rw [hrun] at hrun'
  exact hrun'.2

/-- Whatever the first gives. -/
theorem andThen {x : Operation β} {f : β → Operation α} (hx : Mirrors s κ J x)
    (hf : ∀ b, Mirrors s κ J (f b)) : Mirrors s κ J (x >>= f) :=
  hx.bind_ok fun _ b _ _ _ => hf b

theorem ite {c : Prop} [Decidable c] {x y : Operation α} (hx : c → Mirrors s κ J x)
    (hy : ¬ c → Mirrors s κ J y) : Mirrors s κ J (if c then x else y) := by
  split
  · next h => exact hx h
  · next h => exact hy h

theorem ofExcept (r : Except Error α) : Mirrors s κ J (MonadExcept.ofExcept r) := by
  cases r with
  | ok a => exact pure a
  | error e => exact throw e

theorem discard {x : Operation α} (h : Mirrors s κ J x) : Mirrors s κ J (discard x) :=
  h.andThen fun _ => pure _

theorem forM {l : List β} {f : β → Operation Unit} (hf : ∀ b ∈ l, Mirrors s κ J (f b)) :
    Mirrors s κ J (l.forM f) := by
  induction l with
  | nil => exact pure _
  | cons b l ih =>
    refine andThen (hf b List.mem_cons_self) fun _ => ?_
    exact ih fun b' hb' => hf b' (List.mem_cons_of_mem b hb')

theorem mapM {l : List β} {f : β → Operation α} (hf : ∀ b ∈ l, Mirrors s κ J (f b)) :
    Mirrors s κ J (l.mapM f) := by
  induction l with
  | nil => exact pure _
  | cons b l ih =>
    rw [List.mapM_cons]
    refine andThen (hf b List.mem_cons_self) fun a => ?_
    exact andThen (ih fun b' hb' => hf b' (List.mem_cons_of_mem b hb')) fun _ => pure _

theorem foldlM {l : List β} {f : α → β → Operation α} (hf : ∀ a, ∀ b ∈ l, Mirrors s κ J (f a b))
    (a : α) : Mirrors s κ J (l.foldlM f a) := by
  induction l generalizing a with
  | nil => exact pure _
  | cons b l ih =>
    rw [List.foldlM_cons]
    refine andThen (hf a b List.mem_cons_self) fun a' => ?_
    exact ih (fun a b' hb' => hf a b' (List.mem_cons_of_mem b hb')) a'

/-- What is done with the state is the same in both. -/
theorem get {f : Work → Operation α}
    (h : ∀ w w', Work.Twin s κ J w w' → f w' = f w ∧ Mirrors s κ J (f w)) :
    Mirrors s κ J (MonadState.get >>= f) := by
  intro w w' hw
  obtain ⟨heq, hmirrors⟩ := h w w' hw
  show match (f w).run w, (f w').run w' with
    | .ok a v, .ok a' v' => a = a' ∧ Work.Twin s κ J v v'
    | .error e v, .error e' v' => e = e' ∧ Work.Twin s κ J v v'
    | _, _ => False
  rw [heq]
  exact hmirrors w w' hw

/-- A change of the state that leads from twins to twins. -/
theorem modify {f : Work → Work} (h : ∀ w w', Work.Twin s κ J w w' → Work.Twin s κ J (f w) (f w')) :
    Mirrors s κ J (MonadState.modifyGet fun w => ((), f w)) := fun w w' hw => ⟨rfl, h w w' hw⟩

theorem look_eq {reading : View → Read α}
    (h : ∀ w w', Work.Twin s κ J w w' →
      reading ⟨s, w.tables, w.transaction⟩ = reading ⟨s, w'.tables, w'.transaction⟩) :
    Mirrors s κ J (look s reading) := by
  intro w w' hw
  show match (MonadExcept.ofExcept (reading ⟨s, w.tables, w.transaction⟩) : Operation α).run w,
    (MonadExcept.ofExcept (reading ⟨s, w'.tables, w'.transaction⟩) : Operation α).run w' with
    | .ok a v, .ok a' v' => a = a' ∧ Work.Twin s κ J v v'
    | .error e v, .error e' v' => e = e' ∧ Work.Twin s κ J v v'
    | _, _ => False
  rw [← h w w' hw]
  exact ofExcept _ w w' hw

/-- A reading that gives the same of the same rows. -/
theorem look (hg : s.Governs κ J) {reading : View → Read α}
    (h : ∀ v v', View.Twin s κ v v' → reading v = reading v') : Mirrors s κ J (look s reading) :=
  look_eq fun _ _ hw => h _ _ (hw.view hg)

/-- A write that is made in the same way in both. -/
theorem write {f : Work → Except Error (α × Transaction × Tables)}
    (h : ∀ w w', Work.Twin s κ J w w' → Transaction.Matches.Wrote (s.keeping κ) (f w) (f w'))
    (hJ : ∀ w, J w.tables w.transaction → ∀ a tx tables, f w = .ok (a, tx, tables) → J tables tx) :
    Mirrors s κ J (MonadState.get >>= fun w => settle (f w)) := by
  intro w w' hw
  have hwrote := h w w' hw
  have hinvariant := hJ w hw.invariant
  show match (settle (f w)).run w, (settle (f w')).run w' with
    | .ok a v, .ok a' v' => a = a' ∧ Work.Twin s κ J v v'
    | .error e v, .error e' v' => e = e' ∧ Work.Twin s κ J v v'
    | _, _ => False
  cases hf : f w <;> cases hf' : f w' <;> rw [hf, hf'] at hwrote
  · exact ⟨hwrote, hw⟩
  · exact hwrote.elim
  · exact hwrote.elim
  · obtain ⟨heq, hmatches, hpaired⟩ := hwrote
    exact ⟨heq, hinvariant _ _ _ hf, hpaired, hmatches, hw.supply, hw.changes, hw.deleting⟩

end Mirrors

variable (hg : s.Governs κ J)

/-! ### Writing rows -/

theorem mirrors_note (kind : ChangeKind) (key : Key) : Mirrors s κ J (note e kind key) :=
  Mirrors.modify fun _ _ hw =>
    ⟨hw.invariant, hw.tables, hw.transaction, hw.supply, by rw [hw.changes], hw.deleting⟩

theorem mirrors_now : Mirrors s κ J now := fun w w' hw => by
  refine ⟨?_, hw.invariant, hw.tables, hw.transaction, ?_, hw.changes, hw.deleting⟩
  · exact congrArg (fun supply => supply.now.1) hw.supply.symm
  · exact congrArg (fun supply => supply.now.2) hw.supply

theorem mirrors_token : Mirrors s κ J token := fun w w' hw => by
  refine ⟨?_, hw.invariant, hw.tables, hw.transaction, ?_, hw.changes, hw.deleting⟩
  · exact congrArg (fun supply => supply.token.1) hw.supply.symm
  · exact congrArg (fun supply => supply.token.2) hw.supply

theorem mirrors_beginDelete (key : Key) : Mirrors s κ J (beginDelete e key) := by
  intro w w' hw
  let begun (w : Work) : Bool := w.deleting.any fun d => d.1 == e.name && d.2.equiv key
  have hrun (w : Work) : (beginDelete e key).run w =
      if begun w then .ok false w
      else .ok true { w with deleting := (e.name, key) :: w.deleting } := by
    change (if begun w then (pure false : Operation Bool)
      else set { w with deleting := (e.name, key) :: w.deleting } >>= fun _ => pure true) w = _
    split <;> rfl
  have hsame : begun w' = begun w := congrArg (List.any · _) hw.deleting
  rw [hrun, hrun, hsame, hw.deleting]
  by_cases hbegun : begun w = true
  · rw [if_pos hbegun, if_pos hbegun]
    exact ⟨rfl, hw⟩
  · rw [if_neg hbegun, if_neg hbegun]
    exact ⟨rfl, hw.invariant, hw.tables, hw.transaction, hw.supply, hw.changes, rfl⟩

section
variable (he : s.entity? e.name = some e) {row : Row} (hrow : row.Obeys (s.Sorted κ) e.name)
include hg he hrow

theorem mirrors_addRow : Mirrors s κ J (addRow e row) := by
  have hadd : Mirrors s κ J (get >>= fun w => settle (w.transaction.add w.tables e.name row)) :=
    Mirrors.write (fun _ _ hw => hw.transaction.add hw.tables hrow hrow.within)
      fun _ hw _ _ _ h => hg.upholds.add hw he hrow h
  exact hadd.andThen fun key => (mirrors_note .create key).andThen fun _ => .pure key

theorem mirrors_putRow : Mirrors s κ J (putRow e row) :=
  Mirrors.write (fun _ _ hw => hw.transaction.put hw.tables hrow hrow.within)
    fun _ hw _ _ _ h => hg.upholds.put hw he hrow h

theorem mirrors_changeRow : Mirrors s κ J (changeRow e row) :=
  (mirrors_putRow hg he hrow).andThen fun key => mirrors_note .update key

theorem mirrors_deleteRow : Mirrors s κ J (deleteRow e (e.keyOf row)) := by
  have hdelete : Mirrors s κ J
      (get >>= fun w => settle (w.transaction.delete w.tables e.name (e.keyOf row))) :=
    Mirrors.write (fun _ _ hw => hw.transaction.delete hw.tables hrow hrow.within fun t ht => by
        rw [(hg.holds hw.invariant).definition e t he ht]
        rfl)
      fun _ hw _ _ _ h => hg.upholds.delete hw he hrow h
  exact hdelete.discard.andThen fun _ => mirrors_note .delete _

/-- A row is added under its own key. -/
theorem upholds_addRow_key : Upholds J (addRow e row) fun key => key = e.keyOf row := by
  refine Triple.get fun w hw => Triple.bind (upholds_settle (Q := fun key => key = e.keyOf row) hw
    fun key tx tables h => ⟨hg.upholds.add hw he hrow h, ?_⟩) fun key => ?_
  · obtain ⟨t, hwrote, rfl, -⟩ := Transaction.add_ok h
    exact (hg.holds hw).tableDef he hwrote.found row
  · exact Triple.bind (R := fun _ w => J w.tables w.transaction ∧ key = e.keyOf row)
      (Triple.modify fun _ h => h) fun _ => Triple.pure fun _ h => h

end

/-! ### Complete rows -/

theorem mirrors_requireKind (f : FieldDef) (kind : ScalarKind) (call : String) :
    Mirrors s κ J (requireKind e f kind call) :=
  .ite (fun _ => .throw _) fun _ => .pure _

theorem mirrors_touch (row : Row) : Mirrors s κ J (touch e row) :=
  mirrors_now.andThen fun _ => .pure _

section
variable (he : s.entity? e.name = some e)
include hg he

/-- The greatest number is the same, whether it is read off the last key or off the rows. -/
theorem lastNumber_eq {f : FieldDef} (hf : f ∈ e.fields) (hkind : f.kind = .int) {w w' : Work}
    (hw : Work.Twin s κ J w w') {t u : Table} (ht : w.tables.get? e.name = some t)
    (htu : t.Agrees (s.keeping κ e.name) u) :
    (if e.idFields = [f.name] then t.lastKey?.bind fun key => key.parts.head?.bind Value.int?
      else (t.toList.filterMap fun row => (row.value f.name).int?).max?) =
    if e.idFields = [f.name] then u.lastKey?.bind fun key => key.parts.head?.bind Value.int?
      else (u.toList.filterMap fun row => (row.value f.name).int?).max? := by
  have hholds := hg.holds hw.invariant
  split
  · next hid =>
    refine htu.lastKey_int? (c := f.name) ?_ ?_ fun v hv => ?_
    · rw [hholds.definition e t he ht]
      exact hid
    · rw [hholds.classes e he, Schema.classes_field hg.apt.resolved he hf, hkind]
      rfl
    · exact (Schema.noBig_iff hg.apt.resolved he hf).1 hv.2 hkind
  · rw [htu.toList_eq]

theorem mirrors_nextIncrement {f : FieldDef} (hf : f ∈ e.fields) (hkind : f.kind = .int) :
    Mirrors s κ J (nextIncrement s e f) := by
  let last? (t : Table) : Option Int :=
    if e.idFields = [f.name] then t.lastKey?.bind fun key => key.parts.head?.bind Value.int?
    else (t.toList.filterMap fun row => (row.value f.name).int?).max?
  -- Of the table no more is used than its greatest number.
  have hread : nextIncrement s e f = look s (fun v => (v.table e).map last?) >>= fun last? =>
      if last?.getD 0 + 1 < Json.intLimit then pure (.int (last?.getD 0 + 1))
      else throw (.invalidValue e.name f.name .incrementOverflow) := by
    funext w
    have hget : (get : Operation Work) w = .ok w w := rfl
    unfold nextIncrement look
    simp only [bind, EStateM.bind, hget]
    cases View.table ⟨s, w.tables, w.transaction⟩ e <;> rfl
  rw [hread]
  refine .andThen (.look_eq fun w w' hw => ?_) fun last? => .ite (fun _ => .pure _) fun _ => .throw _
  have htable := hw.transaction.table hw.tables e.name
  rw [View.table, View.table]
  cases ht : w.transaction.table w.tables e.name <;>
    cases hu : w'.transaction.table w'.tables e.name <;> rw [ht, hu] at htable
  · exact congrArg Except.error htable
  · exact htable.elim
  · exact htable.elim
  · exact congrArg Except.ok (lastNumber_eq hg he hf hkind hw htable.1 htable.2)

theorem mirrors_generate {f : FieldDef} (hf : f ∈ e.fields) (time : DateTime) {d : DefaultValue}
    (hd : f.default = some d) : Mirrors s κ J (generate s e f time d) := by
  cases d with
  | autoIncrement => exact mirrors_nextIncrement hg he hf (hg.apt.resolved.increment he f hf hd)
  | uuid =>
    exact (mirrors_requireKind f .string _).andThen fun _ => mirrors_token.andThen fun _ => .pure _
  | cuid =>
    exact (mirrors_requireKind f .string _).andThen fun _ => mirrors_token.andThen fun _ => .pure _
  | now => exact (mirrors_requireKind f .datetime _).andThen fun _ => .pure _
  | literal literal => exact .ofExcept _

theorem mirrors_absent {f : FieldDef} (hf : f ∈ e.fields) (time : DateTime) :
    Mirrors s κ J (absent s e f time) := by
  unfold absent
  refine .ite (fun _ => .pure _) fun _ => ?_
  split
  · next d hd => exact mirrors_generate hg he hf time hd
  · exact .ite (fun _ => .pure _) fun _ => .ite (fun _ => .throw _) fun _ => .pure _

theorem mirrors_complete {f : FieldDef} (hf : f ∈ e.fields) (time : DateTime)
    (written : Option Value) : Mirrors s κ J (complete s e f time written) := by
  unfold complete
  split
  · exact mirrors_absent hg he hf time
  · refine .ite (fun _ => .pure _) fun _ => .ite (fun _ => .throw _) fun _ => ?_
    exact .ite (fun _ => .pure _) fun _ => .pure _

theorem mirrors_fillDefaults (row : Row) : Mirrors s κ J (fillDefaults s e row) := by
  refine mirrors_now.andThen fun time => .andThen (.mapM fun f hf => ?_) fun values => ?_
  · exact (mirrors_complete hg he hf time _).andThen fun _ => .pure _
  · split
    · exact .throw _
    · exact .pure _

end


/-! ### Looking into the schema and at rows -/

theorem mirrors_requireRelation (e : Entity) (name : String) :
    Mirrors s κ J (MonadExcept.ofExcept (e.requireRelation name)) := .ofExcept _

theorem mirrors_relationToWrite (e : Entity) (name : String) :
    Mirrors s κ J (relationToWrite e name) :=
  .ite (fun _ => .throw _) fun _ => mirrors_requireRelation e name

section
include hg

/-- The rows under the key of some row. -/
theorem mirrors_row? (he : s.entity? e.name = some e) {row : Row} (hrow : row.Within (κ e.name)) :
    Mirrors s κ J (look s fun v => v.row? e (e.keyOf row)) :=
  .look hg fun _ _ hv => hv.row?_eq he hrow.fits.key

theorem mirrors_findUnique (he : s.entity? e.name = some e) (selector : Filter) :
    Mirrors s κ J (look s fun v => v.findUnique e selector) :=
  .look hg fun _ _ hv => hv.findUnique_eq hg.apt he selector

theorem mirrors_relatedRows (he : s.entity? e.name = some e) {r : Relation} (hr : r ∈ e.relations)
    {row : Row} (hrow : row.Within (κ e.name)) :
    Mirrors s κ J (look s fun v => v.relatedRows r row) :=
  .look hg fun _ _ hv => hv.relatedRows_eq hg.apt he hr hrow

theorem mirrors_reread (he : s.entity? e.name = some e) {row : Row} (hrow : row.Within (κ e.name)) :
    Mirrors s κ J (reread s e (e.keyOf row)) := by
  refine (mirrors_row? hg he hrow).andThen fun found => ?_
  split
  · exact .pure _
  · exact .throw _

theorem mirrors_findToConnect (r : Relation) (ht : s.entity? target.name = some target)
    (selector : Filter) : Mirrors s κ J (findToConnect s r target selector) := by
  refine (mirrors_findUnique hg ht selector).andThen fun found => ?_
  split
  · exact .pure _
  · exact .throw _

/-- A foreign key is in order with the keys that it may reference. -/
theorem mirrors_checkForeignKeys (he : s.entity? e.name = some e) {row : Row}
    (hrow : row.Within (κ e.name)) (written : List String) :
    Mirrors s κ J (checkForeignKeys s e row written) := by
  have hs := hg.apt.resolved
  refine .forM fun r hr => .ite (fun hkey => ?_) fun _ => .pure _
  have hnull : (Key.ofRow r.near row).hasNull = false := by
    simp only [Bool.and_eq_true, Bool.not_eq_true'] at hkey
    exact hkey.2
  refine .bind (.ofExcept _) (upholds_require hs r.target) fun t ht => .andThen ?_ fun rows => ?_
  · refine .look hg fun v v' hv => hv.rowsWhere_eq hg.apt ht.1 ?_ hnull
    rw [ht.2]
    exact hv.holds.fits_near hs hg.apt.kinds he hr hrow
  · exact .ite (fun _ => .throw _) fun _ => .pure _

end

/-! ### Rows that reference a parent -/

section
include hg

theorem mirrors_unlink (ht : s.entity? target.name = some target) (r : Relation) {child : Row}
    (hchild : child.Obeys (s.Sorted κ) target.name) : Mirrors s κ J (unlink r target child) := by
  have hV := hg.admits
  simp only [unlink]
  split
  · exact .throw _
  · refine .bind (mirrors_touch _) (upholds_touch hV ht ?_) fun row hrow => mirrors_changeRow hg ht hrow
    exact hchild.foldl fun _ hrow _ _ => hrow.insert (hV.null _ _)

theorem mirrors_disconnect (he : s.entity? e.name = some e) (ht : s.entity? target.name = some target)
    {r : Relation} (hr : r ∈ e.relations) (htarget : target.name = r.target) {parent : Row}
    (hparent : parent.Within (κ e.name)) (d : Disconnect) :
    Mirrors s κ J (disconnect s e r target parent d) := by
  have hJ := hg.upholds
  cases d with
  | flag on =>
    cases on with
    | false => exact .pure _
    | true =>
      refine .ite (fun _ => .throw _) fun _ => ?_
      refine .bind (mirrors_relatedRows hg he hr hparent) (upholds_relatedRows hg.apt.resolved hJ r parent)
        fun rows hrows => .forM fun row hrow => mirrors_unlink hg ht r ?_
      rw [htarget]
      exact hrows row hrow
  | records selectors =>
    refine .ite (fun _ => .throw _) fun _ => .forM fun selector _ => ?_
    refine .bind (mirrors_findUnique hg ht selector)
      (upholds_look hJ fun v _ hv => hv.findUnique target selector) fun found hfound => ?_
    split
    · exact .pure _
    · exact .ite (fun _ => mirrors_unlink hg ht r (hfound _ rfl)) fun _ => .pure _

theorem mirrors_connect (he : s.entity? e.name = some e) (ht : s.entity? target.name = some target)
    {r : Relation} (hr : r ∈ e.relations) (howning : r.isOwning = false)
    (htarget : target.name = r.target) {parent : Row} (hparent : parent.Obeys (s.Sorted κ) e.name)
    (selector : Filter) : Mirrors s κ J (connect s r target parent selector) := by
  have hs := hg.apt.resolved
  have hV := hg.admits
  have hJ := hg.upholds
  have hlink := Relation.lists_childLink hs hV he hr howning hparent
  rw [← htarget] at hlink
  refine .bind (mirrors_findToConnect hg r ht selector) (upholds_findToConnect hJ r target selector)
    fun child hchild => ?_
  have hwrite : Mirrors s κ J (touch target (child.insertAll (r.childLink parent)) >>= changeRow target) :=
    .bind (mirrors_touch _) (upholds_touch hV ht (hchild.insertAll hlink)) fun row hrow =>
      mirrors_changeRow hg ht hrow
  refine .ite (fun _ => ?_) fun _ => hwrite
  refine .bind (mirrors_relatedRows hg he hr hparent.within) (upholds_relatedRows hs hJ r parent)
    fun rows hrows => .andThen (.forM fun row hrow => ?_) fun _ => hwrite
  refine .ite (fun _ => mirrors_unlink hg ht r ?_) fun _ => .pure _
  rw [htarget]
  exact hrows row hrow

/-! ### Creation -/

omit hg in
theorem mirrors_writeLiteral (e : Entity) (row : Row) (name : String) (literal : Json) :
    Mirrors s κ J (writeLiteral e row name literal) := by
  unfold writeLiteral
  split
  · exact .andThen (.ofExcept _) fun _ => .pure _
  · exact .andThen (mirrors_requireRelation e name).discard fun _ => .throw _

omit hg in
theorem mirrors_writeUpdate (e : Entity) (row : Row) (name : String) (op : UpdateOp) :
    Mirrors s κ J (writeUpdate e row name op) := by
  unfold writeUpdate
  split
  · exact mirrors_writeLiteral e row name _
  · exact .throw _
  · exact .andThen (mirrors_requireRelation e name).discard fun _ => .throw _

omit hg in
/-- The violation of a unique constraint is the same in both, so it is caught in both. -/
theorem mirrors_skipDuplicate (skip : Bool) {creation : Operation Row}
    (h : Mirrors s κ J creation) : Mirrors s κ J (skipDuplicate skip creation) := by
  intro w w' hw
  have hrun := h w w' hw
  rw [run_skipDuplicate, run_skipDuplicate]
  cases hr : creation.run w with
  | ok row v =>
    cases hr' : creation.run w' with
    | ok row' v' =>
      rw [hr, hr'] at hrun
      exact ⟨congrArg some hrun.1, hrun.2⟩
    | error e v' =>
      rw [hr, hr'] at hrun
      exact hrun.elim
  | error e v =>
    cases hr' : creation.run w' with
    | ok row v' =>
      rw [hr, hr'] at hrun
      exact hrun.elim
    | error e' v' =>
      rw [hr, hr'] at hrun
      obtain ⟨rfl, hv⟩ := hrun
      cases e with
      | uniqueViolation entity fields =>
        cases skip with
        | false => exact ⟨rfl, hv⟩
        | true => exact ⟨rfl, hv⟩
      | _ => exact ⟨rfl, hv⟩

set_option linter.unusedSectionVars false in
mutual

theorem mirrors_create {e : Entity} (he : s.entity? e.name = some e) {link : Row}
    (hlink : link.Lists (s.Sorted κ) e.name) : ∀ d : WriteData, Mirrors s κ J (create s e link d)
  | ⟨fields⟩ => by
    have hs := hg.apt.resolved
    have hV := hg.admits
    have hJ := hg.upholds
    rw [create]
    refine .bind (mirrors_createFields e ∅ fields)
      (upholds_createFields hs hV hJ he (.empty hV.null) fields) fun row hrow => ?_
    have hlinked := hrow.insertAll hlink
    refine .andThen (mirrors_checkForeignKeys hg he hlinked.within _) fun _ => ?_
    refine .bind (mirrors_fillDefaults hg he _) (upholds_fillDefaults hV he hlinked) fun row hrow => ?_
    refine .bind (mirrors_addRow hg he hrow) (upholds_addRow_key hg he hrow) fun key hkey => ?_
    subst hkey
    refine .andThen (mirrors_createChildren he hrow fields) fun _ => ?_
    exact mirrors_reread hg he hrow.within

theorem mirrors_createFields (e : Entity) (row : Row) : ∀ fields : List (String × FieldWrite),
    Mirrors s κ J (createFields s e row fields)
  | [] => by
    rw [createFields]
    exact .pure _
  | (name, write) :: rest => by
    rw [createFields]
    exact .andThen (mirrors_createField e row name write) fun row => mirrors_createFields e row rest

theorem mirrors_createField (e : Entity) (row : Row) (name : String) : ∀ write : FieldWrite,
    Mirrors s κ J (createField s e row name write)
  | .literal literal => by
    rw [createField]
    exact mirrors_writeLiteral e row name literal
  | .update op => by
    rw [createField]
    exact mirrors_writeUpdate e row name op
  | .relation write => by
    rw [createField]
    refine .andThen (mirrors_relationToWrite e name) fun r => ?_
    refine .ite (fun _ => .ite (fun _ => .throw _) fun _ => ?_) fun _ => .pure _
    exact .andThen (mirrors_resolveParent r write) fun _ => .pure _

theorem mirrors_resolveParent (r : Relation) : ∀ write : NestedWrite,
    Mirrors s κ J (resolveParent s r write)
  | ⟨[data], [], _, _, _⟩ => by
    rw [resolveParent]
    refine .bind (.ofExcept _) (upholds_require hg.apt.resolved r.target) fun target htarget => ?_
    exact mirrors_create htarget.1 .empty data
  | ⟨[], [selector], _, _, _⟩ => by
    rw [resolveParent]
    refine .bind (.ofExcept _) (upholds_require hg.apt.resolved r.target) fun target htarget => ?_
    exact mirrors_findToConnect hg r htarget.1 selector
  | ⟨[], [], _, _, _⟩ | ⟨[], _ :: _ :: _, _, _, _⟩ | ⟨[_], _ :: _, _, _, _⟩
  | ⟨_ :: _ :: _, _, _, _, _⟩ => by
    rw [resolveParent] <;> try simp
    exact .andThen (Mirrors.ofExcept _).discard fun _ => .throw _

theorem mirrors_createChildren {e : Entity} (he : s.entity? e.name = some e) {parent : Row}
    (hparent : parent.Obeys (s.Sorted κ) e.name) : ∀ fields : List (String × FieldWrite),
    Mirrors s κ J (createChildren s e parent fields)
  | [] => by
    rw [createChildren]
    exact .pure _
  | (name, write) :: rest => by
    rw [createChildren]
    refine .andThen (mirrors_createChild he hparent name write) fun _ => ?_
    exact mirrors_createChildren he hparent rest

theorem mirrors_createChild {e : Entity} (he : s.entity? e.name = some e) {parent : Row}
    (hparent : parent.Obeys (s.Sorted κ) e.name) (name : String) : ∀ write : FieldWrite,
    Mirrors s κ J (createChild s e parent name write)
  | .literal _ => by
    rw [createChild]
    exact .pure _
  | .update _ => by
    rw [createChild]
    exact .pure _
  | .relation write => by
    rw [createChild]
    refine .bind (mirrors_relationToWrite e name) (carries_relationToWrite e name) fun r hr => ?_
    refine .ite (fun howning => ?_) fun _ => .pure _
    exact mirrors_writeChildren he hr (by simpa using howning) hparent write

theorem mirrors_writeChildren {e : Entity} (he : s.entity? e.name = some e) {r : Relation}
    (hr : r ∈ e.relations) (howning : r.isOwning = false) {parent : Row}
    (hparent : parent.Obeys (s.Sorted κ) e.name) : ∀ write : NestedWrite,
    Mirrors s κ J (writeChildren s e r parent write)
  | ⟨created, connected, _, batch, released⟩ => by
    have hs := hg.apt.resolved
    rw [writeChildren]
    refine .bind (.ofExcept _) (upholds_require hs r.target) fun target htarget => ?_
    have hlink := Relation.lists_childLink hs hg.admits he hr howning hparent
    rw [← htarget.2] at hlink
    refine .ite (fun _ => .throw _) fun _ => ?_
    have hrest : Mirrors s κ J (do
        createAll s target (r.childLink parent) created
        connected.forM (connect s r target parent)
        writeBatch s e r target parent batch) := by
      refine .andThen (mirrors_createAll htarget.1 hlink created) fun _ => ?_
      refine .andThen (.forM fun selector _ => ?_) fun _ => ?_
      · exact mirrors_connect hg he htarget.1 hr howning htarget.2 hparent selector
      · exact mirrors_writeBatch htarget.1 hlink e batch
    cases released with
    | none => exact hrest
    | some released =>
      exact .andThen (mirrors_disconnect hg he htarget.1 hr htarget.2 hparent.within released)
        fun _ => hrest

theorem mirrors_createAll {e : Entity} (he : s.entity? e.name = some e) {link : Row}
    (hlink : link.Lists (s.Sorted κ) e.name) : ∀ rows : List WriteData,
    Mirrors s κ J (createAll s e link rows)
  | [] => by
    rw [createAll]
    exact .pure _
  | data :: rest => by
    rw [createAll]
    exact .andThen (mirrors_create he hlink data).discard fun _ => mirrors_createAll he hlink rest

theorem mirrors_writeBatch {target : Entity} (ht : s.entity? target.name = some target)
    {r : Relation} {parent : Row} (hlink : (r.childLink parent).Lists (s.Sorted κ) target.name)
    (e : Entity) : ∀ batch : Option CreateMany, Mirrors s κ J (writeBatch s e r target parent batch)
  | none => by
    rw [writeBatch]
    exact .pure _
  | some batch => by
    rw [writeBatch]
    exact mirrors_writeMany ht hlink e batch

theorem mirrors_writeMany {target : Entity} (ht : s.entity? target.name = some target)
    {r : Relation} {parent : Row} (hlink : (r.childLink parent).Lists (s.Sorted κ) target.name)
    (e : Entity) : ∀ batch : CreateMany, Mirrors s κ J (writeMany s e r target parent batch)
  | ⟨rows, skip⟩ => by
    rw [writeMany]
    exact .ite (fun _ => .throw _) fun _ => mirrors_createBatch ht hlink skip rows

theorem mirrors_createBatch {e : Entity} (he : s.entity? e.name = some e) {link : Row}
    (hlink : link.Lists (s.Sorted κ) e.name) (skip : Bool) : ∀ rows : List WriteData,
    Mirrors s κ J (createBatch s e link skip rows)
  | [] => by
    rw [createBatch]
    exact .pure _
  | data :: rest => by
    rw [createBatch]
    refine .ite (fun _ => .throw _) fun _ => ?_
    refine .andThen (mirrors_skipDuplicate skip (mirrors_create he hlink data)).discard fun _ => ?_
    exact mirrors_createBatch he hlink skip rest

end

end

end Operation

end RelationalStore

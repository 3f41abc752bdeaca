import RelationalStore.Proofs.NestedWrites
import RelationalStore.Proofs.RequestWrites
import RelationalStore.Proofs.WiderReads

/- Writes in a wider transaction. The same work can be done in two transactions, the second of which
   may write to every table (`Work.Wider`). Unless the first one refuses something, an operation
   gives the same result or the same error in both and leaves the same work (`Operation.Widens`).
   Each way in which operations are put together has one rule and each function of the engine one
   lemma, the readings in between being those of `View.Wider`. An operation names no tables that it
   does not find, so what the second transaction has in its scope stays every table that there is.

   A violation of a unique constraint may be caught on the way; a refusal never is, so an operation
   that met one has failed. -/
namespace RelationalStore
open SortedMap Read

/-! ### Writing to a table -/

namespace Transaction
variable {α : Type} {id : Nat} {tx ux : Transaction} {tables : Tables} {name : String}

/-- The write is refused in the first transaction, or it fails in the same way in both, or it makes the
same tables in both and leaves the second one wide. -/
inductive Widens (id : Nat) : Except Error (α × Transaction × Tables) →
    Except Error (α × Transaction × Tables) → Prop where
  | refused {e : Error} {r : Except Error (α × Transaction × Tables)} (he : e.Refusal) :
      Widens id (.error e) r
  | failed (e : Error) : Widens id (.error e) (.error e)
  | wrote (a : α) (tx : Transaction) {ux : Transaction} {tables : Tables} (hid : ux.id = id)
      (hux : ux.Wide tables) : Widens id (.ok (a, tx, tables)) (.ok (a, ux, tables))

/-- Another table under a name that there was adds no name. -/
theorem Wide.insert (h : ux.Wide tables) {t : Table} (hfound : tables.get? name = some t) (u : Undo)
    (next : Table) : (ux.note u).Wide (tables.insert name next) where
  active := h.active
  writes := h.writes
  scope n hn := by
    rw [get?_insert_eq] at hn
    split at hn
    · next heq =>
      subst heq
      exact h.scope name (by rw [hfound]; rfl)
    · exact h.scope n hn

theorem widens_tableToWrite (hux : ux.Wide tables) (name : String) :
    Read.Widens (tx.tableToWrite tables name) (ux.tableToWrite tables name) := by
  refine (widens_table hux name).bind fun t => ?_
  rw [if_pos hux.writes]
  split
  · exact .same _
  · exact .fails (.readOnly name)

/-- A write that looks its table up and then does the same in both. -/
theorem Widens.of_table (hux : ux.Wide tables)
    {f g : Table → Except Error (α × Transaction × Tables)}
    (h : ∀ t, tables.get? name = some t → Widens id (f t) (g t)) :
    Widens id (tx.tableToWrite tables name >>= f) (ux.tableToWrite tables name >>= g) := by
  have htable : Read.Widens (tx.tableToWrite tables name) (ux.tableToWrite tables name) :=
    widens_tableToWrite hux name
  cases htx : tx.tableToWrite tables name with
  | ok t =>
    rw [htable.ok htx]
    exact h t (tableToWrite_ok htx).2
  | error e =>
    rw [htx] at htable
    generalize ux.tableToWrite tables name = r at htable
    cases htable with
    | fails he => exact .refused he
    | same _ => exact .failed e

variable (hux : ux.Wide tables) (hid : ux.id = id)
include hux hid

theorem widens_add (name : String) (row : Row) :
    Widens id (tx.add tables name row) (ux.add tables name row) := by
  refine .of_table hux fun t hfound => ?_
  cases t.add row with
  | error e => exact .failed e
  | ok r => exact .wrote r.1 _ hid (hux.insert hfound _ _)

theorem widens_put (name : String) (row : Row) :
    Widens id (tx.put tables name row) (ux.put tables name row) := by
  refine .of_table hux fun t hfound => ?_
  cases t.put row with
  | error e => exact .failed e
  | ok r => exact .wrote r.1 _ hid (hux.insert hfound _ _)

theorem widens_delete (name : String) (key : Key) :
    Widens id (tx.delete tables name key) (ux.delete tables name key) := by
  refine .of_table hux fun t hfound => ?_
  cases t.delete key with
  | mk old next =>
    cases old with
    | none => exact .wrote none _ hid hux
    | some row => exact .wrote (some row) _ hid (hux.insert hfound _ _)

end Transaction

/-! ### Operations -/

/-- The same work in two transactions. The second one has the number `id` and may write to every
table. -/
structure Work.Wider (id : Nat) (w w' : Work) : Prop where
  tables : w'.tables = w.tables
  supply : w'.supply = w.supply
  changes : w'.changes = w.changes
  deleting : w'.deleting = w.deleting
  number : w'.transaction.id = id
  wide : w'.transaction.Wide w'.tables

theorem Work.Wider.view {id : Nat} {w w' : Work} (h : w.Wider id w') (s : Schema) :
    View.Wider ⟨s, w.tables, w.transaction⟩ ⟨s, w'.tables, w'.transaction⟩ := by
  have hwide := h.wide
  rw [h.tables] at hwide ⊢
  exact View.wider_of_wide s w.tables w.transaction hwide

namespace Operation
variable {α β : Type} {id : Nat} {s : Schema}

/-- Unless something is refused, the operation goes the same way in the second transaction. -/
def Widens (id : Nat) (op : Operation α) : Prop :=
  ∀ w w', w.Wider id w' →
    match op.run w with
    | .ok a v => ∃ v', op.run w' = .ok a v' ∧ v.Wider id v'
    | .error e v => e.Refusal ∨ ∃ v', op.run w' = .error e v' ∧ v.Wider id v'

namespace Widens

theorem pure (a : α) : Widens id (Pure.pure a) := fun _ w' h => ⟨w', rfl, h⟩

theorem throw (e : Error) : Widens id (MonadExcept.throw e : Operation α) :=
  fun _ w' h => .inr ⟨w', rfl, h⟩

theorem bind {x : Operation β} {f : β → Operation α} (hx : Widens id x)
    (hf : ∀ b, Widens id (f b)) : Widens id (x >>= f) := by
  intro w w' h
  have hxw := hx w w' h
  show match EStateM.bind x f w with
    | .ok a v => ∃ v', EStateM.bind x f w' = .ok a v' ∧ v.Wider id v'
    | .error e v => e.Refusal ∨ ∃ v', EStateM.bind x f w' = .error e v' ∧ v.Wider id v'
  unfold EStateM.bind
  simp only [EStateM.run] at hxw
  cases hr : x w with
  | ok b v =>
    rw [hr] at hxw
    obtain ⟨v', hr', hv⟩ := hxw
    rw [hr']
    exact hf b v v' hv
  | error e v =>
    rw [hr] at hxw
    rcases hxw with he | ⟨v', hr', hv⟩
    · exact .inl he
    · rw [hr']
      exact .inr ⟨v', rfl, hv⟩

theorem ite {c : Prop} [Decidable c] {x y : Operation α} (hx : c → Widens id x)
    (hy : ¬ c → Widens id y) : Widens id (if c then x else y) := by
  split
  · next h => exact hx h
  · next h => exact hy h

theorem ofExcept (r : Except Error α) : Widens id (MonadExcept.ofExcept r) := by
  cases r with
  | ok a => exact pure a
  | error e => exact throw e

theorem discard {x : Operation α} (h : Widens id x) : Widens id (discard x) := h.bind fun _ => pure _

theorem forM {l : List β} {f : β → Operation Unit} (hf : ∀ b ∈ l, Widens id (f b)) :
    Widens id (l.forM f) := by
  induction l with
  | nil => exact pure _
  | cons b l ih =>
    refine bind (hf b List.mem_cons_self) fun _ => ?_
    exact ih fun b' hb' => hf b' (List.mem_cons_of_mem b hb')

theorem mapM {l : List β} {f : β → Operation α} (hf : ∀ b ∈ l, Widens id (f b)) :
    Widens id (l.mapM f) := by
  induction l with
  | nil => exact pure _
  | cons b l ih =>
    rw [List.mapM_cons]
    refine bind (hf b List.mem_cons_self) fun a => ?_
    exact bind (ih fun b' hb' => hf b' (List.mem_cons_of_mem b hb')) fun _ => pure _

theorem foldlM {l : List β} {f : α → β → Operation α} (hf : ∀ a, ∀ b ∈ l, Widens id (f a b)) (a : α) :
    Widens id (l.foldlM f a) := by
  induction l generalizing a with
  | nil => exact pure _
  | cons b l ih =>
    rw [List.foldlM_cons]
    refine bind (hf a b List.mem_cons_self) fun a' => ?_
    exact ih (fun a b' hb' => hf a b' (List.mem_cons_of_mem b hb')) a'

/-- What is done with the state is the same in both. -/
theorem get {f : Work → Operation α}
    (h : ∀ w w', w.Wider id w' → f w' = f w ∧ Widens id (f w)) :
    Widens id (MonadState.get >>= f) := by
  intro w w' hw
  obtain ⟨heq, hwidens⟩ := h w w' hw
  have hrun := hwidens w w' hw
  rw [← heq] at hrun
  show match (f w).run w with
    | .ok a v => ∃ v', (f w').run w' = .ok a v' ∧ v.Wider id v'
    | .error e v => e.Refusal ∨ ∃ v', (f w').run w' = .error e v' ∧ v.Wider id v'
  rw [← heq]
  exact hrun

/-- A reading that gives the same in a wider view. -/
theorem look {reading : View → Read α}
    (h : ∀ v v', View.Wider v v' → Read.Widens (reading v) (reading v')) :
    Widens id (look s reading) := by
  intro w w' hw
  have hreading := h _ _ (hw.view s)
  show match (MonadExcept.ofExcept (reading ⟨s, w.tables, w.transaction⟩) : Operation α).run w with
    | .ok a v => ∃ v', (MonadExcept.ofExcept (reading ⟨s, w'.tables, w'.transaction⟩) :
        Operation α).run w' = .ok a v' ∧ v.Wider id v'
    | .error e v => e.Refusal ∨ ∃ v', (MonadExcept.ofExcept
        (reading ⟨s, w'.tables, w'.transaction⟩) : Operation α).run w' = .error e v' ∧ v.Wider id v'
  generalize reading ⟨s, w.tables, w.transaction⟩ = r,
    reading ⟨s, w'.tables, w'.transaction⟩ = r' at hreading
  cases hreading with
  | fails he => exact .inl he
  | same _ => exact ofExcept r w w' hw

/-- A write that gives the same in a wide transaction. -/
theorem write {f : Work → Except Error (α × Transaction × Tables)}
    (h : ∀ w w', w.Wider id w' → Transaction.Widens id (f w) (f w')) :
    Widens id (MonadState.get >>= fun w => settle (f w)) := by
  intro w w' hw
  have hwrite := h w w' hw
  show match (settle (f w)).run w with
    | .ok a v => ∃ v', (settle (f w')).run w' = .ok a v' ∧ v.Wider id v'
    | .error e v => e.Refusal ∨ ∃ v', (settle (f w')).run w' = .error e v' ∧ v.Wider id v'
  generalize f w = r, f w' = r' at hwrite
  cases hwrite with
  | refused he => exact .inl he
  | failed e => exact .inr ⟨w', rfl, hw⟩
  | @wrote a tx ux tables hid hux =>
    refine ⟨{ w' with transaction := ux, tables := tables }, rfl, ?_⟩
    exact ⟨rfl, hw.supply, hw.changes, hw.deleting, hid, hux⟩

/-- A refusal is not caught. -/
theorem skipDuplicate (skip : Bool) {creation : Operation Row} (h : Widens id creation) :
    Widens id (skipDuplicate skip creation) := by
  intro w w' hw
  have hrun := h w w' hw
  rw [run_skipDuplicate, run_skipDuplicate]
  cases hr : creation.run w with
  | ok row v =>
    rw [hr] at hrun
    obtain ⟨v', hr', hv⟩ := hrun
    rw [hr']
    exact ⟨v', rfl, hv⟩
  | error e v =>
    rw [hr] at hrun
    rcases hrun with he | ⟨v', hr', hv⟩
    · cases he with
      | inactive => exact .inl .inactive
      | outOfScope table => exact .inl (.outOfScope table)
      | readOnly table => exact .inl (.readOnly table)
    · rw [hr']
      cases e with
      | uniqueViolation entity fields =>
        cases skip with
        | false => exact .inr ⟨v', rfl, hv⟩
        | true => exact ⟨v', rfl, hv⟩
      | _ => exact .inr ⟨v', rfl, hv⟩

end Widens

/-! ### Writing rows -/

section
variable (e target : Entity)

theorem widens_note (kind : ChangeKind) (key : Key) : Widens id (note e kind key) := fun _ _ h =>
  ⟨_, rfl, h.tables, h.supply, congrArg (· ++ _) h.changes, h.deleting, h.number, h.wide⟩

theorem widens_now : Widens id now := fun w w' h => by
  have hrun : now.run w' = .ok w'.supply.now.1 { w' with supply := w'.supply.now.2 } := rfl
  rw [h.supply] at hrun
  exact ⟨_, hrun, h.tables, rfl, h.changes, h.deleting, h.number, h.wide⟩

theorem widens_token : Widens id token := fun w w' h => by
  have hrun : token.run w' = .ok w'.supply.token.1 { w' with supply := w'.supply.token.2 } := rfl
  rw [h.supply] at hrun
  exact ⟨_, hrun, h.tables, rfl, h.changes, h.deleting, h.number, h.wide⟩

theorem widens_addRow (row : Row) : Widens id (addRow e row) := by
  have hadd : Widens id (get >>= fun w => settle (w.transaction.add w.tables e.name row)) :=
    .write fun w w' h => by
      rw [← h.tables]
      exact Transaction.widens_add h.wide h.number e.name row
  exact hadd.bind fun key => (widens_note e .create key).bind fun _ => .pure key

theorem widens_putRow (row : Row) : Widens id (putRow e row) :=
  .write fun w w' h => by
    rw [← h.tables]
    exact Transaction.widens_put h.wide h.number e.name row

theorem widens_changeRow (row : Row) : Widens id (changeRow e row) :=
  (widens_putRow e row).bind fun key => widens_note e .update key

theorem widens_deleteRow (key : Key) : Widens id (deleteRow e key) := by
  have hdelete : Widens id (get >>= fun w => settle (w.transaction.delete w.tables e.name key)) :=
    .write fun w w' h => by
      rw [← h.tables]
      exact Transaction.widens_delete h.wide h.number e.name key
  exact hdelete.discard.bind fun _ => widens_note e .delete key

theorem widens_beginDelete (key : Key) : Widens id (beginDelete e key) := by
  intro w w' h
  let begun (w : Work) : Bool := w.deleting.any fun d => d.1 == e.name && d.2.equiv key
  have hrun (w : Work) : (beginDelete e key).run w =
      if begun w then .ok false w
      else .ok true { w with deleting := (e.name, key) :: w.deleting } := by
    change (if begun w then (pure false : Operation Bool)
      else set { w with deleting := (e.name, key) :: w.deleting } >>= fun _ => pure true) w = _
    split <;> rfl
  have hsame : begun w' = begun w := congrArg (List.any · _) h.deleting
  rw [hrun, hrun, hsame]
  by_cases hbegun : begun w = true
  · rw [if_pos hbegun, if_pos hbegun]
    exact ⟨w', rfl, h⟩
  · rw [if_neg hbegun, if_neg hbegun]
    refine ⟨_, rfl, h.tables, h.supply, h.changes, ?_, h.number, h.wide⟩
    exact congrArg ((e.name, key) :: ·) h.deleting

/-! ### Complete rows -/

theorem widens_requireKind (f : FieldDef) (kind : ScalarKind) (call : String) :
    Widens id (requireKind e f kind call) :=
  .ite (fun _ => .throw _) fun _ => .pure _

theorem widens_touch (row : Row) : Widens id (touch e row) := widens_now.bind fun _ => .pure _

theorem widens_nextIncrement (f : FieldDef) : Widens id (nextIncrement s e f) := by
  refine .bind (.look fun _ _ hv => hv.table e) fun t => ?_
  exact .ite (fun _ => .pure _) fun _ => .throw _

theorem widens_generate (f : FieldDef) (time : DateTime) (d : DefaultValue) :
    Widens id (generate s e f time d) := by
  cases d with
  | autoIncrement => exact widens_nextIncrement e f
  | uuid =>
    exact (widens_requireKind e f .string _).bind fun _ => widens_token.bind fun _ => .pure _
  | cuid =>
    exact (widens_requireKind e f .string _).bind fun _ => widens_token.bind fun _ => .pure _
  | now => exact (widens_requireKind e f .datetime _).bind fun _ => .pure _
  | literal literal => exact .ofExcept _

theorem widens_absent (f : FieldDef) (time : DateTime) : Widens id (absent s e f time) := by
  unfold absent
  refine .ite (fun _ => .pure _) fun _ => ?_
  split
  · exact widens_generate e f time _
  · exact .ite (fun _ => .pure _) fun _ => .ite (fun _ => .throw _) fun _ => .pure _

theorem widens_complete (f : FieldDef) (time : DateTime) (written : Option Value) :
    Widens id (complete s e f time written) := by
  unfold complete
  split
  · exact widens_absent e f time
  · refine .ite (fun _ => .pure _) fun _ => .ite (fun _ => .throw _) fun _ => ?_
    exact .ite (fun _ => .pure _) fun _ => .pure _

theorem widens_fillDefaults (row : Row) : Widens id (fillDefaults s e row) := by
  refine widens_now.bind fun time => .bind (.mapM fun f _ => ?_) fun values => ?_
  · exact (widens_complete e f time _).bind fun _ => .pure _
  · split
    · exact .throw _
    · exact .pure _

/-! ### Looking at rows -/

theorem widens_row? (key : Key) : Widens id (look s fun v => v.row? e key) :=
  .look fun _ _ hv => hv.row? e key

theorem widens_findUnique (selector : Filter) : Widens id (look s fun v => v.findUnique e selector) :=
  .look fun _ _ hv => hv.findUnique e selector

theorem widens_relatedRows (r : Relation) (row : Row) :
    Widens id (look s fun v => v.relatedRows r row) :=
  .look fun _ _ hv => hv.relatedRows r row

theorem widens_reread (key : Key) : Widens id (reread s e key) := by
  refine (widens_row? e key).bind fun found => ?_
  split
  · exact .pure _
  · exact .throw _

theorem widens_findToConnect (r : Relation) (selector : Filter) :
    Widens id (findToConnect s r target selector) := by
  refine (widens_findUnique target selector).bind fun found => ?_
  split
  · exact .pure _
  · exact .throw _

theorem widens_checkForeignKeys (row : Row) (written : List String) :
    Widens id (checkForeignKeys s e row written) := by
  refine .forM fun r _ => .ite (fun _ => ?_) fun _ => .pure _
  refine .bind (.ofExcept _) fun t => .bind (.look fun _ _ hv => hv.rowsWhere t r.far _) fun rows => ?_
  exact .ite (fun _ => .throw _) fun _ => .pure _

theorem widens_relationToWrite (name : String) : Widens id (relationToWrite e name) :=
  .ite (fun _ => .throw _) fun _ => .ofExcept _

/-! ### Rows that reference a parent -/

theorem widens_unlink (r : Relation) (child : Row) : Widens id (unlink r target child) := by
  simp only [unlink]
  split
  · exact .throw _
  · exact (widens_touch target _).bind fun row => widens_changeRow target row

theorem widens_disconnect (r : Relation) (parent : Row) (d : Disconnect) :
    Widens id (disconnect s e r target parent d) := by
  cases d with
  | flag on =>
    cases on with
    | false => exact .pure _
    | true =>
      refine .ite (fun _ => .throw _) fun _ => (widens_relatedRows r parent).bind fun rows => ?_
      exact .forM fun row _ => widens_unlink target r row
  | records selectors =>
    refine .ite (fun _ => .throw _) fun _ => .forM fun selector _ => ?_
    refine (widens_findUnique target selector).bind fun found => ?_
    split
    · exact .pure _
    · exact .ite (fun _ => widens_unlink target r _) fun _ => .pure _

theorem widens_connect (r : Relation) (parent : Row) (selector : Filter) :
    Widens id (connect s r target parent selector) := by
  refine (widens_findToConnect target r selector).bind fun child => ?_
  have hwrite : Widens id (touch target (child.insertAll (r.childLink parent)) >>= changeRow target) :=
    (widens_touch target _).bind fun row => widens_changeRow target row
  refine .ite (fun _ => ?_) fun _ => hwrite
  refine (widens_relatedRows r parent).bind fun rows => .bind (.forM fun row _ => ?_) fun _ => hwrite
  exact .ite (fun _ => widens_unlink target r row) fun _ => .pure _

/-! ### Creation -/

theorem widens_writeLiteral (row : Row) (name : String) (literal : Json) :
    Widens id (writeLiteral e row name literal) := by
  unfold writeLiteral
  split
  · exact .bind (.ofExcept _) fun _ => .pure _
  · exact .bind (Widens.ofExcept _).discard fun _ => .throw _

theorem widens_writeUpdate (row : Row) (name : String) (op : UpdateOp) :
    Widens id (writeUpdate e row name op) := by
  unfold writeUpdate
  split
  · exact widens_writeLiteral e row name _
  · exact .throw _
  · exact .bind (Widens.ofExcept _).discard fun _ => .throw _

end

mutual

theorem widens_create (e : Entity) (link : Row) : ∀ d : WriteData, Widens id (create s e link d)
  | ⟨fields⟩ => by
    rw [create]
    refine (widens_createFields e ∅ fields).bind fun row => ?_
    refine (widens_checkForeignKeys e _ _).bind fun _ => ?_
    refine (widens_fillDefaults e _).bind fun row => (widens_addRow e row).bind fun key => ?_
    exact (widens_createChildren e row fields).bind fun _ => widens_reread e key

theorem widens_createFields (e : Entity) (row : Row) : ∀ fields : List (String × FieldWrite),
    Widens id (createFields s e row fields)
  | [] => by
    rw [createFields]
    exact .pure _
  | (name, write) :: rest => by
    rw [createFields]
    exact (widens_createField e row name write).bind fun row => widens_createFields e row rest

theorem widens_createField (e : Entity) (row : Row) (name : String) : ∀ write : FieldWrite,
    Widens id (createField s e row name write)
  | .literal literal => by
    rw [createField]
    exact widens_writeLiteral e row name literal
  | .update op => by
    rw [createField]
    exact widens_writeUpdate e row name op
  | .relation write => by
    rw [createField]
    refine (widens_relationToWrite e name).bind fun r => ?_
    refine .ite (fun _ => .ite (fun _ => .throw _) fun _ => ?_) fun _ => .pure _
    exact (widens_resolveParent r write).bind fun _ => .pure _

theorem widens_resolveParent (r : Relation) : ∀ write : NestedWrite,
    Widens id (resolveParent s r write)
  | ⟨[data], [], _, _, _⟩ => by
    rw [resolveParent]
    exact .bind (.ofExcept _) fun target => widens_create target ∅ data
  | ⟨[], [selector], _, _, _⟩ => by
    rw [resolveParent]
    exact .bind (.ofExcept _) fun target => widens_findToConnect target r selector
  | ⟨[], [], _, _, _⟩ | ⟨[], _ :: _ :: _, _, _, _⟩ | ⟨[_], _ :: _, _, _, _⟩
  | ⟨_ :: _ :: _, _, _, _, _⟩ => by
    rw [resolveParent] <;> try simp
    exact .bind (Widens.ofExcept _).discard fun _ => .throw _

theorem widens_createChildren (e : Entity) (parent : Row) : ∀ fields : List (String × FieldWrite),
    Widens id (createChildren s e parent fields)
  | [] => by
    rw [createChildren]
    exact .pure _
  | (name, write) :: rest => by
    rw [createChildren]
    exact (widens_createChild e parent name write).bind fun _ => widens_createChildren e parent rest

theorem widens_createChild (e : Entity) (parent : Row) (name : String) : ∀ write : FieldWrite,
    Widens id (createChild s e parent name write)
  | .literal _ => by
    rw [createChild]
    exact .pure _
  | .update _ => by
    rw [createChild]
    exact .pure _
  | .relation write => by
    rw [createChild]
    refine (widens_relationToWrite e name).bind fun r => ?_
    exact .ite (fun _ => widens_writeChildren e r parent write) fun _ => .pure _

theorem widens_writeChildren (e : Entity) (r : Relation) (parent : Row) : ∀ write : NestedWrite,
    Widens id (writeChildren s e r parent write)
  | ⟨created, connected, _, batch, released⟩ => by
    rw [writeChildren]
    refine .bind (.ofExcept _) fun target => .ite (fun _ => .throw _) fun _ => ?_
    have hrest : Widens id (do
        createAll s target (r.childLink parent) created
        connected.forM (connect s r target parent)
        writeBatch s e r target parent batch) := by
      refine (widens_createAll target _ created).bind fun _ => ?_
      refine .bind (.forM fun selector _ => widens_connect target r parent selector) fun _ => ?_
      exact widens_writeBatch e r target parent batch
    cases released with
    | none => exact hrest
    | some released => exact (widens_disconnect e target r parent released).bind fun _ => hrest

theorem widens_createAll (e : Entity) (link : Row) : ∀ rows : List WriteData,
    Widens id (createAll s e link rows)
  | [] => by
    rw [createAll]
    exact .pure _
  | data :: rest => by
    rw [createAll]
    exact (widens_create e link data).discard.bind fun _ => widens_createAll e link rest

theorem widens_writeBatch (e : Entity) (r : Relation) (target : Entity) (parent : Row) :
    ∀ batch : Option CreateMany, Widens id (writeBatch s e r target parent batch)
  | none => by
    rw [writeBatch]
    exact .pure _
  | some batch => by
    rw [writeBatch]
    exact widens_writeMany e r target parent batch

theorem widens_writeMany (e : Entity) (r : Relation) (target : Entity) (parent : Row) :
    ∀ batch : CreateMany, Widens id (writeMany s e r target parent batch)
  | ⟨rows, skip⟩ => by
    rw [writeMany]
    exact .ite (fun _ => .throw _) fun _ => widens_createBatch target _ skip rows

theorem widens_createBatch (e : Entity) (link : Row) (skip : Bool) : ∀ rows : List WriteData,
    Widens id (createBatch s e link skip rows)
  | [] => by
    rw [createBatch]
    exact .pure _
  | data :: rest => by
    rw [createBatch]
    refine .ite (fun _ => .throw _) fun _ => ?_
    refine (Widens.skipDuplicate skip (widens_create e link data)).discard.bind fun _ => ?_
    exact widens_createBatch e link skip rest

end

/-! ### Updates -/

section
variable (e : Entity)

theorem widens_reviseOwner (r : Relation) (v : Revision) (write : NestedWrite) :
    Widens id (reviseOwner s e r v write) := by
  refine .ite (fun _ => .throw _) fun _ => ?_
  split
  · exact .ofExcept _
  · exact .throw _
  · refine .ite (fun _ => .pure _) fun _ => ?_
    exact (widens_resolveParent r write).bind fun _ => .pure _

theorem widens_revise (v : Revision) (entry : String × FieldWrite) :
    Widens id (revise s e v entry) := by
  unfold revise
  split
  · exact .ofExcept _
  · refine .bind (.ofExcept _) fun r => ?_
    split
    · exact .ite (fun _ => widens_reviseOwner e r v _) fun _ => .pure _
    · exact .throw _

theorem widens_update (data : WriteData) (row : Row) : Widens id (update s e data row) := by
  refine .bind (.foldlM (fun v entry _ => widens_revise e v entry) _) fun v => ?_
  refine (widens_checkForeignKeys e _ _).bind fun _ => ?_
  refine .bind ((widens_touch e v.row).bind fun _ => .pure _) fun next => ?_
  refine (widens_putRow e next).discard.bind fun _ => (widens_note e .update _).bind fun _ => ?_
  exact (widens_createChildren e next data.fields).bind fun _ => widens_reread e _

/-! ### Deletions -/

theorem widens_clearKey (d : Dependent) (child : Entity) (row : Row) :
    Widens id (clearKey d child row) := by
  refine (widens_touch child _).bind fun next => ?_
  exact (widens_putRow child next).discard.bind fun _ => widens_note child .update _

theorem widens_forEachPresent (rows : List Row) {f : Row → Operation Unit}
    (hf : ∀ row, Widens id (f row)) : Widens id (forEachPresent s e rows f) := by
  refine .forM fun row _ => (widens_row? e _).bind fun found => ?_
  split
  · exact hf _
  · exact .pure _

theorem widens_settleDependents (row : Row) {f : Entity → Row → Operation Unit}
    (hf : ∀ child row, Widens id (f child row)) (d : Dependent) :
    Widens id (settleDependents s e row f d) := by
  unfold settleDependents
  refine .ite (fun _ => .pure _) fun _ => .bind (.ofExcept _) fun child => ?_
  refine .bind (.look fun _ _ hv => hv.rowsWhere child d.fields _) fun rows => ?_
  split
  · exact .pure _
  · exact .ite (fun _ => .throw _) fun _ => .pure _
  · exact widens_forEachPresent child rows (hf child)
  · exact widens_forEachPresent child rows fun row => widens_clearKey d child row

theorem widens_deleteWithin (depth : Nat) (e : Entity) (row : Row) :
    Widens id (deleteWithin s depth e row) := by
  induction depth generalizing e row with
  | zero => exact .pure _
  | succ depth ih =>
    refine (widens_beginDelete e _).bind fun _ => .ite (fun _ => ?_) fun _ => .pure _
    refine .bind (.forM fun d _ => widens_settleDependents e row ih d) fun _ => ?_
    exact widens_deleteRow e _

/-- The tables are the same, so deletions may be nested equally deep. -/
theorem widens_delete (row : Row) : Widens id (delete s e row) :=
  .get fun w w' h => ⟨by rw [h.tables], widens_deleteWithin _ e row⟩

end

end Operation

/-! ### Requests -/

namespace Request
variable {α : Type} {id : Nat} {q : Query} {r : Request α}

open Operation

theorem Looks.widens (h : r.Looks q) (s : Schema) (e : Entity) : Widens id (r.operation s e) := by
  have hmany (q : Query) : Widens id ((Request.findMany q).operation s e) :=
    .look fun _ _ hv => hv.findMany e q
  have hunique : Widens id ((Request.findUnique q).operation s e) := by
    simp only [Request.findUnique]
    refine .look fun v v' hv => .bind (.same _) fun selector => ?_
    refine (hv.findUnique e selector).bind fun found => ?_
    exact (hv.attach e found.toList q).bind fun _ => .same _
  cases h with
  | findMany => exact hmany q
  | findFirst => exact (hmany _).bind fun _ => .pure _
  | findFirstOrThrow => exact ((hmany _).bind fun _ => .pure _).bind fun _ => .ofExcept _
  | findUnique => exact hunique
  | findUniqueOrThrow => exact hunique.bind fun _ => .ofExcept _
  | count => exact .look fun _ _ hv => hv.count e q

theorem widens_insertBatch (s : Schema) (e : Entity) (q : Query) : Widens id (insertBatch s e q) := by
  have hbatch (batch : List WriteData) : Widens id (batch.mapM fun data => do
      if data.writesRelations then throw (.invalidQuery .batchWithRelations)
      skipDuplicate q.skipDuplicates (Operation.create s e ∅ data)) :=
    .mapM fun data _ => .ite (fun _ => .throw _) fun _ => .skipDuplicate _ (widens_create e ∅ data)
  unfold insertBatch
  cases q.data with
  | none => exact Widens.bind (.throw _) fun batch => (hbatch batch).bind fun _ => .pure _
  | some data => exact (Widens.pure _).bind fun batch => (hbatch batch).bind fun _ => .pure _

theorem Writes.widens (h : r.Writes q) (s : Schema) (e : Entity) : Widens id (r.operation s e) := by
  have hrecord (row : Row) : Widens id (look s fun v => v.record e q row) :=
    .look fun _ _ hv => hv.record e q row
  have hselect (selector : Filter) : Widens id
      (look s fun v => v.findUnique e selector >>= fun found => requireFound e found) :=
    .look fun _ _ hv => (hv.findUnique e selector).bind fun _ => .same _
  have hmatching : Widens id (look s fun v => v.matching e q.filter) :=
    .look fun _ _ hv => hv.matching e q.filter
  cases h with
  | create =>
    refine .bind (.ofExcept _) fun data => .bind (.ofExcept _) fun _ => ?_
    exact (widens_create e ∅ data).bind hrecord
  | createMany => exact (widens_insertBatch s e q).bind fun _ => .pure _
  | createManyAndReturn =>
    exact (widens_insertBatch s e q).bind fun rows => .look fun _ _ hv => hv.attach e rows q
  | update =>
    refine .bind (.ofExcept _) fun selector => .bind (.ofExcept _) fun data =>
      .bind (.ofExcept _) fun _ => (hselect selector).bind fun row => ?_
    exact (widens_update e data row).bind hrecord
  | updateMany =>
    refine .bind (.ofExcept _) fun data => .ite (fun _ => .throw _) fun _ => ?_
    refine hmatching.bind fun rows => .bind (.forM fun row _ => ?_) fun _ => .pure _
    exact (widens_update e data row).discard
  | delete =>
    refine .bind (.ofExcept _) fun selector => (hselect selector).bind fun row => ?_
    refine (hrecord row).bind fun record => ?_
    exact (widens_delete e row).bind fun _ => .pure _
  | deleteMany =>
    refine hmatching.bind fun rows => .foldlM (fun n row _ => (widens_row? e _).bind fun found => ?_) _
    split
    · exact (widens_delete e _).bind fun _ => .pure _
    · exact .pure _

theorem Offered.widens (h : r.Offered) (s : Schema) (e : Entity) : Widens id (r.operation s e) := by
  obtain ⟨q, hwrites | hlooks⟩ := h
  · exact hwrites.widens s e
  · exact hlooks.widens s e

end Request

end RelationalStore

import RelationalStore.Proofs.FailedRequests
import RelationalStore.Proofs.LinkedRows

/- What holds of every row in every state. A row is in a table because it was written there, or
   because it was there before and a rollback has put it back. So what holds of each row that is
   written (`W`) holds of each row that is stored or noted in an undo log (`Store.Keeps`), whatever
   the values are and however their keys compare. -/
namespace RelationalStore
open SortedMap Read Operation

variable {W : String → Row → Prop} {s : Schema}

/-! ### Tables -/

theorem SortedMap.mem_values_insert {α β : Type} [Ord α] {m : SortedMap α β} {k : α} {v x : β}
    (h : x ∈ (m.insert k v).values) : x = v ∨ x ∈ m.values := by
  have hentries (entries : List (α × β)) :
      ∀ e ∈ insertEntry k v entries, e.2 = v ∨ e ∈ entries := by
    fun_induction insertEntry k v entries with
    | case4 e rest _ ih =>
      intro a ha
      rcases List.mem_cons.1 ha with rfl | ha
      · exact .inr List.mem_cons_self
      · exact (ih a ha).imp_right (List.mem_cons_of_mem e)
    | _ => simp_all
  obtain ⟨e, he, rfl⟩ := List.mem_map.1 h
  exact (hentries m.entries e he).imp_right List.mem_map_of_mem

theorem Table.mem_toList_restore {t : Table} {key : Key} {new : Option Row} {row : Row}
    (h : row ∈ (t.restore key new).toList) : row ∈ new ∨ row ∈ t.toList := by
  have hremove (x : Row) (hx : x ∈ (t.remove key).toList) : x ∈ t.toList := by
    unfold Table.remove at hx
    split at hx
    · exact ((eraseEntry_sublist key t.rows.entries).map _).subset hx
    · exact hx
  cases new with
  | none => exact .inr (hremove row h)
  | some x =>
    rcases SortedMap.mem_values_insert h with rfl | hold
    · exact .inl rfl
    · exact .inr (hremove row hold)

theorem Table.mem_toList_takeBack {t : Table} {us : List Undo} {row : Row}
    (h : row ∈ (us.foldl Undo.takeBack t).toList) :
    row ∈ t.toList ∨ ∃ u ∈ us, row ∈ u.previous := by
  induction us generalizing t with
  | nil => exact .inl h
  | cons u rest ih =>
    rcases ih h with hrow | ⟨u', hu', hrow⟩
    · rcases Table.mem_toList_restore hrow with hnew | hold
      · exact .inr ⟨u, List.mem_cons_self, hnew⟩
      · exact .inl hold
    · exact .inr ⟨u', List.mem_cons_of_mem u hu', hrow⟩

/-- Tables have their own names and are declared as their entities say, and each row has `W`. -/
structure Tables.Keep (s : Schema) (W : String → Row → Prop) (tables : Tables) : Prop where
  name : ∀ {n t}, tables.get? n = some t → t.name = n
  definition : ∀ {e t}, s.entity? e.name = some e → tables.get? e.name = some t →
    t.definition = e.tableDef
  rows : ∀ {n row}, tables.Has n row → W n row

/-- Each row that a rollback may put back has `W`. -/
def Transaction.Notes (W : String → Row → Prop) (tx : Transaction) : Prop :=
  ∀ u ∈ tx.undo, ∀ row ∈ u.previous, W u.table row

/-- Each row of the tables, and each row that a rollback of the transaction may put back, has `W`. -/
structure Schema.Keeps (s : Schema) (W : String → Row → Prop) (tables : Tables)
    (tx : Transaction) : Prop where
  tables : tables.Keep s W
  notes : tx.Notes W

namespace Tables.Keep
variable {tx tx' : Transaction} {tables tables' : Tables} {n : String} {t : Table} {key : Key}
  {row : Row} {new : Option Row}

theorem of_definitions (h : tables.Keep s W) (hnames : ∀ {n t}, tables'.get? n = some t → t.name = n)
    (hd : ∀ n, (tables'.get? n).map (·.definition) = (tables.get? n).map (·.definition))
    (hrows : ∀ {n row}, tables'.Has n row → W n row) : tables'.Keep s W where
  name := hnames
  definition {e t} he ht := by
    obtain ⟨t₀, ht₀, heq⟩ := exists_of_map_eq (hd e.name) ht
    rw [← heq]
    exact h.definition he ht₀
  rows := hrows

theorem wrote (h : tables.Keep s W) (htx : tx.Notes W)
    (hw : tx.Wrote tables n t key new tx' tables') (hnew : ∀ row ∈ new, W n row) :
    s.Keeps W tables' tx' := by
  have hname := h.name hw.found
  refine ⟨h.of_definitions (fun {m u} hu => ?_) hw.definition (fun {m row} hrow => ?_), ?_⟩
  · rw [hw.tables, get?_insert_eq] at hu
    split at hu
    · next hm =>
      cases hu
      rw [Table.name, Table.definition_restore, ← hm]
      exact hname
    · exact h.name hu
  · obtain ⟨u, hu, hrow⟩ := hrow
    rw [hw.tables, get?_insert_eq] at hu
    split at hu
    · next hm =>
      cases hu
      subst hm
      rcases Table.mem_toList_restore hrow with hrow | hrow
      · exact hnew row hrow
      · exact h.rows ⟨t, hw.found, hrow⟩
    · exact h.rows ⟨u, hu, hrow⟩
  · intro u hu
    rw [hw.log] at hu
    rcases List.mem_cons.1 hu with rfl | hu
    · intro row hrow
      rw [hname]
      exact h.rows ⟨t, hw.found, Table.mem_toList_of_get? hrow⟩
    · exact htx u hu

theorem add (h : tables.Keep s W) (htx : tx.Notes W)
    (hadd : tx.add tables n row = .ok (key, tx', tables'))
    (hrow : ∀ t, tables.get? n = some t → (t.keyOf row).hasNull = false → W n row) :
    s.Keeps W tables' tx' := by
  obtain ⟨t, hw, rfl, hnull⟩ := Transaction.add_ok hadd
  refine h.wrote htx hw fun row' hrow' => ?_
  cases hrow'
  exact hrow t hw.found hnull

theorem put (h : tables.Keep s W) (htx : tx.Notes W)
    (hput : tx.put tables n row = .ok (key, tx', tables'))
    (hrow : ∀ t, tables.get? n = some t → (t.keyOf row).hasNull = false → W n row) :
    s.Keeps W tables' tx' := by
  obtain ⟨t, hw, rfl, hnull⟩ := Transaction.put_ok hput
  refine h.wrote htx hw fun row' hrow' => ?_
  cases hrow'
  exact hrow t hw.found hnull

theorem delete (h : tables.Keep s W) (htx : tx.Notes W) {old : Option Row}
    (hdelete : tx.delete tables n key = .ok (old, tx', tables')) :
    s.Keeps W tables' tx' := by
  obtain ⟨t, -, -, ⟨-, rfl, rfl⟩ | ⟨-, hw⟩⟩ := Transaction.delete_ok hdelete
  · exact ⟨h, htx⟩
  · exact h.wrote htx hw nofun

theorem rollback (h : tables.Keep s W) (htx : tx.Notes W) : (tx.rollback tables).Keep s W := by
  refine h.of_definitions (fun {n t} ht => ?_) Transaction.definition_rollback fun {n row} hrow => ?_
  · rw [Transaction.get?_rollback, Option.map_eq_some_iff] at ht
    obtain ⟨t, ht, rfl⟩ := ht
    rw [Table.name, Transaction.definition_foldl_takeBack]
    exact h.name ht
  · obtain ⟨t, ht, hrow⟩ := hrow
    rw [Transaction.get?_rollback, Option.map_eq_some_iff] at ht
    obtain ⟨t, ht, rfl⟩ := ht
    rcases Table.mem_toList_takeBack hrow with hstored | ⟨u, hu, hnoted⟩
    · exact h.rows ⟨t, ht, hstored⟩
    · obtain ⟨hmem, hn⟩ := List.mem_filter.1 hu
      obtain rfl : u.table = n := by simpa using hn
      exact htx u hmem row hnoted

end Tables.Keep

/-! ### Operations -/

namespace Operation
variable {α β : Type} {e : Entity} {row : Row}

/-- The operation keeps `W` in the tables and the undo log, and its result has `Q`. -/
abbrev KeepsRows (s : Schema) (W : String → Row → Prop) (op : Operation α) (Q : α → Prop) : Prop :=
  Upholds (s.Keeps W) op Q

theorem keepsRows_look {reading : View → Read α} {Q : α → Prop}
    (h : ∀ v : View, v.schema = s → v.Gives W → Yields (reading v) Q fun _ => True) :
    KeepsRows s W (look s reading) Q :=
  Keeps.look fun w hw => h _ rfl fun n t ht row hrow =>
    hw.tables.rows (View.gives_has s w.tables w.transaction n t ht row hrow)

section
variable (he : s.entity? e.name = some e) (hrow : (e.keyOf row).hasNull = false → W e.name row)
include he hrow

/-- A row that could be stored has a primary key. -/
theorem keepsRows_addRow : KeepsRows s W (addRow e row) fun _ => (e.keyOf row).hasNull = false := by
  refine Triple.get fun w hw => Triple.bind (upholds_settle (J := s.Keeps W)
    (Q := fun _ => (e.keyOf row).hasNull = false) hw fun key tx tables h => ?_) fun key => ?_
  · obtain ⟨t, hwrote, rfl, hnull⟩ := Transaction.add_ok h
    have hkey : t.keyOf row = e.keyOf row := by
      rw [Table.keyOf, hw.tables.definition he hwrote.found]
      rfl
    rw [hkey] at hnull
    exact ⟨hw.tables.add hw.notes h fun _ _ _ => hrow hnull, hnull⟩
  · exact Triple.bind (R := fun _ w => s.Keeps W w.tables w.transaction ∧
      (e.keyOf row).hasNull = false) (Triple.modify fun _ h => h) fun _ => Triple.pure fun _ h => h

theorem keepsRows_putRow : KeepsRows s W (putRow e row) fun _ => (e.keyOf row).hasNull = false := by
  refine Triple.get fun w hw => upholds_settle (J := s.Keeps W) hw fun key tx tables h => ?_
  obtain ⟨t, hwrote, rfl, hnull⟩ := Transaction.put_ok h
  have hkey : t.keyOf row = e.keyOf row := by
    rw [Table.keyOf, hw.tables.definition he hwrote.found]
    rfl
  rw [hkey] at hnull
  exact ⟨hw.tables.put hw.notes h fun _ _ _ => hrow hnull, hnull⟩

theorem keepsRows_changeRow : KeepsRows s W (changeRow e row) fun _ => True :=
  Keeps.bind (keepsRows_putRow he hrow) fun key _ => upholds_note (J := s.Keeps W) .update key

end

theorem keepsRows_deleteRow (e : Entity) (key : Key) :
    KeepsRows s W (deleteRow e key) fun _ => True := by
  refine Triple.get fun w hw => Triple.bind (R := fun _ w => s.Keeps W w.tables w.transaction ∧ True)
    (Triple.bind (upholds_settle (J := s.Keeps W) (Q := fun _ => True) hw fun old tx tables h => ?_)
      fun _ => Triple.pure fun _ h => h) fun _ => ?_
  · exact ⟨hw.tables.delete hw.notes h, trivial⟩
  · exact Triple.mono (upholds_note (J := s.Keeps W) .delete key) (fun _ hw => hw.1) (fun _ _ h => h) fun _ _ h => h

end Operation

/-! ### Stores -/

/-- Each row of the tables, and each row that a rollback may put back, has `W`. -/
structure Store.Keeps (s : Schema) (W : String → Row → Prop) (store : Store) : Prop where
  tables : store.tables.Keep s W
  notes : ∀ tx ∈ store.transactions, tx.Notes W

namespace Store.Keeps
variable {store store' : Store} {tx tx' : Transaction} {tables : Tables} {id : Nat}

theorem of_tables (h : store.Keeps s W) (htables : store'.tables.Keep s W)
    (hnotes : ∀ tx ∈ store'.transactions, tx ∈ store.transactions ∨ tx.Notes W) :
    store'.Keeps s W :=
  ⟨htables, fun tx htx => (hnotes tx htx).elim (h.notes tx) fun hnotes => hnotes⟩

theorem turn (h : store.Keeps s W) (htables : tables.Keep s W) (htx : tx'.Notes W) :
    ({ store.setTransaction tx' with tables := tables } : Store).Keeps s W := by
  refine h.of_tables htables fun b hb => ?_
  rcases Store.mem_setTransaction hb with rfl | ⟨hb, -⟩
  · exact .inr htx
  · exact .inl hb

theorem forget (h : store.Keeps s W) (id : Nat) : (store.forget id).Keeps s W :=
  h.of_tables h.tables fun _ hb => .inl (Store.mem_forget.1 hb).1

theorem begin (h : store.Keeps s W) {names : List String} {mode : TransactionMode}
    (hb : store.beginTransaction names mode = .ok (id, store')) : store'.Keeps s W := by
  obtain ⟨-, -, rfl⟩ := Store.beginTransaction_ok hb
  refine h.of_tables h.tables fun b hb => ?_
  rcases List.mem_append.1 hb with hb | hb
  · exact .inl hb
  · rw [List.mem_singleton.1 hb]
    exact .inr fun u hu => absurd hu List.not_mem_nil

theorem abort (h : store.Keeps s W) (id : Nat) : (store.abort id).Keeps s W := by
  unfold Store.abort
  cases htx : store.transaction? id with
  | none => exact h
  | some tx =>
    have hnotes := h.notes tx (Store.transaction?_eq_some htx).1
    unfold Transaction.abort
    by_cases hactive : tx.active = true
    · simp only [hactive, if_true]
      exact h.turn (h.tables.rollback hnotes) fun u hu => absurd hu List.not_mem_nil
    · simp only [hactive]
      exact h.turn h.tables hnotes

theorem drop (h : store.Keeps s W) (id : Nat) : (store.drop id).Keeps s W := (h.abort id).forget id

theorem commit (h : store.Keeps s W) (id : Nat) : (store.commit id).2.Keeps s W := by
  unfold Store.commit
  cases htx : store.transaction? id with
  | none => exact h
  | some tx =>
    have hnotes := h.notes tx (Store.transaction?_eq_some htx).1
    obtain ⟨htransactions, -⟩ := Store.commitTransaction_frame (s := store) tx
    refine Store.Keeps.forget (h.of_tables ?_ fun b hb => .inl ?_) id
    · rcases Store.commitTransaction_tables store tx with ⟨htables, -⟩ | ⟨htables, -⟩ <;> rw [htables]
      · exact h.tables
      · exact h.tables.rollback hnotes
    · rwa [htransactions] at hb

theorem writeIn {α : Type} (h : store.Keeps s W) (id : Nat)
    {f : Transaction → Tables → Except Error (α × Transaction × Tables)}
    (hf : ∀ {tx : Transaction}, tx.Notes W → ∀ {a tx' tables'},
      f tx store.tables = .ok (a, tx', tables') → s.Keeps W tables' tx') :
    (store.writeIn id f).2.Keeps s W := by
  unfold Store.writeIn
  cases htx : store.transaction? id with
  | none => exact h
  | some tx =>
    simp only
    split
    · next heq =>
      obtain ⟨htables, hnotes⟩ := hf (h.notes tx (Store.transaction?_eq_some htx).1) heq
      exact h.turn htables hnotes
    · exact h

end Store.Keeps

/-! ### Clients -/

namespace Client
variable {c c' : Client} {α : Type}

/-- The requests are those that there are, and each row that is written past them has `W`. -/
def Action.Writes (W : String → Row → Prop) : Action → Prop
  | .ask _ r _ => r.Offered
  | .add _ table row => W table row
  | .put _ table row => W table row
  | _ => True

theorem Action.Writes.mono {W' : String → Row → Prop} (hW : ∀ n row, W n row → W' n row)
    {a : Action} (h : a.Writes W) : a.Writes W' := by
  cases a with
  | add id table row => exact hW _ _ h
  | put id table row => exact hW _ _ h
  | _ => exact h

section
variable {op : Operation α} (hop : KeepsRows s W op fun _ => True)
include hop

theorem keeps_run (h : c.store.Keeps s W) {tx : Transaction} {id : Nat}
    (htx : c.store.transaction? id = some tx) {outcome : Except Error (α × List Change)}
    (hrun : c.run tx op = (outcome, c')) : c'.store.Keeps s W := by
  have hkept := hop ⟨c.store.tables, tx, c.supply, [], []⟩
    ⟨h.tables, h.notes tx (Store.transaction?_eq_some htx).1⟩
  unfold run at hrun
  simp only at hrun
  split at hrun <;> next heq =>
    rw [heq] at hkept
    cases hrun
    exact h.turn hkept.1.tables hkept.1.notes

theorem keeps_runIn (h : c.store.Keeps s W) (id : Nat) : (c.runIn id op).client.store.Keeps s W := by
  have hruns := c.runsIn id op
  generalize c.runIn id op = o at hruns ⊢
  cases hruns with
  | missing => exact h
  | failed htx hrun => exact (keeps_run hop h htx hrun).abort id
  | done htx hrun => exact keeps_run hop h htx hrun

theorem keeps_runAlone (h : c.store.Keeps s W) (tables : List String) (mode : TransactionMode) :
    (c.runAlone tables mode op).client.store.Keeps s W := by
  have hruns := c.runsAlone tables mode op
  generalize c.runAlone tables mode op = o at hruns ⊢
  cases hruns with
  | refused => exact h
  | missing hb => exact h.begin hb
  | failed hb htx hrun => exact (keeps_run (c := c.withStore _) hop (h.begin hb) htx hrun).drop _
  | uncommitted hb htx hrun => exact (keeps_run (c := c.withStore _) hop (h.begin hb) htx hrun).commit _
  | done hb htx hrun => exact (keeps_run (c := c.withStore _) hop (h.begin hb) htx hrun).commit _

end

section
variable (hs : s.Resolved) (hrequests : ∀ {α : Type} {r : Request α}, r.Offered →
  ∀ {e}, s.entity? e.name = some e → KeepsRows s W (r.operation s e) fun _ => True)
include hs hrequests

theorem keeps_after (hschema : c.schema = s) (h : c.store.Keeps s W) {a : Action}
    (ha : a.Writes W) : (c.after a).store.Keeps s W := by
  subst hschema
  cases a with
  | ask entity r tx =>
    simp only [after, ask]
    cases hrequire : c.schema.require entity with
    | error e => exact h
    | ok e =>
      have hentity := Option.elim_ok_eq_ok.1 hrequire
      have hop := hrequests ha (e := e) (by rw [hs.name hentity]; exact hentity)
      cases tx with
      | some id => exact keeps_runIn hop h id
      | none => exact keeps_runAlone hop h _ _
  | begin names mode =>
    simp only [after]
    split
    · next hb => exact h.begin hb
    · exact h
  | commit id => exact h.commit id
  | abort id => exact h.abort id
  | drop id => exact h.drop id
  | add id table row => exact h.writeIn id fun htx _ _ _ hf => h.tables.add htx hf fun _ _ _ => ha
  | put id table row => exact h.writeIn id fun htx _ _ _ hf => h.tables.put htx hf fun _ _ _ => ha
  | delete id table key => exact h.writeIn id fun htx _ _ _ hf => h.tables.delete htx hf
  | subscribe entity kinds listener =>
    rw [(after_subscribe c entity kinds listener).1]
    exact h
  | unsubscribe entity id =>
    rw [(after_unsubscribe c entity id).1]
    exact h

theorem keeps_foldl (hschema : c.schema = s) (h : c.store.Keeps s W) {actions : List Action}
    (hactions : ∀ a ∈ actions, a.Writes W) : (actions.foldl after c).store.Keeps s W := by
  induction actions generalizing c with
  | nil => exact h
  | cons a rest ih =>
    have hstep := keeps_after hs hrequests hschema h (hactions a List.mem_cons_self)
    refine ih ((schema_after c a).trans hschema) hstep fun b hb => ?_
    exact hactions b (List.mem_cons_of_mem a hb)

end

end Client

end RelationalStore

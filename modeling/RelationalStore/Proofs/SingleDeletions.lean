import RelationalStore.Proofs.DeletionDepth
import RelationalStore.Proofs.DispatchedChanges

/- A deletion ends, and deletes each row once. It ends because there is a depth at which no deletion
   is opened any more (`Operation.delete_eq`), so that what the source calls there does not matter.
   It deletes a row once because each deletion that is opened leaves a mark, and none is opened of a
   row that has one: in the end the marks are those of the rows that were told to be deleted, one
   for each (`Operation.Tally`). -/
namespace RelationalStore
open SortedMap

namespace Operation
variable {α β : Type} {s : Schema} {e child : Entity} {key : Key} {row : Row} {w w' : Work}
  {opened : List (String × Key)}

/-- Not one row under two names or two forms of its key. -/
def Apart (p q : String × Key) : Prop := ¬ (p.1 = q.1 ∧ compare p.2 q.2 = .eq)

/-- The rows whose deletion is told of by some changes. -/
def deletedRows (changes : List Change) : List (String × Key) :=
  (changes.filter (·.kind = .delete)).map fun change => (change.entity, change.key)

/-- Each deletion that has begun is open or was told of, and each is of a row of its own. -/
structure Tally (opened : List (String × Key)) (w : Work) : Prop where
  begun : w.deleting.Perm (opened ++ deletedRows w.changes)
  apart : w.deleting.Pairwise Apart

/-- At first there is nothing to tell of. -/
theorem Tally.start (hchanges : w.changes = []) (hdeleting : w.deleting = []) : Tally [] w := by
  refine ⟨?_, ?_⟩
  · rw [hchanges, hdeleting]
    exact .nil
  · rw [hdeleting]
    exact .nil

theorem Tally.congr (h : Tally opened w) (hdeleting : w'.deleting = w.deleting)
    (hdeleted : deletedRows w'.changes = deletedRows w.changes) : Tally opened w' := by
  refine ⟨?_, ?_⟩
  · rw [hdeleting, hdeleted]
    exact h.begun
  · rw [hdeleting]
    exact h.apart

/-- The operation ends with the same deletions open as it began with. -/
abbrev Tallies (opened : List (String × Key)) (op : Operation α) : Prop :=
  Triple (Tally opened) op (fun _ => Tally opened) fun _ w => ∃ left, Tally left w

namespace Tallies

theorem of_keeps {op : Operation α} {Q : α → Prop} {E : Error → Prop}
    (h : Keeps (Tally opened) op Q E) : Tallies opened op :=
  Triple.mono h (fun _ h => h) (fun _ _ h => h.1) fun _ _ h => ⟨opened, h.1⟩

theorem pure {a : α} : Tallies opened (Pure.pure a) := Triple.pure fun _ h => h

theorem bind {x : Operation β} {f : β → Operation α} (hx : Tallies opened x)
    (hf : ∀ b, Tallies opened (f b)) : Tallies opened (x >>= f) :=
  Triple.bind hx hf

theorem ofExcept (r : Except Error α) : Tallies opened (MonadExcept.ofExcept r) :=
  of_keeps (Keeps.ofExcept (Q := fun _ => True) (E := fun _ => True) .any)

theorem look (s : Schema) (reading : View → Read α) : Tallies opened (Operation.look s reading) :=
  of_keeps (Keeps.look (Q := fun _ => True) (E := fun _ => True) fun _ _ => .any)

theorem forM {l : List β} {f : β → Operation Unit} (hf : ∀ b, Tallies opened (f b)) :
    Tallies opened (l.forM f) := by
  induction l with
  | nil => exact pure
  | cons b l ih => exact bind (hf b) fun _ => ih

theorem foldlM {l : List β} {f : α → β → Operation α} (hf : ∀ a b, Tallies opened (f a b)) :
    ∀ a, Tallies opened (l.foldlM f a) := by
  induction l with
  | nil => exact fun a => pure
  | cons b l ih => exact fun a => bind (hf a b) ih

/-! ### Single steps -/

theorem settle (outcome : Except Error (α × Transaction × Tables)) :
    Tallies opened (Operation.settle outcome) :=
  Triple.of_eq fun _ hw =>
    Triple.settle (.of_ok (fun _ _ => hw.congr rfl rfl) fun _ _ => ⟨opened, hw⟩)

theorem putRow (e : Entity) (row : Row) : Tallies opened (Operation.putRow e row) :=
  Triple.get fun _ hw => Triple.mono (settle _) (fun _ h => h ▸ hw) (fun _ _ h => h) fun _ _ h => h

theorem touch (e : Entity) (row : Row) : Tallies opened (Operation.touch e row) :=
  bind (Triple.get fun _ hw _ _ => hw.congr rfl rfl) fun _ => pure

theorem note_update (e : Entity) (key : Key) : Tallies opened (note e .update key) :=
  Triple.modify fun w hw => hw.congr rfl (by simp [deletedRows])

/-- A deletion that is opened is of a row that has no mark. -/
theorem beginDelete (e : Entity) (key : Key) :
    Triple (Tally opened) (Operation.beginDelete e key)
      (fun fresh => Tally (if fresh then (e.name, key) :: opened else opened))
      fun _ w => ∃ left, Tally left w := by
  refine Triple.get fun w hw => Triple.ite (fun _ => Triple.pure fun w' hw' => hw' ▸ hw) fun hnew => ?_
  refine fun w' _ => ⟨List.Perm.cons _ hw.begun, List.pairwise_cons.2 ⟨fun p hp hsame => hnew ?_, hw.apart⟩⟩
  obtain ⟨hname, hkey⟩ := hsame
  refine List.any_eq_true.2 ⟨p, hp, Bool.and_eq_true_iff.2 ⟨?_, ?_⟩⟩
  · exact beq_iff_eq.2 hname.symm
  · exact Key.equiv_iff.2 (Std.OrientedCmp.eq_symm hkey)

/-- A deletion that is done is told of. -/
theorem deleteRow (e : Entity) (key : Key) :
    Triple (Tally ((e.name, key) :: opened)) (Operation.deleteRow e key) (fun _ => Tally opened)
      fun _ w => ∃ left, Tally left w := by
  refine Triple.get fun w hw => Triple.bind (R := fun _ => Tally ((e.name, key) :: opened))
    (Triple.mono (bind (settle _) fun _ => pure) (fun _ h => h ▸ hw) (fun _ _ h => h) fun _ _ h => h)
    fun _ => Triple.modify fun w hw => ⟨?_, hw.apart⟩
  have hdeleted : deletedRows (w.changes ++ [⟨e.name, .delete, key⟩]) =
      deletedRows w.changes ++ [(e.name, key)] := by
    simp [deletedRows]
  show w.deleting.Perm (opened ++ deletedRows (w.changes ++ [⟨e.name, .delete, key⟩]))
  rw [hdeleted, ← List.append_assoc]
  exact hw.begun.trans (List.perm_append_singleton _ _).symm

/-! ### Deletions -/

theorem clearKey (d : Dependent) (child : Entity) (row : Row) :
    Tallies opened (Operation.clearKey d child row) :=
  bind (touch child _) fun _ => bind (bind (putRow child _) fun _ => pure) fun _ => note_update child _

theorem forEachPresent (s : Schema) (e : Entity) (rows : List Row) {f : Row → Operation Unit}
    (hf : ∀ row, Tallies opened (f row)) : Tallies opened (Operation.forEachPresent s e rows f) := by
  refine forM fun row => bind (look s _) fun found => ?_
  cases found with
  | none => exact pure
  | some current => exact hf current

theorem settleDependents (s : Schema) (e : Entity) (row : Row) {f : Entity → Row → Operation Unit}
    (hf : ∀ child row, Tallies opened (f child row)) (d : Dependent) :
    Tallies opened (Operation.settleDependents s e row f d) := by
  unfold Operation.settleDependents
  refine Triple.ite (fun _ => pure) fun _ => bind (ofExcept _) fun child => bind (look s _) fun rows => ?_
  split
  · exact pure
  · exact Triple.ite (fun _ => Triple.throw fun _ h => ⟨opened, h⟩) fun _ => pure
  · exact forEachPresent s child rows (hf child)
  · exact forEachPresent s child rows (clearKey d child)

/-- By induction on how deep deletions may still be opened. -/
theorem deleteWithin (s : Schema) (depth : Nat) :
    ∀ (opened : List (String × Key)) (e : Entity) (row : Row),
      Tallies opened (Operation.deleteWithin s depth e row) := by
  induction depth with
  | zero => exact fun _ _ _ => pure
  | succ depth ih =>
    intro opened e row
    refine Triple.bind (beginDelete e (e.keyOf row)) fun fresh => ?_
    cases fresh with
    | false => exact pure
    | true =>
      exact Triple.bind (forM fun d => settleDependents s e row (ih _) d) fun _ => deleteRow e _

theorem delete (s : Schema) (e : Entity) (row : Row) : Tallies opened (Operation.delete s e row) :=
  Triple.get fun _ hw => Triple.mono (deleteWithin s _ opened e row) (fun _ h => h ▸ hw)
    (fun _ _ h => h) fun _ _ h => h

end Tallies

/-- The requests that delete keep the tally. -/
theorem tallies_deletes {q : Query} {r : Request α} {picks : View → Entity → Read (List Row)}
    (hr : r.Deletes q picks) (s : Schema) (e : Entity) : Tallies opened (r.operation s e) := by
  cases hr with
  | delete =>
    refine .bind (.ofExcept _) fun _ => .bind (.look s _) fun _ => .bind (.look s _) fun _ => ?_
    exact .bind (.delete s e _) fun _ => .pure
  | deleteMany =>
    refine .bind (.look s _) fun rows => .foldlM (fun n row => .bind (.look s _) fun found => ?_) 0
    cases found with
    | none => exact .pure
    | some current => exact .bind (.delete s e current) fun _ => .pure

end Operation

/-! ### Clients -/

namespace Client
open Operation

/-- In an accepted schema the deletion of a row ends, wherever the numbers in each column of a key are of
one class: it is the recursion in which the deletions of others are deletions again, and from some depth
on none is opened any more, whatever stands there. And a request that deletes opens one deletion at most
of each row; if it does not fail, the rows of which it tells are those, each of them once, and so are
those that listeners hear of. -/
theorem deletions_end {defs : List EntityDef} {s : Schema} (hs : Schema.ofDefs defs = .ok s) :
    (∀ {κ : String → String → NumberClass} {w : Work} {e : Entity} {row : Row},
      s.Indexed κ w.tables → s.entity? e.name = some e → w.tables.Has e.name row →
        (delete s e row).run w = (deletion s (delete s) e row).run w ∧
          ∃ depth, ∀ n, depth ≤ n → ∀ f, ((deletion s)^[n] f e row).run w = (delete s e row).run w) ∧
    ∀ {q : Query} {α : Type} {r : Request α} {picks : View → Entity → Read (List Row)},
      r.Deletes q picks →
        (∀ (e : Entity) (w : Work), w.changes = [] → w.deleting = [] →
          match (r.operation s e).run w with
          | .ok _ w' => w'.deleting.Pairwise Apart ∧ w'.deleting.Perm (deletedRows w'.changes)
          | .error _ w' => w'.deleting.Pairwise Apart ∧
              ∃ left, w'.deleting.Perm (left ++ deletedRows w'.changes)) ∧
        ∀ {c : Client}, c.schema = s → ∀ (entity : String) (tx : Option Nat) {a : α},
          (c.ask entity r tx).result = .ok a → ∃ e t w, s.entity? entity = some e ∧
            (r.operation s e).run ⟨c.store.tables, t, c.supply, [], []⟩ = .ok a w ∧
              (deletedRows w.changes).Pairwise Apart ∧ ∀ listener,
                ((c.ask entity r tx).deliveries.filter (·.listener == listener)).map (·.change) =
                  w.changes.flatMap fun change => List.replicate (c.hearings listener change) change := by
  have hresolved := Schema.Resolved.ofDefs hs
  have hapart {p q : String × Key} (h : Apart p q) : Apart q p :=
    fun hsame => h ⟨hsame.1.symm, Std.OrientedCmp.eq_symm hsame.2⟩
  refine ⟨fun hindexed he hrow => ⟨delete_recursion hresolved hs hindexed he hrow, _, fun n hn f =>
    delete_eq hresolved hs (Room.start hindexed) he hrow hn f⟩, fun {q α r picks} hr => ⟨?_, ?_⟩⟩
  · intro e w hchanges hdeleting
    have hends := tallies_deletes hr s e w (.start hchanges hdeleting)
    cases hrun : (r.operation s e).run w with
    | ok a w' =>
      rw [hrun] at hends
      exact ⟨hends.apart, hends.begun⟩
    | error _ w' =>
      rw [hrun] at hends
      obtain ⟨left, htally⟩ := hends
      exact ⟨htally.apart, left, htally.begun⟩
  · intro c hc entity tx a ha
    obtain ⟨e, t, w, he, hrun, hdeliveries, hleft⟩ := ask_answered ha
    rw [hc] at he hrun
    have hends := tallies_deletes hr s e ⟨c.store.tables, t, c.supply, [], []⟩ (.start rfl rfl)
    rw [hrun] at hends
    refine ⟨e, t, w, he, hrun, (hends.begun.pairwise_iff hapart).1 hends.apart, fun listener => ?_⟩
    rw [hdeliveries, heard_eq]

/-- The deletion of one of two friends comes back to the first, where it ends, and each is told of once. -/
theorem deletions_end_befriended : ∃ c₀ : Client, Schema.ofDefs EntityDef.circle = .ok c₀.schema ∧
    let c := farewell.foldl after c₀
    let left := c.ask "person" (.delete (.ofId 1)) none
    left.deliveries.map (fun d : Delivery => (d.change.kind, d.change.key.text)) =
        [(ChangeKind.delete, "2"), (ChangeKind.delete, "1")] ∧
      (∃ w : Work, w.tables = c.store.tables ∧ ∃ e row, w.tables.Has e.name row ∧
        (row.value "id").text = "1" ∧ ∃ depth, ∀ n, depth ≤ n → ∀ f,
          ((deletion c₀.schema)^[n] f e row).run w = (delete c₀.schema e row).run w) ∧
      ∃ changes : List Change, (deletedRows changes).Pairwise Apart ∧
        (left.deliveries.filter (·.listener == "left")).map (·.change) =
          changes.flatMap fun change => List.replicate (c.hearings "left" change) change := by
  have hruns : (openMemory EntityDef.circle).toOption.any fun c₀ =>
      let c := farewell.foldl after c₀
      let left := c.ask "person" (.delete (.ofId 1)) none
      c₀.schema.KeysOfKinds ∧ left.result.toOption.isSome ∧
        left.deliveries.map (fun d : Delivery => (d.change.kind, d.change.key.text)) =
          [(ChangeKind.delete, "2"), (ChangeKind.delete, "1")] ∧
        (c₀.schema.entity? "person").any fun e => e.name = "person" ∧
          ((c.store.tables.get? "person").elim [] Table.toList).any fun row =>
            (row.value "id").text = "1" := by
    decide +kernel
  obtain ⟨c₀, hs, hc₀, hholds, hkinds, hdone, hheard, hperson⟩ := exists_openMemory hruns
  obtain ⟨a, ha⟩ := Option.isSome_iff_exists.1 hdone
  obtain ⟨e, he, hperson⟩ := (Option.any_eq_true _ _).1 hperson
  obtain ⟨hname, hrow⟩ := of_decide_eq_true hperson
  obtain ⟨row, hrow, hid⟩ := List.any_eq_true.1 hrow
  obtain ⟨hschema, hnow⟩ :=
    holds_foldl (Schema.Resolved.ofDefs hs) hkinds hc₀ hholds (regular_farewell c₀)
  have hhas : (farewell.foldl after c₀).store.tables.Has e.name row := by
    rw [hname]
    cases ht : (farewell.foldl after c₀).store.tables.get? "person" with
    | none => simp [ht] at hrow
    | some t => exact ⟨t, ht, by simpa [ht] using hrow⟩
  obtain ⟨hends, hrequests⟩ := deletions_end hs
  obtain ⟨-, t, w, -, -, hapart, hlisteners⟩ := (hrequests .delete).2 hschema "person" none
    (Except.toOption_eq_some.1 ha)
  let start : Work := ⟨(farewell.foldl after c₀).store.tables, t, c₀.supply, [], []⟩
  have hdeletion := (hends (w := start) hnow.indexed (by rw [hname]; exact he) hhas).2
  exact ⟨c₀, hs, hheard, ⟨start, rfl, e, row, hhas, of_decide_eq_true hid, hdeletion⟩, w.changes,
    hapart, hlisteners "left"⟩

end Client

end RelationalStore

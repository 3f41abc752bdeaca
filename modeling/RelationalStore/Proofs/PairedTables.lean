import RelationalStore.Proofs.EqualReads
import RelationalStore.Proofs.KindedTables
import RelationalStore.Proofs.UndoLog

/- Two stores with the same rows. A table and the one that is loaded from its file have the same
   rows; the keys under which they stand may differ in form. `Tables.Paired` says so of the tables
   of two stores, name by name, and every write that a transaction can make keeps it: both writes
   succeed and note the same, or both fail with the same error (`Tables.Paired.add`, `put`,
   `delete`). The check of the unique indexes is the one place where an index decides, and it finds
   the same index because an index that is sound is taken or free by the rows alone
   (`Table.Sound.isTaken_iff`).

   The number that is generated for a key is read off the last key itself, so a key has to tell its
   number in either form: in a column of kind int no big integer stands (`Schema.Sorted`). -/
namespace RelationalStore
open SortedMap Read

/-! ### Values of columns -/

namespace Schema
variable {s : Schema} {κ : String → String → NumberClass}

/-- In a column that is declared as int stands no big integer. -/
def NoBig (s : Schema) (n c : String) (v : Value) : Prop :=
  ∀ f ∈ (s.entity? n).bind (·.field? c), f.kind = .int → ∀ m, v ≠ .bigint m

theorem noBig_iff (hs : s.Resolved) {e : Entity} (he : s.entity? e.name = some e) {f : FieldDef}
    (hf : f ∈ e.fields) {v : Value} :
    s.NoBig e.name f.name v ↔ (f.kind = .int → ∀ m, v ≠ .bigint m) := by
  rw [NoBig, he, Option.bind_some, hs.field he f hf]
  simp

theorem noBig_of_takes (hs : s.Resolved) {e : Entity} (he : s.entity? e.name = some e) {f : FieldDef}
    (hf : f ∈ e.fields) {v : Value} (hv : f.takes v) : s.NoBig e.name f.name v := by
  refine (noBig_iff hs he hf).2 fun hkind m hm => ?_
  subst hm
  cases hlist : f.list <;> simp [FieldDef.takes, hlist, hkind, Value.isOf] at hv

theorem admits_noBig (hs : s.Resolved) (hkinds : s.KeysOfKinds) : s.Admits s.NoBig where
  null n c f hf hkind m := by simp
  coerce := by
    intro e he f hf literal v hv
    have h := e.coerce_yields f literal
    rw [hv] at h
    exact noBig_of_takes hs he hf h.1
  change := by
    intro e he f hf current op v hcurrent hv
    have hcalculate : ∀ (op : Arithmetic) literal, e.calculate f current op literal = .ok v →
        s.NoBig e.name f.name v := by
      intro op literal hv
      have h : Yields (e.calculate f current op literal) _ _ := e.calculate_yields f op literal
      rw [hv] at h
      obtain ⟨-, operand, happly⟩ := h
      have happly' := op.apply_yields current operand
      rw [happly] at happly'
      refine (noBig_iff hs he hf).2 fun hkind m hm => ?_
      subst hm
      obtain ⟨m', hm'⟩ : ∃ m', current = .bigint m' := by simpa [Yields] using happly'
      exact (noBig_iff hs he hf).1 hcurrent hkind m' hm'
    cases op with
    | set literal =>
      have h := e.coerce_yields f literal
      rw [show e.coerce f literal = .ok v from hv] at h
      exact noBig_of_takes hs he hf h.1
    | unset =>
      cases hv
      exact (noBig_iff hs he hf).2 fun _ m => by simp
    | push literal =>
      have h : Yields (e.push f current literal) _ _ := e.push_yields f literal
      rw [show e.push f current literal = .ok v from hv] at h
      obtain ⟨-, items, -, rfl⟩ := h
      exact (noBig_iff hs he hf).2 fun _ m => by simp
    | increment literal => exact hcalculate .add literal hv
    | decrement literal => exact hcalculate .subtract literal hv
    | multiply literal => exact hcalculate .multiply literal hv
    | divide literal => exact hcalculate .divide literal hv
  stamp he f hf _ t := (noBig_iff hs he hf).2 fun _ m => by simp
  time he f hf _ _ t := (noBig_iff hs he hf).2 fun _ m => by simp
  text he f hf _ _ t := (noBig_iff hs he hf).2 fun _ m => by simp
  increment he f hf _ n := (noBig_iff hs he hf).2 fun _ m => by simp
  noItems he f hf _ := (noBig_iff hs he hf).2 fun _ m => by simp
  link := by
    intro e he r hr p hp v hv f hf hkind
    obtain ⟨t, ht⟩ := hs.target he r (List.mem_filter.1 hr).1
    have hsame := hkinds e (hs.mem_values he) r hr t ht p hp
    rw [he, Option.bind_some] at hf
    rw [show e.field? p.1 = some f from hf, eq_comm, Option.map_some, Option.map_eq_some_iff] at hsame
    obtain ⟨g, hg, hgkind⟩ := hsame
    exact hv g (by rw [ht]; exact hg) (hgkind.trans hkind)

/-- A value that can be in a column: its numbers are of the class of the column, and an int column
tells its numbers in one form. -/
def Sorted (s : Schema) (κ : String → String → NumberClass) (n c : String) (v : Value) : Prop :=
  v.within (κ n c) = true ∧ s.NoBig n c v

end Schema

theorem Schema.Admits.and {s : Schema} {V W : String → String → Value → Prop} (hV : s.Admits V)
    (hW : s.Admits W) : s.Admits fun n c v => V n c v ∧ W n c v where
  null n c := ⟨hV.null n c, hW.null n c⟩
  coerce he f hf _ _ hv := ⟨hV.coerce he f hf hv, hW.coerce he f hf hv⟩
  change he f hf _ _ _ hc hv := ⟨hV.change he f hf hc.1 hv, hW.change he f hf hc.2 hv⟩
  stamp he f hf h t := ⟨hV.stamp he f hf h t, hW.stamp he f hf h t⟩
  time he f hf h h' t := ⟨hV.time he f hf h h' t, hW.time he f hf h h' t⟩
  text he f hf h h' t := ⟨hV.text he f hf h h' t, hW.text he f hf h h' t⟩
  increment he f hf h n := ⟨hV.increment he f hf h n, hW.increment he f hf h n⟩
  noItems he f hf h := ⟨hV.noItems he f hf h, hW.noItems he f hf h⟩
  link he r hr p hp _ hv := ⟨hV.link he r hr p hp hv.1, hW.link he r hr p hp hv.2⟩

/-! ### Tables whose values are of a predicate -/

/-- A proper table whose keys and rows have values of a predicate. -/
structure Table.Of (κ : String → NumberClass) (V : String → Value → Prop) (t : Table) : Prop extends
    Table.Proper κ t where
  keys : ∀ e ∈ t.rows.entries, ∀ p ∈ t.definition.keyPath.zip e.1.parts, V p.1 p.2
  values : ∀ e ∈ t.rows.entries, ∀ c, V c (e.2.value c)

/-- A row that may be put under a key of such a table. -/
structure TableDef.Bears (κ : String → NumberClass) (V : String → Value → Prop) (d : TableDef)
    (key : Key) (new : Option Row) : Prop extends d.Suits κ key new where
  parts : ∀ p ∈ d.keyPath.zip key.parts, V p.1 p.2
  values : ∀ row ∈ new, ∀ c, V c (row.value c)

theorem Key.zip_ofRow {columns : List String} {row : Row} {p : String × Value}
    (hp : p ∈ columns.zip (Key.ofRow columns row).parts) : p.2 = row.value p.1 := by
  rw [Key.ofRow, ← List.map_id columns, List.map_map, List.zip_map'] at hp
  obtain ⟨c, -, rfl⟩ := List.mem_map.1 hp
  rfl

namespace Table
variable {κ : String → NumberClass} {V : String → Value → Prop} {t u : Table} {key : Key}
  {new : Option Row} {row : Row}

theorem Of.restore (h : t.Of κ V) (hs : t.definition.Bears κ V key new) :
    (t.restore key new).Of κ V where
  toProper := h.toProper.restore hs.toSuits
  keys e he := by
    rw [definition_restore]
    rcases (mem_restore h.rows hs.fits).1 he with ⟨row, hrow, rfl⟩ | ⟨he, -⟩
    · exact hs.parts
    · exact h.keys e he
  values e he := by
    rcases (mem_restore h.rows hs.fits).1 he with ⟨row, hrow, rfl⟩ | ⟨he, -⟩
    · exact hs.values row hrow
    · exact h.values e he

theorem Of.bears_get? (h : t.Of κ V) (hs : t.definition.Bears κ V key new) :
    t.definition.Bears κ V key (t.get? key) where
  toSuits := h.toProper.suits_get? hs.fits
  parts := hs.parts
  values row hrow := by
    obtain ⟨k, hk, -⟩ := (get?_eq_some_iff h.rows hs.fits).1 hrow
    exact h.values _ hk

/-- Tables whose values are of a predicate, and the rows that keep them so. -/
abbrev Discipline.of (κ : String → NumberClass) (V : String → Value → Prop) : Discipline where
  classes := κ
  Good := Of κ V
  Suits := TableDef.Bears κ V
  sound h := h.toSound
  accepts h := h.toAccepts
  restore h hs := h.restore hs
  suits_get? h hs := h.bears_get? hs

theorem Of.ofDef (d : TableDef) : (Table.ofDef d).Of κ V where
  toSound := .ofDef d
  within := by simp [Table.ofDef]
  keys := by simp [Table.ofDef]
  values := by simp [Table.ofDef]

theorem bears_own {d : TableDef} (hwithin : row.Within κ) (hrow : ∀ c, V c (row.value c))
    (hnull : (Key.ofRow d.keyPath row).hasNull = false) :
    d.Bears κ V (Key.ofRow d.keyPath row) (some row) where
  toSuits := TableDef.suits_own hwithin hnull
  parts p hp := by
    rw [Key.zip_ofRow hp]
    exact hrow p.1
  values := by simpa using hrow

theorem bears_none {d : TableDef} (hwithin : row.Within κ) (hrow : ∀ c, V c (row.value c)) :
    d.Bears κ V (Key.ofRow d.keyPath row) none where
  toSuits := TableDef.suits_none (Row.Fits.key hwithin.fits)
  parts p hp := by
    rw [Key.zip_ofRow hp]
    exact hrow p.1
  values := by simp

/-! ### The same answers -/

variable {D : Discipline}

theorem Agrees.get?_of_fits (h : t.Agrees D u) (hkey : key.Fits D.classes t.definition.keyPath) :
    t.get? key = u.get? key := by
  have hK := Key.compare_isLE_trans D.classes t.definition.keyPath
  have hright := (D.sound h.right).rows.keys
  rw [← h.definition] at hright
  refine map_eq_of_rel (h.rows.rel_entryAt? fun a ha b hb hab => ?_) fun _ _ h => h.2
  exact hK.congr_right hkey ((D.sound h.left).rows.keys a ha) (hright b hb) hab

theorem Agrees.toList_eq (h : t.Agrees D u) : t.toList = u.toList := h.rows.values_eq

theorem Agrees.keyOf_eq (h : t.Agrees D u) (row : Row) : t.keyOf row = u.keyOf row := by
  rw [keyOf, keyOf, h.definition]

theorem Agrees.requireKey_eq (h : t.Agrees D u) (row : Row) :
    t.requireKey row = u.requireKey row := by
  rw [requireKey, requireKey, h.keyOf_eq, name, name, h.definition]

theorem Agrees.isTaken (h : t.Agrees D u) (hkey : key.Fits D.classes t.definition.keyPath)
    (hrow : row.Fits D.classes t.definition.columns) {i j : Index} (hi : i ∈ t.indexes)
    (hj : j ∈ u.indexes) (hd : i.definition = j.definition) (htaken : i.isTaken key row = true) :
    j.isTaken key row = true := by
  have hK := Key.compare_isLE_trans D.classes t.definition.keyPath
  have hright := (D.sound h.right).rows.keys
  rw [← h.definition] at hright
  obtain ⟨hu, hn, e, he, hshare, hne⟩ := ((D.sound h.left).isTaken_iff hrow hi).1 htaken
  obtain ⟨f, hf, hc, heq⟩ := h.rows.exists_right he
  rw [h.definition] at hrow
  refine ((D.sound h.right).isTaken_iff hrow hj).2 ⟨hd ▸ hu, hd ▸ hn, f, hf, ?_, fun hfk => hne ?_⟩
  · rw [← heq, ← hd]
    exact hshare
  · exact hK.eq_trans ((D.sound h.left).rows.keys e he) (hright f hf) hkey hc hfk

/-- The same indexes are taken, so the same one is named where a check fails. -/
theorem Agrees.checkUnique_eq (h : t.Agrees D u) (hkey : key.Fits D.classes t.definition.keyPath)
    (hrow : row.Fits D.classes t.definition.columns) : t.checkUnique key row = u.checkUnique key row := by
  have hfind : (t.indexes.find? (·.isTaken key row)).map (·.definition) =
      (u.indexes.find? (·.isTaken key row)).map (·.definition) := by
    refine map_eq_of_rel (rel_find? h.same.indexes fun i hi j hj hij => ?_) fun i j hij => hij.1
    refine Bool.eq_iff_iff.2 ⟨h.isTaken hkey hrow hi hj hij.1, ?_⟩
    rw [h.definition] at hkey hrow
    exact h.symm.isTaken hkey hrow hj hi hij.1.symm
  rw [checkUnique, checkUnique, name, name, h.definition]
  cases hi : t.indexes.find? (·.isTaken key row) <;>
    cases hj : u.indexes.find? (·.isTaken key row) <;> simp [hi, hj] at hfind ⊢
  rw [hfind]

/-- Where no big integer may stand, what is equal to a number is that number. -/
theorem eq_int_of_compare {m : Int} {x : Value} (hx : x.within .whole) (hbig : ∀ m, x ≠ .bigint m)
    (h : compare (.int m) x = .eq) : x = .int m := by
  have hrank := Value.rank_eq_of_compare h
  cases x with
  | int n => exact congrArg Value.int (Std.LawfulEqOrd.eq_of_compare (α := Int) h).symm
  | bigint n => exact absurd rfl (hbig n)
  | _ => simp [Value.rank, Value.within] at hrank hx

theorem int?_eq_of_compare {x y : Value} (hx : x.within .whole) (hy : y.within .whole)
    (hbig : ∀ m, x ≠ .bigint m) (hbig' : ∀ m, y ≠ .bigint m) (h : compare x y = .eq) :
    x.int? = y.int? := by
  cases hm : x.int? with
  | some m =>
    obtain rfl : x = .int m := by cases x <;> simp_all [Value.int?]
    rw [eq_int_of_compare hy hbig' h]
    rfl
  | none =>
    cases hn : y.int? with
    | none => rfl
    | some n =>
      obtain rfl : y = .int n := by cases y <;> simp_all [Value.int?]
      rw [eq_int_of_compare hx hbig (Std.OrientedCmp.eq_symm h)] at hm
      cases hm

/-- Where the key is one number in a column without big integers, the last key tells it. -/
theorem Agrees.lastKey_int? (h : t.Agrees (.of κ V) u) {c : String}
    (hpath : t.definition.keyPath = [c]) (hclass : κ c = .whole)
    (hbig : ∀ v, V c v → ∀ m, v ≠ .bigint m) :
    (t.lastKey?.bind fun key => key.parts.head?.bind Value.int?) =
      u.lastKey?.bind fun key => key.parts.head?.bind Value.int? := by
  have hpart {t : Table} (ht : t.Of κ V) (hpath : t.definition.keyPath = [c]) {e : Key × Row}
      (he : e ∈ t.rows.entries) :
      ∃ x, e.1.parts = [x] ∧ x.within .whole ∧ ∀ m, x ≠ .bigint m := by
    have hfits := ht.rows.keys e he
    have hkeys := ht.keys e he
    have hlength := Key.length_eq_of_compare (ht.stored e he)
    rw [Table.keyOf, hpath] at hlength
    rw [hpath] at hfits hkeys
    obtain ⟨x, hx⟩ := List.length_eq_one_iff.1 hlength
    have hx' := hfits 0 x (by rw [hx]; rfl)
    exact ⟨x, hx, by simpa [hclass] using hx', hbig x (hkeys (c, x) (by simp [hx]))⟩
  have hlast := h.rows.rel_getLast?
  rw [lastKey?, lastKey?, SortedMap.lastKey?, SortedMap.lastKey?]
  cases he : t.rows.entries.getLast? with
  | none =>
    rw [eq_none_of_rel hlast he]
  | some e =>
    obtain ⟨f, hf, hef, -⟩ := exists_of_rel hlast he
    obtain ⟨x, hx, hxw, hxb⟩ := hpart h.left hpath (List.mem_of_getLast? he)
    obtain ⟨y, hy, hyw, hyb⟩ :=
      hpart h.right (by rw [← h.definition, hpath]) (List.mem_of_getLast? hf)
    have hxy : compare x y = .eq := by
      change Value.compareItems e.1.parts f.1.parts = .eq at hef
      rw [hx, hy, Value.compareItems] at hef
      split at hef
      · next hc => exact hc
      · next hc => exact absurd hef hc
    rw [hf]
    simpa [hx, hy] using int?_eq_of_compare hxw hyw hxb hyb hxy

end Table

/-! ### The same outcome -/

namespace Read
universe u
variable {ε : Type} {α β γ δ : Type u} {R : α → β → Prop} {S : γ → δ → Prop}

/-- Both succeed with results that are related, or both fail with the same error. -/
def Match (R : α → β → Prop) (x : Except ε α) (y : Except ε β) : Prop :=
  match x, y with
  | .ok a, .ok b => R a b
  | .error e, .error e' => e = e'
  | _, _ => False

namespace Match
variable {x : Except ε α} {y : Except ε β}

theorem ok {a : α} {b : β} (h : R a b) : Match R (.ok a : Except ε α) (.ok b) := h

theorem error (e : ε) : Match R (.error e : Except ε α) (.error e) := rfl

theorem of_eq {x y : Except ε α} (h : x = y) : Match Eq x y := by
  subst h
  cases x <;> rfl

theorem bind {f : α → Except ε γ} {g : β → Except ε δ} (h : Match R x y)
    (hfg : ∀ a b, x = .ok a → R a b → Match S (f a) (g b)) : Match S (x >>= f) (y >>= g) := by
  cases x <;> cases y
  · exact h
  · exact h.elim
  · exact h.elim
  · exact hfg _ _ rfl h

end Match
end Read

/-! ### Paired tables -/

/-- Two transactions that differ by their numbers alone. -/
structure Transaction.Matches (tx ux : Transaction) : Prop where
  mode : ux.mode = tx.mode
  scope : ux.scope = tx.scope
  active : ux.active = tx.active
  undo : ux.undo = tx.undo

namespace Tables
variable {D : String → Table.Discipline} {a b : Tables} {n : String} {t u : Table}

/-- The tables of two stores agree, name by name. -/
def Paired (D : String → Table.Discipline) (a b : Tables) : Prop :=
  List.Forall₂ (fun x y => x.1 = y.1 ∧ x.2.Agrees (D x.1) y.2) a.entries b.entries

theorem Paired.get? (h : a.Paired D b) (n : String) :
    Option.Rel (Table.Agrees (D n)) (a.get? n) (b.get? n) := by
  obtain ⟨xs⟩ := a
  obtain ⟨ys⟩ := b
  change List.Forall₂ _ xs ys at h
  induction h with
  | nil => exact .none
  | @cons x y xs ys hxy _ ih =>
    obtain ⟨hname, hagrees⟩ := hxy
    rw [SortedMap.get?, SortedMap.get?, entryAt?, entryAt?, ← hname]
    cases hc : compare n x.1 with
    | lt => exact .none
    | eq =>
      rw [Std.LawfulEqOrd.eq_of_compare hc]
      exact .some hagrees
    | gt => exact ih

theorem Paired.insert (h : a.Paired D b) (htu : t.Agrees (D n) u) :
    Tables.Paired D (a.insert n t) (b.insert n u) := by
  obtain ⟨xs⟩ := a
  obtain ⟨ys⟩ := b
  change List.Forall₂ _ xs ys at h
  induction h with
  | nil => exact .cons ⟨rfl, htu⟩ .nil
  | @cons x y xs ys hxy hrest ih =>
    rw [SortedMap.insert, SortedMap.insert, Paired, insertEntry, insertEntry, ← hxy.1]
    cases hc : compare n x.1 with
    | lt => exact .cons ⟨rfl, htu⟩ (.cons hxy hrest)
    | eq => exact .cons ⟨rfl, Std.LawfulEqOrd.eq_of_compare hc ▸ htu⟩ hrest
    | gt => exact .cons hxy ih

theorem Paired.toList_eq (h : a.Paired D b) :
    a.values.map Table.toList = b.values.map Table.toList := by
  obtain ⟨xs⟩ := a
  obtain ⟨ys⟩ := b
  change List.Forall₂ _ xs ys at h
  induction h with
  | nil => rfl
  | cons hxy _ ih => exact congrArg₂ List.cons hxy.2.toList_eq ih

theorem Paired.symm (h : a.Paired D b) : b.Paired D a :=
  List.Forall₂.flip (h.imp fun _ _ hxy => ⟨hxy.1.symm, hxy.1 ▸ hxy.2.symm⟩)

/-- The table that a table is paired with. -/
theorem Paired.partner (h : a.Paired D b) {n : String} {u : Table} (hu : b.get? n = some u) :
    ∃ t, a.get? n = some t ∧ t.Agrees (D n) u := by
  obtain ⟨t, ht, hagrees⟩ := exists_of_rel (h.symm.get? n) hu
  exact ⟨t, ht, hagrees.symm⟩

theorem Paired.definition (h : a.Paired D b) (n : String) :
    (b.get? n).map (·.definition) = (a.get? n).map (·.definition) :=
  map_eq_of_rel (h.symm.get? n) fun _ _ hagrees => hagrees.definition

theorem Paired.under (h : a.Paired D b) (ha : Tables.Under D a) : Tables.Under D b where
  name hu := by
    obtain ⟨t, ht, hagrees⟩ := h.partner hu
    rw [Table.name, ← hagrees.definition]
    exact ha.name ht
  good hu := by
    obtain ⟨t, -, hagrees⟩ := h.partner hu
    exact hagrees.right

end Tables

namespace Transaction.Matches
variable {tx ux : Transaction} {a b : Tables} {n : String} {row : Row}

theorem note (h : tx.Matches ux) (u : Undo) : (tx.note u).Matches (ux.note u) where
  mode := h.mode
  scope := h.scope
  active := h.active
  undo := congrArg (u :: ·) h.undo

section
variable {D : String → Table.Discipline} (h : tx.Matches ux) (htables : a.Paired D b)
include h htables

theorem table (n : String) :
    Match (fun t u => a.get? n = some t ∧ t.Agrees (D n) u) (tx.table a n) (ux.table b n) := by
  have hget := htables.get? n
  rw [Transaction.table, Transaction.table, h.active, h.scope]
  split
  · exact .error _
  split
  · cases ha : a.get? n <;> cases hb : b.get? n <;> rw [ha, hb] at hget <;> cases hget
    · exact .error _
    · next hagrees => exact .ok ⟨rfl, hagrees⟩
  · exact .error _

theorem tableToWrite (n : String) :
    Match (fun t u => a.get? n = some t ∧ t.Agrees (D n) u) (tx.tableToWrite a n)
      (ux.tableToWrite b n) := by
  refine (h.table htables n).bind fun t u _ htu => ?_
  rw [h.mode]
  split
  · exact .ok htu
  · exact .error _

end

/-! ### Writes -/

/-- What a write gives in one store and in the other: the same answer, and stores that agree. -/
abbrev Wrote {α : Type} (D : String → Table.Discipline)
    (x y : Except Error (α × Transaction × Tables)) : Prop :=
  Match (fun r r' => r.1 = r'.1 ∧ r.2.1.Matches r'.2.1 ∧ r.2.2.Paired D r'.2.2) x y

section
variable {κ : String → String → NumberClass} {V : String → String → Value → Prop}
  (h : tx.Matches ux) (htables : a.Paired (fun n => .of (κ n) (V n)) b)
  (hrow : row.Obeys V n) (hwithin : row.Within (κ n))
include h htables hrow hwithin

omit h htables in
/-- What becomes of a table that gets a row under its own key. -/
theorem restore_own {t u : Table} (htu : t.Agrees (.of (κ n) (V n)) u)
    (hnull : (t.keyOf row).hasNull = false) :
    (t.restore (t.keyOf row) (some row)).Agrees (.of (κ n) (V n)) (u.restore (t.keyOf row) (some row)) :=
  htu.restore (Table.bears_own hwithin hrow hnull)

omit h htables in
theorem add_table {t u : Table} (htu : t.Agrees (.of (κ n) (V n)) u) :
    Match (fun r r' => r.1 = r'.1 ∧ r.2.Agrees (.of (κ n) (V n)) r'.2) (t.add row) (u.add row) := by
  rw [Table.add, Table.add, ← htu.requireKey_eq, Table.name, Table.name, htu.definition]
  refine .bind (.of_eq rfl) fun key key' hkey heq => ?_
  subst heq
  obtain ⟨rfl, hnull⟩ := Table.requireKey_ok hkey
  have hfits : (t.keyOf row).Fits (κ n) t.definition.keyPath := hwithin.fits.key
  have hget := htu.get?_of_fits hfits
  have hcontains (t : Table) : t.rows.contains (t.keyOf row) = (t.get? (t.keyOf row)).isSome :=
    Option.isSome_map.symm
  rw [hcontains, htu.keyOf_eq, hcontains, ← htu.keyOf_eq, hget]
  split
  · exact .error _
  next hfree =>
  have hfree : u.get? (t.keyOf row) = none := by simpa using hfree
  refine .bind (.of_eq (htu.checkUnique_eq hfits hwithin.fits)) fun _ _ _ _ => .ok ⟨rfl, ?_⟩
  have hagrees := restore_own hrow hwithin htu hnull
  rwa [Table.restore, Table.restore, Table.remove_of_absent (hget.trans hfree),
    Table.remove_of_absent hfree] at hagrees

omit h htables in
theorem put_table {t u : Table} (htu : t.Agrees (.of (κ n) (V n)) u) :
    Match (fun r r' => r.1 = r'.1 ∧ r.2.Agrees (.of (κ n) (V n)) r'.2) (t.put row) (u.put row) := by
  rw [Table.put, Table.put, ← htu.requireKey_eq]
  refine .bind (.of_eq rfl) fun key key' hkey heq => ?_
  subst heq
  obtain ⟨rfl, hnull⟩ := Table.requireKey_ok hkey
  refine .bind (.of_eq (htu.checkUnique_eq hwithin.fits.key hwithin.fits)) fun _ _ _ _ => .ok ⟨rfl, ?_⟩
  exact restore_own hrow hwithin htu hnull

theorem add : Wrote (fun n => .of (κ n) (V n)) (tx.add a n row) (ux.add b n row) := by
  refine (h.tableToWrite htables n).bind fun t u _ htu => ?_
  refine (add_table hrow hwithin htu.2).bind fun r r' _ hr => .ok ⟨hr.1, ?_, htables.insert hr.2⟩
  rw [Table.name, Table.name, htu.2.definition, hr.1]
  exact h.note _

theorem put : Wrote (fun n => .of (κ n) (V n)) (tx.put a n row) (ux.put b n row) := by
  refine (h.tableToWrite htables n).bind fun t u _ htu => ?_
  have hfits : (t.keyOf row).Fits (κ n) t.definition.keyPath := hwithin.fits.key
  refine (put_table hrow hwithin htu.2).bind fun r r' _ hr => .ok ⟨hr.1, ?_, htables.insert hr.2⟩
  rw [Table.name, Table.name, htu.2.get?_of_fits hfits, htu.2.keyOf_eq, htu.2.definition, hr.1]
  exact h.note _

/-- A deletion is given the key of a row, in the columns of the key of the table. -/
theorem delete {columns : List String} (hpath : ∀ t, a.get? n = some t → t.definition.keyPath = columns) :
    Wrote (fun n => .of (κ n) (V n)) (tx.delete a n (Key.ofRow columns row))
      (ux.delete b n (Key.ofRow columns row)) := by
  refine (h.tableToWrite htables n).bind fun t u _ htu => ?_
  obtain rfl := hpath t htu.1
  have hkey : (t.keyOf row).Fits (κ n) t.definition.keyPath := hwithin.fits.key
  have hagrees := htu.2.restore (Table.bears_none (d := t.definition) hwithin hrow)
  have hget : u.get? (Key.ofRow t.definition.keyPath row) = t.get? (Key.ofRow t.definition.keyPath row) :=
    (htu.2.get?_of_fits hkey).symm
  rw [Table.delete, Table.delete, hget]
  cases t.get? (Key.ofRow t.definition.keyPath row) with
  | none => exact .ok ⟨rfl, h, htables⟩
  | some old =>
    refine .ok ⟨rfl, ?_, htables.insert hagrees⟩
    rw [Table.name, Table.name, htu.2.definition]
    exact h.note _

end

end Transaction.Matches

end RelationalStore

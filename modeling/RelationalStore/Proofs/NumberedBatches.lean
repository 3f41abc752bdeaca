import RelationalStore.Proofs.GreedyBatches
import RelationalStore.Proofs.IncrementedKeys
import RelationalStore.Proofs.RenamedEntities

/- Batches of rows without a number. Where the incremented field is the whole primary key, each row
   that is stored is put after all others, under the next number, and the one after it finds it
   there; so the rows of a batch get the numbers that follow, in the order of the batch
   (`Operation.batch_continues`). And there is nothing else to it: a batch that can be stored with
   these numbers written out is stored without them, with the same outcome (`Operation.batch_give`).
   Both are by induction over the batch, which leaves its table filed by number after each row
   (`Table.Files.store`). -/
namespace RelationalStore
open SortedMap Read Operation

/-! ### Rows that are put last -/

/-- A key that is greater than all others is put at the end. -/
theorem SortedMap.insertEntry_last {κ ν : Type} [Ord κ] {k : κ} (v : ν) {entries : List (κ × ν)}
    (h : ∀ p ∈ entries, compare k p.1 = .gt) : insertEntry k v entries = entries ++ [(k, v)] := by
  induction entries with
  | nil => rfl
  | cons p rest ih =>
    rw [List.forall_mem_cons] at h
    rw [insertEntry, h.1, ih h.2]
    rfl

/-- The numbers after `m`, as values. -/
def numbersAfter (m : Int) (n : Nat) : List Value :=
  (List.range n).map fun i : Nat => .int (m + 1 + i)

theorem numbersAfter_succ (m : Int) (n : Nat) :
    numbersAfter m (n + 1) = .int (m + 1) :: numbersAfter (m + 1) n := by
  simp only [numbersAfter, List.range_succ_eq_map, List.map_cons, List.map_map]
  congr 1
  · simp
  · refine List.map_congr_left fun i _ => congrArg Value.int ?_
    show m + 1 + ((i + 1 : Nat) : Int) = m + 1 + 1 + i
    omega

namespace Table
variable {t : Table} {column : String} {m n : Int} {row : Row}

theorem Reaches.unique (h : t.Reaches column m) (h' : t.Reaches column n) : m = n := by
  obtain ⟨rfl, hnone⟩ | ⟨⟨row, hrow, hm⟩, hle⟩ := h
  · obtain ⟨rfl, -⟩ | ⟨⟨row, hrow, hn⟩, -⟩ := h'
    · rfl
    · exact absurd hn (hnone row hrow n)
  · obtain ⟨-, hnone⟩ | ⟨⟨row', hrow', hn⟩, hle'⟩ := h'
    · exact absurd hm (hnone row hrow m)
    · exact le_antisymm (hle' row hrow m hm) (hle row' hrow' n hn)

theorem Files.below (h : t.Files column) (hm : t.Reaches column m) : ∀ p ∈ t.rows.entries,
    ∃ n : Int, p.1 = ⟨[.int n]⟩ ∧ p.2.value column = .int n ∧ n ≤ m := by
  intro p hp
  obtain ⟨n, hkey, hn⟩ := h.filed p hp
  have hrow : p.2 ∈ t.toList := List.mem_map_of_mem hp
  obtain ⟨-, hnone⟩ | ⟨-, hle⟩ := hm
  · exact absurd hn (hnone p.2 hrow n)
  · exact ⟨n, hkey, hn, hle p.2 hrow n hn⟩

section Next
variable (h : t.Files column) (hm : t.Reaches column m) (hrow : row.value column = .int (m + 1))
include h hm hrow

omit hm in
theorem Files.keyOf_next : t.keyOf row = ⟨[.int (m + 1)]⟩ := by
  rw [keyOf, h.path, Key.ofRow, List.map_singleton, hrow]

/-- The row with the next number is put after all others. -/
theorem Files.entries_store :
    (t.store (t.keyOf row) row).rows.entries = t.rows.entries ++ [(t.keyOf row, row)] := by
  refine insertEntry_last row fun p hp => ?_
  obtain ⟨n, hkey, -, hle⟩ := h.below hm p hp
  rw [hkey, h.keyOf_next hrow, Key.compare_int, Int.compare_eq_gt]
  omega

theorem Files.store : (t.store (t.keyOf row) row).Files column where
  path := h.path
  filed p hp := by
    rw [h.entries_store hm hrow] at hp
    rcases List.mem_append.1 hp with hold | hnew
    · exact h.filed p hold
    · cases List.mem_singleton.1 hnew
      exact ⟨m + 1, h.keyOf_next hrow, hrow⟩
  sorted := by
    rw [h.entries_store hm hrow, List.pairwise_append]
    refine ⟨h.sorted, List.pairwise_singleton _ _, fun p hp q hq => ?_⟩
    cases List.mem_singleton.1 hq
    obtain ⟨n, hown, -, hle⟩ := h.below hm p hp
    rw [hown, h.keyOf_next hrow, Key.compare_int, Int.compare_eq_lt]
    omega

theorem Files.reaches_store : (t.store (t.keyOf row) row).Reaches column (m + 1) := by
  have hrows : (t.store (t.keyOf row) row).toList = t.toList ++ [row] := by
    rw [toList, SortedMap.values, h.entries_store hm hrow, List.map_append]
    rfl
  refine .inr ⟨⟨row, by simp [hrows], hrow⟩, fun old hold n hn => ?_⟩
  rw [hrows, List.mem_append] at hold
  rcases hold with hold | hnew
  · obtain ⟨p, hp, rfl⟩ := List.mem_map.1 hold
    obtain ⟨k, -, hk, hle⟩ := h.below hm p hp
    cases hn.symm.trans hk
    omega
  · cases List.mem_singleton.1 hnew
    cases hn.symm.trans hrow
    exact le_refl _

end Next

end Table

/-! ### One entry of a batch -/

/-- The table that a row was added to is the one that the transaction had. -/
theorem Transaction.table_of_add {tx tx' : Transaction} {T T' : Tables} {name : String} {row : Row}
    {key : Key} (h : tx.add T name row = .ok (key, tx', T')) :
    ∃ t, tx.table T name = .ok t ∧ key = t.keyOf row ∧
      tx'.table T' name = .ok (t.store (t.keyOf row) row) := by
  obtain ⟨t, ht, h⟩ := Except.bind_eq_ok.1 h
  obtain ⟨⟨k, next⟩, hadd, h⟩ := Except.bind_eq_ok.1 h
  cases h
  obtain ⟨t', htable, ht⟩ := Except.bind_eq_ok.1 ht
  obtain rfl : t' = t := by
    split at ht
    · exact Except.ok.inj ht
    · cases ht
  obtain ⟨rfl, -, -, -, rfl⟩ := Table.add_ok hadd
  refine ⟨t', htable, rfl, ?_⟩
  unfold table at htable ⊢
  show (if !tx.active then _ else if tx.scope.contains name then _ else _) = _
  split at htable
  · cases htable
  · next hactive =>
    split at htable
    · next hscope => rw [if_neg hactive, if_pos hscope, get?_insert_self]; rfl
    · cases htable

/-- A row that leaves out the incremented field has the next number there. -/
theorem Entity.Drafts.next {e : Entity} {T : Tables} {supply : Supply} {data : WriteData}
    {row : Row} (h : e.Drafts T supply data row) {f : FieldDef} (hf : f ∈ e.fields)
    (hd : f.default = some .autoIncrement) (hstamp : f.updatedAt = false)
    (hleft : data.last? f.name = none) {t : Table} (ht : T.get? e.name = some t) :
    row.value f.name = .int (e.lastNumber f t + 1) := by
  have hstarts := h.starts f hf
  have hgiven : e.given? data f = none := by simp [given?, hleft]
  rw [hgiven] at hstarts
  generalize row.value f.name = v at hstarts
  cases hstarts with
  | stamp h => simp [hstamp] at h
  | default _ h hv =>
    cases hd.symm.trans h
    obtain ⟨t', ht', rfl⟩ := hv
    cases ht.symm.trans ht'
    rfl
  | noItems _ h => simp [hd] at h
  | absent _ h => simp [hd] at h

/-- What is stored of a batch: rows for its entries, in their order, at the end of the table, and
under the numbers after `m`. An entry may have been passed over. -/
structure Entity.Continues (e : Entity) (f : FieldDef) (m : Int) (t : Table)
    (batch : List WriteData) (made : List (Option Row)) (t' : Table) : Prop where
  drafted : List.Forall₂ (fun data made => ∀ row ∈ made, ∃ T supply, e.Drafts T supply data row)
    batch made
  filed : t'.rows.entries = t.rows.entries ++ (made.filterMap id).map fun row => (e.keyOf row, row)
  numbered : (made.filterMap id).map (·.value f.name) =
    numbersAfter m (made.filterMap id).length

namespace Operation
variable {s : Schema} {e : Entity} {f : FieldDef} {t : Table} {data : WriteData}

theorem addRow_shows (row : Row) (w₀ : Work) : Triple (· = w₀) (addRow e row)
    (fun key w => ∃ t, w₀.Shows e t ∧ key = t.keyOf row ∧ w.Shows e (t.store (t.keyOf row) row))
    fun _ w => w = w₀ := by
  refine Triple.get fun w hw => ?_
  subst hw
  refine Triple.bind (Triple.settle (Q := fun key w' => ∃ t, w.Shows e t ∧ key = t.keyOf row ∧
    w'.Shows e (t.store (t.keyOf row) row)) (.of_ok (fun added hadd => ?_) fun _ _ => rfl))
    fun key => ?_
  · exact Transaction.table_of_add hadd
  · exact Triple.bind (R := fun _ w' => ∃ t, w.Shows e t ∧ key = t.keyOf row ∧
      w'.Shows e (t.store (t.keyOf row) row)) (Triple.modify fun _ h => h) fun _ =>
        Triple.pure fun _ h => h

/-- A row is created, which is in the table then, or a unique constraint keeps it out with nothing
changed but the supply. -/
theorem create_shows (hs : s.Resolved) (he : s.entity? e.name = some e)
    (hplain : data.writesRelations = false) (w₀ : Work) : Triple (· = w₀) (create s e ∅ data)
    (fun row w => ∃ t, w₀.Shows e t ∧ e.Drafts w₀.tables w₀.supply data row ∧
      w.Shows e (t.store (t.keyOf row) row))
    fun err w => err.Other ∨ w₀.Since w := by
  rw [create_of_plain hplain]
  refine Triple.bind (Triple.mono (draft_drafts hs he hplain w₀) (fun _ h => h) (fun _ _ h => h)
    fun _ _ h => .inl h.2) fun row => Triple.of_eq fun w hw => ?_
  obtain ⟨⟨supply, -, rfl⟩, hdrafts⟩ := hw
  refine Triple.bind (Triple.mono (addRow_shows row { w₀ with supply }) (fun _ h => h)
    (fun _ _ h => h) fun _ _ h => .inr ⟨supply, h⟩) fun key => Triple.of_eq fun w hw => ?_
  obtain ⟨t, ht, rfl, hstored⟩ := hw
  have hsame : Keeps (· = w) (reread s e (t.keyOf row)) (· = row) Error.Other := by
    refine keeps_reread_found fun w' hw' t' ht' => ?_
    subst hw'
    cases ht'.symm.trans hstored.get?
    exact get?_insert_self _ _ _
  refine Triple.mono hsame (fun _ h => h) (fun found w' h => ?_) fun _ _ h => .inl h.2
  obtain ⟨rfl, rfl⟩ := h
  exact ⟨t, ht, hdrafts, hstored⟩

/-! ### Batches -/

/-- What is made for an entry of a batch. -/
def createEntry (s : Schema) (e : Entity) (skip : Bool) (data : WriteData) :
    Operation (Option Row) :=
  if data.writesRelations then throw (.invalidQuery .batchWithRelations)
  else skipDuplicate skip (create s e ∅ data)

theorem insertBatch_eq (s : Schema) (e : Entity) {q : Query} {batch : Data}
    (h : q.data = some batch) : insertBatch s e q =
      (batch.rows.mapM (createEntry s e q.skipDuplicates) >>= fun made =>
        pure (made.filterMap id)) := by
  rw [insertBatch, h]
  rfl

section
variable (hs : s.Resolved) (he : s.entity? e.name = some e) (hf : f ∈ e.fields)
  (hd : f.default = some .autoIncrement) (hstamp : f.updatedAt = false)
include hs he hf hd hstamp

/-- A row that is created without the number gets the next one, and is filed last. -/
theorem create_next {w₀ : Work} {m : Int} (ht : w₀.Shows e t) (hfiles : t.Files f.name)
    (hm : t.Reaches f.name m) (hplain : data.writesRelations = false)
    (hleft : data.last? f.name = none) : Triple (· = w₀) (create s e ∅ data)
      (fun row w => e.Drafts w₀.tables w₀.supply data row ∧ row.value f.name = .int (m + 1) ∧
        w.Shows e (t.store (t.keyOf row) row))
      fun err w => err.Other ∨ w₀.Since w := by
  refine Triple.mono (create_shows hs he hplain w₀) (fun _ h => h) (fun row w h => ?_)
    fun _ _ h => h
  obtain ⟨t', ht', hdrafts, hstored⟩ := h
  cases ht.symm.trans ht'
  refine ⟨hdrafts, ?_, hstored⟩
  rw [hm.unique (e.reaches_lastNumber (f := f) (t := t) fun _ => hfiles)]
  exact hdrafts.next hf hd hstamp hleft ht.get?

variable (hsole : e.idFields = [f.name])
include hsole

/-- The rows of a batch get the numbers that follow, and are filed in the order of the batch. -/
theorem batch_continues (skip : Bool) {batch : List WriteData}
    (hbatch : ∀ data ∈ batch, data.writesRelations = false ∧ data.last? f.name = none) {t : Table}
    {m : Int} (hfiles : t.Files f.name) (hm : t.Reaches f.name m) :
    Triple (fun w => w.Shows e t) (batch.mapM (createEntry s e skip))
      (fun made w => ∃ t', w.Shows e t' ∧ e.Continues f m t batch made t') fun _ _ => True := by
  induction batch generalizing t m with
  | nil => exact Triple.pure fun w hw => ⟨t, hw, .nil, by simp, rfl⟩
  | cons data rest ih =>
    rw [List.forall_mem_cons] at hbatch
    obtain ⟨⟨hplain, hleft⟩, hrest⟩ := hbatch
    rw [List.mapM_cons]
    refine Triple.of_eq fun w₀ hw₀ => ?_
    refine Triple.bind (R := fun made w => made.elim (w₀.Since w) fun row =>
        e.Drafts w₀.tables w₀.supply data row ∧ row.value f.name = .int (m + 1) ∧
          w.Shows e (t.store (t.keyOf row) row)) ?_ fun made => Triple.of_eq fun w hw => ?_
    · rw [createEntry, hplain]
      refine Triple.mono (Triple.skipDuplicate skip
        (create_next hs he hf hd hstamp hw₀ hfiles hm hplain hleft) (fun _ _ h => h)
        fun _ n fields _ h => h.resolve_left fun hother => hother n fields rfl)
        (fun _ h => h) (fun _ _ h => h) fun _ _ _ => trivial
    cases made with
    | none =>
      -- A row that a unique constraint keeps out takes no number.
      obtain ⟨supply, rfl⟩ := hw
      refine Triple.bind (Triple.mono (ih hrest hfiles hm) (fun w hw => ?_) (fun _ _ h => h)
        fun _ _ h => h) fun later => Triple.pure fun w h => ?_
      · subst hw
        exact hw₀
      · obtain ⟨t', ht', hlater⟩ := h
        exact ⟨t', ht', .cons (by simp) hlater.drafted, hlater.filed, hlater.numbered⟩
    | some row =>
      obtain ⟨hdrafts, hnumber, hstored⟩ := hw
      -- The rest goes on from the table with this row at its end.
      have hfiles' := hfiles.store hm hnumber
      have hm' := hfiles.reaches_store hm hnumber
      have hkey : t.keyOf row = e.keyOf row := by
        rw [Table.keyOf, hfiles.path, ← hsole]
        rfl
      refine Triple.bind (Triple.mono (ih hrest hfiles' hm') (fun w hw => ?_) (fun _ _ h => h)
        fun _ _ h => h) fun later => Triple.pure fun w h => ?_
      · subst hw
        exact hstored
      · obtain ⟨t', ht', hlater⟩ := h
        refine ⟨t', ht', .cons (by simpa using ⟨_, _, hdrafts⟩) hlater.drafted, ?_, ?_⟩
        · rw [hlater.filed, hfiles.entries_store hm hnumber, hkey]
          simp
        · show row.value f.name :: (later.filterMap id).map (·.value f.name) =
            numbersAfter m ((later.filterMap id).length + 1)
          rw [hnumber, hlater.numbered, numbersAfter_succ]

theorem insertBatch_continues {q : Query} {batch : Data} (hq : q.data = some batch)
    (hbatch : ∀ data ∈ batch.rows, data.writesRelations = false ∧ data.last? f.name = none)
    {w w' : Work} (ht : w.Shows e t) {m : Int} (hfiles : t.Files f.name)
    (hm : t.Reaches f.name m) {rows : List Row} (hrun : (insertBatch s e q).run w = .ok rows w') :
    ∃ made t', rows = made.filterMap id ∧ w'.Shows e t' ∧
      e.Continues f m t batch.rows made t' := by
  rw [insertBatch_eq s e hq] at hrun
  obtain ⟨made, w₁, hmade, hrows⟩ := bind_eq_ok.1 hrun
  cases hrows
  have hall := batch_continues hs he hf hd hstamp hsole q.skipDuplicates hbatch hfiles hm
  obtain ⟨t', ht', hcontinues⟩ := Triple.of_run hmade
    (hall.mono (fun _ hw => hw ▸ ht) (fun _ _ h => h) fun _ _ h => h)
  exact ⟨made, t', rfl, ht', hcontinues⟩

end

end Operation

/-! ### Numbers written out -/

/-- An integer is the value that it stands for, if it has 64 bits. -/
theorem Entity.coerce_int (e : Entity) {f : FieldDef} (hkind : f.kind = .int) {n : Int} {v : Value}
    (h : e.coerce f (.int n) = .ok v) : v = .int n ∧ n < Json.intLimit := by
  rw [coerce] at h
  split at h
  · rw [coerceItem, hkind] at h
    by_cases hfits : Json.isInt64 n = true
    · simp [ScalarKind.coerce, ScalarKind.coerceWith, Json.isNull, Json.int64?, hfits,
        Except.mapError] at h
      simp only [Json.isInt64, Bool.and_eq_true, decide_eq_true_eq] at hfits
      exact ⟨h.symm, hfits.2⟩
    · simp [ScalarKind.coerce, ScalarKind.coerceWith, Json.isNull, Json.int64?, hfits,
        Except.mapError] at h
  · cases h

/-- The data with a literal for a field after what they have. -/
def WriteData.give (data : WriteData) (name : String) (literal : Json) : WriteData :=
  ⟨data.fields ++ [(name, .literal literal)]⟩

/-- The entries of a batch with the numbers after `m` written out. -/
def WriteData.numbered (name : String) (m : Int) : List WriteData → List WriteData
  | [] => []
  | data :: rest => data.give name (.int (m + 1)) :: numbered name (m + 1) rest

/-- The query with the numbers after `m` written out in its batch. -/
def Query.numbered (q : Query) (name : String) (m : Int) : Query :=
  { q with data := q.data.map fun batch => .many (WriteData.numbered name m batch.rows) }

theorem WriteData.length_numbered (name : String) (m : Int) (batch : List WriteData) :
    (numbered name m batch).length = batch.length := by
  induction batch generalizing m with
  | nil => rfl
  | cons data rest ih => simp [numbered, ih]

theorem WriteData.writesRelations_give (data : WriteData) (name : String) (literal : Json) :
    (data.give name literal).writesRelations = data.writesRelations := by
  simp [give, writesRelations]

namespace Operation
variable {s : Schema} {e : Entity} {f : FieldDef} {t : Table} {data : WriteData} {w w' : Work}
  {row : Row}

theorem createFields_append (s : Schema) (e : Entity) (row : Row)
    (fields more : List (String × FieldWrite)) : createFields s e row (fields ++ more) =
      (createFields s e row fields >>= fun row => createFields s e row more) := by
  induction fields generalizing row with
  | nil => rw [List.nil_append, createFields, pure_bind]
  | cons entry rest ih =>
    obtain ⟨name, write⟩ := entry
    rw [List.cons_append, createFields, createFields, bind_assoc]
    exact congrArg _ (funext fun row => ih row)

/-- A draft with one more literal. -/
theorem draft_give (hname : e.field? f.name = some f) (data : WriteData) (literal : Json) :
    draft s e (data.give f.name literal) = (do
      let row ← createFields s e ∅ data.fields
      let row ← writeLiteral e row f.name literal
      checkForeignKeys s e row
        ((data.fields.map (·.1) |>.filter fun name => (e.field? name).isSome) ++ [f.name])
      fillDefaults s e row) := by
  have hone (row : Row) : createFields s e row [(f.name, .literal literal)] =
      writeLiteral e row f.name literal := by
    rw [createFields, createField]
    simp only [createFields, bind_pure]
  simp only [draft, WriteData.give, createFields_append, hone, bind_assoc, List.map_append,
    List.filter_append, List.map_cons, List.map_nil]
  simp [hname]

/-- Without the value under a name no more foreign keys are looked up. -/
theorem entails_checkForeignKeys {name : String} (hrow : row.get? name = none) (v : Value)
    (written : List String) :
    Entails (checkForeignKeys s e (row.insert name v) (written ++ [name]))
      (checkForeignKeys s e row written) := by
  refine Entails.forM fun r _ => ?_
  by_cases hnear : name ∈ r.near
  · have hnull : (Key.ofRow r.near row).hasNull = true := by
      refine List.any_eq_true.2 ⟨row.value name, List.mem_map_of_mem hnear, ?_⟩
      rw [Row.value, hrow]
      rfl
    simp only [hnull, Bool.not_true, Bool.and_false, Bool.false_eq_true, if_false]
    refine Entails.still fun w => Triple.ite (fun _ => ?_) fun _ => Keeps.pure trivial
    refine Keeps.andThen (Keeps.ofExcept .any) fun target => ?_
    refine Keeps.andThen (Keeps.look fun _ _ => .any) fun rows => ?_
    exact Triple.ite (fun _ => Keeps.throw trivial) fun _ => Keeps.pure trivial
  · have hkey : Key.ofRow r.near (row.insert name v) = Key.ofRow r.near row := by
      refine congrArg Key.mk (List.map_congr_left fun n hn => ?_)
      have hne : name ≠ n := fun h => hnear (h ▸ hn)
      rw [Row.value, get?_insert_of_ne hne]
      rfl
    have hwritten : r.near.any (written ++ [name]).contains = r.near.any written.contains := by
      rw [Bool.eq_iff_iff, List.any_eq_true, List.any_eq_true]
      refine exists_congr fun n => and_congr_right fun hn => ?_
      have hne : n ≠ name := fun h => hnear (h ▸ hn)
      simp [hne]
    simp only [hkey, hwritten]
    exact fun _ _ _ hrun => hrun

theorem createEntry_eq_some {skip : Bool} (hplain : data.writesRelations = false) :
    (createEntry s e skip data).run w = .ok (some row) w' ↔
      (create s e ∅ data).run w = .ok row w' := by
  rw [createEntry, hplain, if_neg Bool.false_ne_true, run_skipDuplicate]
  split
  · next heq => simp [heq]
  · next heq => cases skip <;> simp [heq]
  · next heq => simp [heq]

section
variable (hs : s.Resolved) (he : s.entity? e.name = some e) (hf : f ∈ e.fields)
  (hd : f.default = some .autoIncrement) (hstamp : f.updatedAt = false)
include hs he hf hd hstamp

/-- A row is filled in the same way without its next number as with it. -/
theorem fillDefaults_give (ht : w.Shows e t) (hfits : e.lastNumber f t + 1 < Json.intLimit)
    (hrow : row.get? f.name = none) {filled : Row}
    (hrun : (fillDefaults s e (row.insert f.name (.int (e.lastNumber f t + 1)))).run w =
      .ok filled w') : (fillDefaults s e row).run w = .ok filled w' := by
  obtain ⟨time, w₁, hnow, hfill⟩ := bind_eq_ok.1 hrun
  obtain ⟨values, w₂, hvalues, hdone⟩ := bind_eq_ok.1 hfill
  have hbegun : time = w.supply.now.1 ∧ w.Drawn w₁ := by
    cases hnow
    exact ⟨rfl, _, ⟨0, rfl⟩, rfl⟩
  obtain ⟨rfl, hdrawn⟩ := hbegun
  have hsame : Coincides w.Drawn
      (e.fields.mapM fun g => do
        let written : Row := row.insert f.name (.int (e.lastNumber f t + 1))
        return (g.name, ← complete s e g w.supply.now.1 (written.get? g.name)))
      (e.fields.mapM fun g => do
        return (g.name, ← complete s e g w.supply.now.1 (row.get? g.name)))
      fun _ => w.Drawn := by
    refine Coincides.mapM fun g hg => Coincides.bind (R := fun _ => w.Drawn) ?_ fun v =>
      Coincides.pure fun _ h => h
    -- Only the incremented field is completed in another way, with the same number.
    by_cases hother : f.name = g.name
    · have hfound := hs.field he g hg
      rw [← hother, hs.field he f hf] at hfound
      cases hfound
      simp only [get?_insert_self, hrow]
      refine ⟨fun w' hw' => ?_, Triple.pure fun _ h => h⟩
      have ht' : w'.Shows e t := by
        obtain ⟨_, -, rfl⟩ := hw'
        exact ht
      exact ((run_absent hd hstamp ht' _).trans (if_pos hfits)).symm
    · simp only [get?_insert_of_ne hother]
      exact Coincides.refl (Triple.mono (drawn_complete w s e g _) (fun _ h => h)
        (fun _ _ h => h.1) fun _ _ _ => trivial)
  refine bind_eq_ok.2 ⟨_, w₁, hnow, bind_eq_ok.2 ⟨values, w₂, ?_, ?_⟩⟩
  · rw [← hsame.same w₁ hdrawn]
    exact hvalues
  · obtain ⟨before, after, hentries, hinsert⟩ := insertEntry_of_absent
      (.int (e.lastNumber f t + 1)) (Option.map_eq_none_iff.1 hrow)
    -- The names that are written are those of the longer row, but for that of the field.
    have hknown : row.keys.find? (fun name => (e.field? name).isNone) = none := by
      split at hdone
      · cases hdone
      next hnone =>
        rw [List.find?_eq_none] at hnone ⊢
        intro name hname
        refine hnone name ?_
        rw [SortedMap.keys, SortedMap.insert, hinsert]
        rw [SortedMap.keys, hentries] at hname
        simp only [List.map_append, List.map_cons, List.mem_append, List.mem_cons] at hname ⊢
        tauto
    rw [hknown]
    split at hdone
    · cases hdone
    · exact hdone

/-- A row is created in the same way without its next number as with it. -/
theorem create_give (ht : w.Shows e t) (hplain : data.writesRelations = false)
    (hleft : data.last? f.name = none) {made : Row}
    (hrun : (create s e ∅ (data.give f.name (.int (e.lastNumber f t + 1)))).run w = .ok made w') :
    (create s e ∅ data).run w = .ok made w' := by
  have hname := hs.field he f hf
  rw [create_of_plain ((data.writesRelations_give _ _).trans hplain), draft_give hname] at hrun
  rw [create_of_plain hplain]
  obtain ⟨filled, w₄, hdraft, hstored⟩ := bind_eq_ok.1 hrun
  obtain ⟨row, w₁, hfields, hgiven⟩ := bind_eq_ok.1 hdraft
  obtain ⟨numbered, w₂, hliteral, hchecked⟩ := bind_eq_ok.1 hgiven
  obtain ⟨_, w₃, hkeys, hfilled⟩ := bind_eq_ok.1 hchecked
  obtain ⟨rfl, hrow⟩ := Triple.of_run hfields (keeps_createFields_left hname hplain hleft)
  obtain ⟨rfl, g, v, hg, hv, rfl⟩ := Triple.of_run hliteral
    (keeps_writeLiteral (· = w₁) e row f.name _)
  obtain rfl : g = f := Option.some.inj (hg.symm.trans hname)
  -- The number was read as itself, so it is one of 64 bits.
  obtain ⟨rfl, hfits⟩ := e.coerce_int (hs.increment he g hf hd) hv
  obtain ⟨rfl, -⟩ := Triple.of_run hkeys (keeps_checkForeignKeys (· = w₂) s e _ _)
  refine bind_eq_ok.2 ⟨filled, w₄, bind_eq_ok.2 ⟨row, w₃, hfields, bind_eq_ok.2 ⟨(), w₃, ?_, ?_⟩⟩,
    hstored⟩
  · exact entails_checkForeignKeys hrow _ _ _ _ _ hkeys
  · exact fillDefaults_give hs he hf hd hstamp ht hfits hrow hfilled

/-- A batch of which all rows are stored with the next numbers is stored in the same way without
them. -/
theorem batch_give (skip : Bool) {batch : List WriteData}
    (hbatch : ∀ data ∈ batch, data.writesRelations = false ∧ data.last? f.name = none) {m : Int}
    (ht : w.Shows e t) (hfiles : t.Files f.name) (hm : t.Reaches f.name m)
    {made : List (Option Row)} (hall : ∀ one ∈ made, one.isSome)
    (hrun : ((WriteData.numbered f.name m batch).mapM (createEntry s e skip)).run w =
      .ok made w') : (batch.mapM (createEntry s e skip)).run w = .ok made w' := by
  induction batch generalizing t w m made with
  | nil => exact hrun
  | cons data rest ih =>
    rw [List.forall_mem_cons] at hbatch
    obtain ⟨⟨hplain, hleft⟩, hrest⟩ := hbatch
    rw [WriteData.numbered, List.mapM_cons] at hrun
    obtain ⟨first, w₁, hfirst, hothers⟩ := bind_eq_ok.1 hrun
    obtain ⟨later, w₂, hlater, hmade⟩ := bind_eq_ok.1 hothers
    cases hmade
    obtain ⟨hfirstmade, hlatermade⟩ := List.forall_mem_cons.1 hall
    obtain ⟨row, rfl⟩ := Option.isSome_iff_exists.1 hfirstmade
    rw [hm.unique (e.reaches_lastNumber (f := f) (t := t) fun _ => hfiles),
      createEntry_eq_some ((data.writesRelations_give _ _).trans hplain)] at hfirst
    have hcreated := create_give hs he hf hd hstamp ht hplain hleft hfirst
    obtain ⟨-, hnumber, hstored⟩ := Triple.of_run hcreated
      (create_next hs he hf hd hstamp ht hfiles hm hplain hleft)
    have hfiles' := hfiles.store hm hnumber
    have hm' := hfiles.reaches_store hm hnumber
    rw [List.mapM_cons]
    have hsame := ih hrest hstored hfiles' hm' hlatermade hlater
    exact bind_eq_ok.2 ⟨some row, w₁, (createEntry_eq_some hplain).2 hcreated,
      bind_eq_ok.2 ⟨later, w', hsame, rfl⟩⟩

theorem insertBatch_give {q : Query} {batch : Data} (hq : q.data = some batch)
    (hbatch : ∀ data ∈ batch.rows, data.writesRelations = false ∧ data.last? f.name = none)
    {m : Int} (ht : w.Shows e t) (hfiles : t.Files f.name) (hm : t.Reaches f.name m)
    {rows : List Row} (hrun : (insertBatch s e (q.numbered f.name m)).run w = .ok rows w')
    (hlength : rows.length = batch.rows.length) : (insertBatch s e q).run w = .ok rows w' := by
  have hnumbered : (q.numbered f.name m).data =
      some (.many (WriteData.numbered f.name m batch.rows)) := by
    rw [Query.numbered, hq]
    rfl
  rw [insertBatch_eq s e hnumbered] at hrun
  rw [insertBatch_eq s e hq]
  obtain ⟨made, w₁, hmade, hrows⟩ := bind_eq_ok.1 hrun
  cases hrows
  -- As many rows as entries: no entry was passed over.
  have hlengths : made.length = batch.rows.length := by
    have hpairs := Triple.of_run hmade (Triple.mono (Keeps.mapM_each (I := fun _ => True)
      (D := fun _ _ => True) (E := fun _ => True) fun _ _ => .any) (fun _ _ => trivial)
      (fun _ _ h => h) fun _ _ h => h)
    exact hpairs.2.length_eq.symm.trans (WriteData.length_numbered _ _ _)
  have hall : ∀ one ∈ made, one.isSome :=
    List.filterMap_length_eq_length.1 (hlength.trans hlengths.symm)
  have hsame := batch_give hs he hf hd hstamp q.skipDuplicates hbatch ht hfiles hm hall hmade
  exact bind_eq_ok.2 ⟨made, w', hsame, rfl⟩

end

/-! ### The column -/

/-- The number that is generated follows the greatest one in the column, which is zero where there
is none. There is none after the greatest integer: then no row without the field is completed, and
nothing is stored. Rows that are filed under such numbers, as the only ones, go on in the order of
the batch; a batch that is stored with them written out is stored in the same way without them. -/
theorem increments {defs : List EntityDef} (hs : Schema.ofDefs defs = .ok s)
    (he : s.entity? e.name = some e) (hf : f ∈ e.fields) (hd : f.default = some .autoIncrement)
    (hstamp : f.updatedAt = false) (ht : w.Shows e t) (hcounts : t.Counts f.name)
    (hfiled : e.idFields = [f.name] → t.Files f.name) : ∃ m, t.Reaches f.name m ∧
      (∀ time, (absent s e f time).run w =
        if m = Json.intLimit - 1 then .error (.invalidValue e.name f.name .incrementOverflow) w
        else .ok (.int (m + 1)) w) ∧
      (m = Json.intLimit - 1 → (∀ row : Row, row.get? f.name = none →
          ∃ err w', (fillDefaults s e row).run w = .error err w' ∧ w.Since w') ∧
        ∀ data : WriteData, data.writesRelations = false → data.last? f.name = none →
          ∃ err w', (create s e ∅ data).run w = .error err w' ∧ w.Since w') ∧
      (e.idFields = [f.name] → ∀ (q : Query) (batch : Data), q.data = some batch →
        (∀ data ∈ batch.rows, data.writesRelations = false ∧ data.last? f.name = none) →
        (∀ rows w', (insertBatch s e q).run w = .ok rows w' → ∃ made t',
          rows = made.filterMap id ∧ w'.Shows e t' ∧ e.Continues f m t batch.rows made t') ∧
        ∀ rows w', (insertBatch s e (q.numbered f.name m)).run w = .ok rows w' →
          rows.length = batch.rows.length → (insertBatch s e q).run w = .ok rows w') := by
  have hresolved := Schema.Resolved.ofDefs hs
  have hm := e.reaches_lastNumber hfiled
  have hlast := hcounts.reaches_lt hm
  refine ⟨e.lastNumber f t, hm, fun time => ?_, fun hlimit => ?_, fun hsole q batch hq hbatch => ?_⟩
  · rw [run_absent hd hstamp ht]
    by_cases hfits : e.lastNumber f t + 1 < Json.intLimit
    · rw [if_pos hfits, if_neg (by omega)]
    · rw [if_neg hfits, if_pos (by omega)]
  · have hexhausted : ¬ e.lastNumber f t + 1 < Json.intLimit := by omega
    have hname := hresolved.field he f hf
    refine ⟨fun row hrow => ?_, fun data hplain hleft => ?_⟩
    · exact Triple.run_error (fillDefaults_exhausted hf hd hstamp ht hexhausted hrow)
    · exact Triple.run_error
        (create_exhausted hf hname hd hstamp ht hexhausted hplain hleft)
  · have hfiles := hfiled hsole
    refine ⟨fun rows w' hrun => ?_, fun rows w' hrun hlength => ?_⟩
    · exact insertBatch_continues hresolved he hf hd hstamp hsole hq hbatch ht hfiles hm hrun
    · exact insertBatch_give hresolved he hf hd hstamp hq hbatch ht hfiles hm hrun hlength

end Operation

/-! ### Numbered entries -/

/-- Events of which each is under the time at which it was written last. -/
def EntityDef.log : List EntityDef :=
  [{ name := "event",
     fields := [{ name := "id", kind := .int, id := true, updatedAt := true,
                  default := some .autoIncrement }] }]

namespace Client
open Operation

/-- A client whose entity has an incremented field for its primary key. -/
theorem exists_numbers {defs : List EntityDef} {name : String}
    {P : Client → Entity → FieldDef → Prop} [∀ c e f, Decidable (P c e f)]
    (h : (openMemory defs).toOption.any fun c =>
      ∃ e ∈ c.schema.entity? name, ∃ f ∈ e.field? "id",
        EntityDef.isAutoIncrement f ∧ e.idFields = ["id"] ∧ P c e f) :
    ∃ c e f, Schema.ofDefs defs = .ok c.schema ∧ c.Opened c.schema ∧ e.name = name ∧
      c.schema.entity? e.name = some e ∧ f ∈ e.fields ∧ f.name = "id" ∧
      f.default = some .autoIncrement ∧ e.idFields = [f.name] ∧ P c e f := by
  obtain ⟨c, hs, hopened, -, e, he, f, hf, hincrement, hsole, hP⟩ := exists_openMemory h
  have hname : e.name = name := (Schema.Resolved.ofDefs hs).name he
  have hid : f.name = "id" := by simpa using List.find?_some hf
  refine ⟨c, e, f, hs, hopened, hname, by rw [hname]; exact he, List.mem_of_find?_eq_some hf, hid,
    ?_, by rw [hid, hsole], hP⟩
  unfold EntityDef.isAutoIncrement at hincrement
  split at hincrement
  · assumption
  · cases hincrement

/-- An entry under a number of its own. -/
def numberedEntry (id : Int) : Action := .ask "entry" (entry "Monday" [("id", .int id)]) none

/-- Two entries without a number. -/
def week : List WriteData :=
  [⟨[("title", .literal (.string "Tuesday"))]⟩, ⟨[("title", .literal (.string "Wednesday"))]⟩]

/-- The table of entries in a transaction over all tables. -/
def entries? (c : Client) : Option Table :=
  (c.hold.transaction.table c.store.tables "entry").toOption

theorem shows_of_entries? {c : Client} {e : Entity} {t : Table} (hname : e.name = "entry")
    (ht : t ∈ c.entries?) : c.hold.Shows e t := by
  rw [Work.Shows, hname]
  exact Except.toOption_eq_some.1 ht

end Client

namespace Operation
open Client

/-- After the fourth entry come the fifth and the sixth, and none comes after the greatest. -/
theorem increments_diary : ∃ (c : Client) (e : Entity) (f : FieldDef),
    Schema.ofDefs EntityDef.diary = .ok c.schema ∧ c.schema.entity? e.name = some e ∧
      f ∈ e.fields ∧ f.default = some .autoIncrement ∧ f.updatedAt = false ∧ e.idFields = [f.name] ∧
      (let w := (c.after (numberedEntry 4)).hold
       ∃ t made w' t', w.Shows e t ∧ t.Counts f.name ∧ t.Files f.name ∧ t.Reaches f.name 4 ∧
         (insertBatch c.schema e { data := some (.many week) }).run w = .ok (made.filterMap id) w' ∧
         w'.Shows e t' ∧ e.Continues f 4 t week made t' ∧ (made.filterMap id).length = 2) ∧
      let w := (c.after (numberedEntry (Json.intLimit - 1))).hold
      ∃ t, w.Shows e t ∧ t.Counts f.name ∧ t.Files f.name ∧
        (∀ time, (absent c.schema e f time).run w =
          .error (.invalidValue e.name f.name .incrementOverflow) w) ∧
        ∀ data ∈ week, ∃ err w', (create c.schema e ∅ data).run w = .error err w' ∧ w.Since w' := by
  have hruns : (openMemory EntityDef.diary).toOption.any fun c =>
      ∃ e ∈ c.schema.entity? "entry", ∃ f ∈ e.field? "id",
        EntityDef.isAutoIncrement f ∧ e.idFields = ["id"] ∧ f.updatedAt = false ∧
        (∃ t ∈ (c.after (numberedEntry 4)).entries?,
          t.Counts "id" ∧ t.Files "id" ∧ e.lastNumber f t = 4 ∧
          (match (insertBatch c.schema e (Query.numbered { data := some (.many week) } "id" 4)).run
              (c.after (numberedEntry 4)).hold with
            | .ok rows _ => rows.length = 2
            | .error _ _ => false : Bool) = true) ∧
        ∃ t ∈ (c.after (numberedEntry (Json.intLimit - 1))).entries?,
          t.Counts "id" ∧ t.Files "id" ∧ e.lastNumber f t = Json.intLimit - 1 := by
    decide +kernel
  obtain ⟨c, e, f, hs, -, hname, he, hf, hid, hd, hsole, hstamp,
    ⟨t, ht, hcounts, hfiles, hlast, hrows⟩, t₁, ht₁, hcounts₁, hfiles₁, hlast₁⟩ :=
      exists_numbers hruns
  rw [← hid] at hcounts hfiles hcounts₁ hfiles₁ hrows
  have ht := shows_of_entries? hname ht
  have ht₁ := shows_of_entries? hname ht₁
  have hweek : ∀ data ∈ week, data.writesRelations = false ∧ data.last? f.name = none := by
    rw [hid]
    decide
  refine ⟨c, e, f, hs, he, hf, hd, hstamp, hsole, ?_, ?_⟩
  · obtain ⟨m, hm, -, -, hbatch⟩ := increments hs he hf hd hstamp ht hcounts fun _ => hfiles
    obtain rfl : m = 4 := hm.unique (hlast ▸ e.reaches_lastNumber fun _ => hfiles)
    obtain ⟨hstored, hgiven⟩ := hbatch hsole { data := some (.many week) } _ rfl hweek
    split at hrows
    · next rows w' hrun =>
      have hlength : rows.length = 2 := by simpa using hrows
      have hsame := hgiven rows w' hrun hlength
      obtain ⟨made, t', rfl, ht', hcontinues⟩ := hstored rows w' hsame
      exact ⟨t, made, w', t', ht, hcounts, hfiles, hm, hsame, ht', hcontinues, hlength⟩
    · cases hrows
  · obtain ⟨m, hm, hfails, hnothing, -⟩ :=
      increments hs he hf hd hstamp ht₁ hcounts₁ fun _ => hfiles₁
    have hlimit : m = Json.intLimit - 1 :=
      hm.unique (hlast₁ ▸ e.reaches_lastNumber fun _ => hfiles₁)
    refine ⟨t₁, ht₁, hcounts₁, hfiles₁, fun time => (hfails time).trans (if_pos hlimit), ?_⟩
    exact fun data hdata =>
      (hnothing hlimit).2 data (hweek data hdata).1 (hweek data hdata).2

/-- Puts an entry under the decimal that is equal to the number of another one, and takes it back:
the other one stays under the decimal. -/
def misfiled : List Action :=
  [numberedEntry 9, .begin ["entry"] .readWrite,
   .put 2 "entry" (SortedMap.ofList [("id", .decimal (.ofInt 9)), ("title", .string "Sunday")]),
   .abort 2]

/-- The number does not follow the greatest one where a row is not filed under its own number. And
where the field is stamped too no number is generated. -/
theorem increments_overlooks :
    (∃ (c : Client) (e : Entity) (f : FieldDef) (t : Table),
      Schema.ofDefs EntityDef.diary = .ok c.schema ∧ c.Opened c.schema ∧
        c.schema.entity? e.name = some e ∧ f ∈ e.fields ∧ f.default = some .autoIncrement ∧
        f.updatedAt = false ∧ e.idFields = [f.name] ∧
        let w := (misfiled.foldl after c).hold
        w.Shows e t ∧ t.Counts f.name ∧ (∃ row ∈ t.toList, row.value f.name = .int 9) ∧
          ∀ time, (absent c.schema e f time).run w = .ok (.int 1) w) ∧
    ∃ (c : Client) (e : Entity) (f : FieldDef) (t : Table),
      Schema.ofDefs EntityDef.log = .ok c.schema ∧ c.Opened c.schema ∧
        c.schema.entity? e.name = some e ∧ f ∈ e.fields ∧ f.default = some .autoIncrement ∧
        e.idFields = [f.name] ∧ c.hold.Shows e t ∧ t.toList = [] ∧
        ∀ time, (absent c.schema e f time).run c.hold = .ok (.datetime time) c.hold := by
  have hmisfiled : (openMemory EntityDef.diary).toOption.any fun c =>
      ∃ e ∈ c.schema.entity? "entry", ∃ f ∈ e.field? "id",
        EntityDef.isAutoIncrement f ∧ e.idFields = ["id"] ∧ f.updatedAt = false ∧
        ∃ t ∈ (misfiled.foldl after c).entries?, t.Counts "id" ∧
          (∃ row ∈ t.toList, (row.value "id").int? = some 9) ∧ e.lastNumber f t = 0 := by
    decide +kernel
  have hlog : (openMemory EntityDef.log).toOption.any fun c =>
      ∃ e ∈ c.schema.entity? "event", ∃ f ∈ e.field? "id",
        EntityDef.isAutoIncrement f ∧ e.idFields = ["id"] ∧ f.updatedAt ∧
        ∃ t ∈ (c.hold.transaction.table c.store.tables "event").toOption, t.toList.isEmpty := by
    decide +kernel
  constructor
  · obtain ⟨c, e, f, hs, hopened, hname, he, hf, hid, hd, hsole, hstamp,
      t, ht, hcounts, hrow, hlast⟩ := exists_numbers hmisfiled
    have ht := shows_of_entries? hname ht
    obtain ⟨row, hrow, hnine⟩ := hrow
    refine ⟨c, e, f, t, hs, hopened, he, hf, hd, hstamp, hsole, ht, by rwa [hid],
      ⟨row, hrow, by rw [hid]; exact Value.int?_eq_some_iff.1 hnine⟩, fun time => ?_⟩
    rw [run_absent hd hstamp ht, hlast]
    rfl
  · obtain ⟨c, e, f, hs, hopened, hname, he, hf, hid, hd, hsole, hstamp, t, ht, hempty⟩ :=
      exists_numbers hlog
    refine ⟨c, e, f, t, hs, hopened, he, hf, hd, hsole, ?_, List.isEmpty_iff.1 hempty,
      fun time => ?_⟩
    · rw [Work.Shows, hname]
      exact Except.toOption_eq_some.1 ht
    · simp only [absent, hstamp]
      rfl

end Operation

end RelationalStore

import RelationalStore.Proofs.DeletionRequests
import RelationalStore.Proofs.UpdateRuns

/- Requests that create or update. What each leaves behind if it succeeds (`Operation.Leaves`) comes
   from what becomes of the tables while its rows are written, one lemma for those that update and
   one for all; and what its operation leaves is what a client has afterwards, whatever was done
   with it before (`Client.ask_leaves`). -/
namespace RelationalStore
open SortedMap Read

/-- The requests that update rows that are there, how these are picked, and what is answered: the
record of the one row, read where it is stored, or how many there are. -/
inductive Request.Updates (q : Query) : {α : Type} → Request α →
    (View → Entity → Read (List Row)) → (View → Entity → List Row → α → Prop) → Prop
  | update : Updates q (.update q)
      (fun v e => do
        return (← v.findUnique e (← Operation.requireSelector e q)).toList)
      fun v e rows record => ∃ x ∈ rows, ∃ y, v.tables.Has e.name y ∧ e.keyOf y = e.keyOf x ∧
        v.record e q y = .ok record
  | updateMany : Updates q (.updateMany q) (fun v e => v.matching e q.filter)
      fun _ _ rows n => n = rows.length

/-- The requests that create or update rows, and how those are picked that are updated. -/
inductive Request.Saves (q : Query) : {α : Type} → Request α → (View → Entity → Read (List Row)) → Prop
  | create : Saves q (.create q) fun _ _ => return []
  | createMany : Saves q (.createMany q) fun _ _ => return []
  | createManyAndReturn : Saves q (.createManyAndReturn q) fun _ _ => return []
  | update {α : Type} {r : Request α} {picks : View → Entity → Read (List Row)}
      {answers : View → Entity → List Row → α → Prop} (h : r.Updates q picks answers) : Saves q r picks

/-! ### Operations -/

namespace Operation
variable {c : Course} {T : Tables} {plan : List (String × Bool)} {α β : Type} {Q : α → Tables → Prop}

/-- If the operation succeeds, it leaves tables in which its result has `Q`. -/
abbrev Leaves (T : Tables) (op : Operation α) (Q : α → Tables → Prop) : Prop :=
  Triple (fun w => w.tables = T) op (fun a w => Q a w.tables) fun _ _ => True

theorem Leaves.mono {op : Operation α} {R : α → Tables → Prop} (h : Leaves T op R)
    (hle : ∀ a T', R a T' → Q a T') : Leaves T op Q :=
  Triple.mono h (fun _ h => h) (fun a w hw => hle a w.tables hw) fun _ _ h => h

theorem Leaves.after {x : Operation β} {f : β → Operation α} {P : β → Prop} (hx : Still T x P)
    (hf : ∀ b, P b → Leaves T (f b) Q) : Leaves T (x >>= f) Q :=
  Triple.bind (Triple.mono hx (fun _ h => h) (fun _ _ h => h) fun _ _ _ => trivial)
    fun b w hw => hf b hw.2 w hw.1

theorem Leaves.throw {e : Error} : Leaves T (MonadExcept.throw e : Operation α) Q :=
  Triple.throw fun _ _ => trivial

theorem Leaves.ite {p : Prop} [Decidable p] {x y : Operation α} (hx : p → Leaves T x Q)
    (hy : ¬ p → Leaves T y Q) : Leaves T (if p then x else y) Q :=
  Triple.ite hx hy

theorem Leaves.of_goes {op : Operation α} {R : α → Tables → Prop} (h : c.Goes T plan op R)
    (hQ : ∀ a T', c.Writing T' → c.Reaches T plan T' → R a T' → Q a T') : Leaves T op Q :=
  Triple.mono h (fun _ h => h) (fun a w hw => hQ a w.tables hw.1 hw.2.1 hw.2.2) fun _ _ _ => trivial

theorem rows_of_requireData {q : Query} {data : WriteData} (h : requireData q = .ok data) :
    q.data.elim [] Data.rows = [data] := by
  unfold requireData at h
  split at h
  · next hd =>
    cases h
    rw [hd]
    rfl
  · cases h
  · cases h

section
variable {e : Entity} {q : Query} {picks : View → Entity → Read (List Row)} {r : Request α}
  (hT : c.Writing T) (he : c.schema.entity? e.name = some e)

section
variable {answers : View → Entity → List Row → α → Prop} {narrow : String → String → Prop}

/-- What an update leaves: the rows that its data make and, where no key may change, its data applied
to the rows that its query picked from the tables before. -/
def HasUpdated (c : Course) (narrow : String → String → Prop) (T : Tables) (e : Entity) (q : Query)
    (picks : View → Entity → Read (List Row)) (answers : View → Entity → List Row → α → Prop) (a : α)
    (T' : Tables) : Prop :=
  ∃ data rows tx, requireData q = .ok data ∧ picks ⟨c.schema, T, tx⟩ e = .ok rows ∧
    (∀ x ∈ rows, T.Has e.name x) ∧ c.Writing T' ∧
      c.Reaches T (c.schema.revisionCreations e data) T' ∧
        (c.schema.Steady c.fluid → c.schema.Updated c.vouched c.fluid narrow T T' e data rows ∧
          ∃ tx', answers ⟨c.schema, T', tx'⟩ e rows a)

include hT he

section
variable (hnarrow : c.schema.Admissible narrow) (hle : ∀ n f, narrow n f → c.fluid n f)
  (hparts : ∀ data ∈ q.data.elim [] Data.rows, ∀ p ∈ c.schema.parts e data,
    c.schema.Flows c.vouched narrow p)
include hnarrow hle hparts

theorem leaves_update (hfluid : ∀ data ∈ q.data.elim [] Data.rows, ∀ f,
    e.Names data f ∨ c.schema.Stamps e.name f → c.fluid e.name f) :
    Leaves T ((Request.update q).operation c.schema e) <| HasUpdated c narrow T e q
      (fun v e => do return (← v.findUnique e (← requireSelector e q)).toList)
      fun v e rows record => ∃ x ∈ rows, ∃ y, v.tables.Has e.name y ∧ e.keyOf y = e.keyOf x ∧
        v.record e q y = .ok record := by
  refine .after (still_ofExcept _) fun selector hselector => ?_
  refine .after (still_ofExcept _) fun data hdata => ?_
  refine .after (still_ofExcept _) fun _ _ => ?_
  refine .after (still_look c.schema _) fun x hx => ?_
  obtain ⟨tx, hx⟩ := hx
  obtain ⟨found, hfound, hx⟩ := Except.bind_eq_ok.1 hx
  cases Option.elim_ok_eq_ok.1 hx
  have hgives := (View.gives_has c.schema T tx).findUnique e selector
  rw [hfound] at hgives
  have hhas : T.Has e.name x := hgives x rfl
  have hmem : data ∈ q.data.elim [] Data.rows := by simp [rows_of_requireData hdata]
  have hgoes := goes_update hnarrow hle he hT (hT.known he hhas)
    (hparts data hmem) (hfluid data hmem)
  -- The record is read once the row is put back and the rows that follow are written.
  refine .of_goes (.last (Q := fun a T' => ∃ y, _ ∧ ∃ tx', View.record ⟨c.schema, T', tx'⟩ e q y = .ok a)
    hT hgoes fun y T₁ hT₁ _ hupdated => .still hT₁ (still_look c.schema _) fun a ha =>
      ⟨y, hupdated, ha⟩) fun a T' hT' hreaches h => ?_
  obtain ⟨y, ⟨hy, hupdated⟩, tx', ha⟩ := h
  refine ⟨data, [x], tx, hdata, ?_, by simpa using hhas, hT', hreaches, fun hsteady => ?_⟩
  · exact Except.bind_eq_ok.2 ⟨selector, hselector, Except.bind_eq_ok.2 ⟨some x, hfound, rfl⟩⟩
  · obtain ⟨hkey, hupdated⟩ := hupdated hsteady
    exact ⟨hupdated, tx', x, List.mem_singleton_self x, y, hy, hkey, ha⟩

end

theorem leaves_updateMany (hfluid : ∀ data ∈ q.data.elim [] Data.rows, ∀ f,
    e.Names data f ∨ c.schema.Stamps e.name f → c.fluid e.name f) :
    Leaves T ((Request.updateMany q).operation c.schema e) <| HasUpdated c narrow T e q
      (fun v e => v.matching e q.filter) fun _ _ rows n => n = rows.length := by
  refine .after (still_ofExcept _) fun data hdata => ?_
  refine .ite (fun _ => .throw) fun hplain => ?_
  have hplain : data.writesRelations = false := by simpa using hplain
  have hmem : data ∈ q.data.elim [] Data.rows := by simp [rows_of_requireData hdata]
  refine .after (still_look c.schema _) fun rows hrows => ?_
  obtain ⟨tx, hrows⟩ := hrows
  have hhas : ∀ x ∈ rows, T.Has e.name x := by
    have hgives := (View.gives_has c.schema T tx).matching e q.filter
    rw [hrows] at hgives
    exact hgives
  -- The rows are a sublist of a table, so no two of them have one key.
  have hdistinct : rows.Pairwise fun x y => compare (e.keyOf x) (e.keyOf y) ≠ .eq := by
    have hsublist := View.matching_sublist ⟨c.schema, T, tx⟩ e q.filter
    rw [hrows] at hsublist
    obtain ⟨t, ht, hsublist⟩ := hsublist
    have ht := (Transaction.table_ok ht).2.2
    have hpairwise := (hT.holds.proper.proper ht).sorted.pairwise_toList.sublist hsublist
    simpa only [hT.holds.tableDef he ht] using hpairwise
  have hgoes := goes_updateEach he hplain (hfluid data hmem) hdistinct hT fun x hx =>
    hT.known he (hhas x hx)
  refine .of_goes (.last hT hgoes fun _ T₁ hT₁ _ hupdated =>
    .still hT₁ (Keeps.pure rfl) fun n hn => And.intro hn hupdated) fun n T' hT' hreaches h => ?_
  obtain ⟨hn, hupdated⟩ := h
  rw [← Schema.revisionCreations_of_plain hplain] at hreaches
  exact ⟨data, rows, tx, hdata, hrows, hhas, hT', hreaches, fun hsteady =>
    ⟨(hupdated hsteady).mono fun _ _ h => h.elim, tx, hn.symm⟩⟩

/-- A request that updates makes the rows that its data say and, where no key may change, updates the
rows that its query picks and answers with them. -/
theorem leaves_updates (hnarrow : c.schema.Admissible narrow)
    (hle : ∀ n f, narrow n f → c.fluid n f)
    (hparts : ∀ data ∈ q.data.elim [] Data.rows, ∀ p ∈ c.schema.parts e data,
      c.schema.Flows c.vouched narrow p)
    (hfluid : ∀ n f, c.schema.Rewrites e .update q n f → c.fluid n f) (hr : r.Updates q picks answers) :
    Leaves T (r.operation c.schema e) (HasUpdated c narrow T e q picks answers) := by
  have hnames (data : WriteData) (hdata : data ∈ q.data.elim [] Data.rows) (f : String)
      (h : e.Names data f ∨ c.schema.Stamps e.name f) : c.fluid e.name f :=
    hfluid e.name f ⟨data, hdata, .inr ⟨rfl, rfl, h⟩⟩
  cases hr with
  | update => exact leaves_update hT he hnarrow hle hparts hnames
  | updateMany => exact leaves_updateMany hT he hnames

end

omit hT he in
theorem goes_look {T' : Tables} {reading : View → Read β} (hT' : c.Writing T') :
    c.Goes T' [] (look c.schema reading) fun _ _ => True :=
  .still hT' (still_look c.schema reading) fun _ _ => trivial

include hT he in
/-- Rows are created one after the other, and what is done then writes nothing more. -/
theorem leaves_insertBatch {f : List Row → Operation β}
    (hflows : ∀ data ∈ q.data.elim [] Data.rows, ∀ p ∈ c.schema.parts e data, c.Flows p)
    (hvouches : ∀ data ∈ q.data.elim [] Data.rows, ∀ r, c.vouched e.name r → e.Vouches [] data r)
    (hf : ∀ rows T', c.Writing T' → c.Goes T' [] (f rows) fun _ _ => True) :
    Leaves T (insertBatch c.schema e q >>= f) fun _ T' => c.Writing T' ∧ c.Retains T T' := by
  have hkeeps : Keeps (fun w => c.Writing w.tables ∧ c.Retains T w.tables) (insertBatch c.schema e q)
      (fun _ => True) fun _ => True := by
    refine (Keeps.insertBatch (Q := fun _ => True) (fun _ => trivial) fun data hdata => ?_).mono
      (fun _ _ => trivial) fun _ h => h
    refine Triple.of_eq fun w hw => ?_
    have hgoes := goes_create he hw.1 .empty data (hflows data hdata) (hvouches data hdata)
    refine Triple.mono hgoes (fun _ h => by rw [h]) (fun _ w' hw' => ?_) fun _ w' hw' => ?_
    · exact ⟨⟨hw'.1, hw.2.trans hT.holds hw.1.holds hw'.1.holds hw'.2.1.retains⟩, trivial⟩
    · exact ⟨⟨hw'.1, hw.2.trans hT.holds hw.1.holds hw'.1.holds hw'.2.retains⟩, trivial⟩
  refine Triple.bind (Triple.mono hkeeps (fun w hw => ?_) (fun _ _ h => h.1) fun _ _ _ => trivial)
    fun rows => Triple.of_eq fun w hw => ?_
  · rw [hw]
    exact ⟨hT, .refl _ _ T⟩
  · refine Triple.mono (hf rows w.tables hw.1) (fun _ h => by rw [h]) (fun _ w' hw' => ?_)
      fun _ _ _ => trivial
    exact ⟨hw'.1, hw.2.trans hT.holds hw.1.holds hw'.1.holds hw'.2.1.retains⟩

/-- What a request that creates or updates leaves: every row, and where no key may change, those that
its query picked under their keys, with foreign keys that reference rows as far as its data set them. -/
def HasSaved (c : Course) (T : Tables) (e : Entity) (q : Query)
    (picks : View → Entity → Read (List Row)) (T' : Tables) : Prop :=
  c.Writing T' ∧ c.Retains T T' ∧ ∃ rows tx, picks ⟨c.schema, T, tx⟩ e = .ok rows ∧
    (c.schema.Steady c.fluid → ∀ x ∈ rows, ∃ y, T'.Has e.name y ∧ e.keyOf y = e.keyOf x ∧
      ∀ data ∈ q.data.elim [] Data.rows, c.schema.Settles c.vouched c.fluid T' e data y)

/-- A request that creates picks no row. -/
theorem HasSaved.created {T' : Tables} (h : c.Writing T' ∧ c.Retains T T') :
    HasSaved c T e q (fun _ _ => return []) T' :=
  ⟨h.1, h.2, [], ⟨0, .readWrite, [], true, []⟩, rfl, by simp⟩

theorem HasSaved.updated {narrow : String → String → Prop}
    {answers : View → Entity → List Row → α → Prop} {T' : Tables} {a : α}
    (h : HasUpdated c narrow T e q picks answers a T') : HasSaved c T e q picks T' := by
  obtain ⟨data, rows, tx, hdata, hrows, -, hwriting, hreaches, hupdated⟩ := h
  refine ⟨hwriting, hreaches.retains, rows, tx, hrows, fun hsteady x hx => ?_⟩
  obtain ⟨y, hy, happlied, hsettled⟩ := (hupdated hsteady).1.applied x hx
  refine ⟨y, hy, happlied.key, ?_⟩
  rw [rows_of_requireData hdata]
  exact List.forall_mem_singleton.2 hsettled

include hT he in
/-- Every row stays while rows are created and updated, and where no key may change, those that were
updated keep theirs. -/
theorem leaves_saves (hfluid : ∀ n f, c.schema.Rewrites e r.access q n f → c.fluid n f)
    (hvouched : ∀ n o, c.vouched n o → c.schema.Vouches e r.access q n o) (hr : r.Saves q picks) :
    Leaves T (r.operation c.schema e) fun _ => HasSaved c T e q picks := by
  have hflows (data : WriteData) (hdata : data ∈ q.data.elim [] Data.rows) :
      ∀ p ∈ c.schema.parts e data, c.Flows p :=
    fun p hp => ⟨fun n f h => hfluid n f ⟨data, hdata, .inl ⟨p, hp, h⟩⟩,
      fun n o ho => (hvouched n o ho data hdata).2 p hp⟩
  have hvouches (haccess : r.access = .create) (data : WriteData)
      (hdata : data ∈ q.data.elim [] Data.rows) (o : Relation) (ho : c.vouched e.name o) :
      e.Vouches [] data o := (hvouched e.name o ho data hdata).1 haccess rfl
  cases hr with
  | create =>
    refine .mono (.after (still_ofExcept _) fun data hdata => .after (still_ofExcept _) fun _ _ => ?_)
      fun _ _ => HasSaved.created
    have hmem : data ∈ q.data.elim [] Data.rows := by simp [rows_of_requireData hdata]
    exact .of_goes (.last hT (goes_create he hT .empty data (hflows data hmem)
      (hvouches rfl data hmem))
      fun _ T₁ hT₁ _ _ => goes_look hT₁) fun _ T' hT' hreaches _ => ⟨hT', hreaches.retains⟩
  | createMany =>
    exact .mono (leaves_insertBatch hT he hflows (hvouches rfl) fun _ _ hT' => .pure hT' trivial)
      fun _ _ => HasSaved.created
  | createManyAndReturn =>
    exact .mono (leaves_insertBatch hT he hflows (hvouches rfl) fun _ _ hT' => goes_look hT')
      fun _ _ => HasSaved.created
  | update h =>
    refine .mono (leaves_updates hT he c.admissible (fun _ _ h => h) hflows ?_ h)
      fun _ _ => HasSaved.updated
    intro n f hrewrites
    cases h with
    | update => exact hfluid n f hrewrites
    | updateMany => exact hfluid n f hrewrites

end

end Operation

/-! ### Clients -/

/-- What the operation of a request leaves is what a client has that is answered, whatever was done
with it before. -/
theorem Client.ask_leaves {s : Schema} (hs : s.Resolved) (hkinds : s.KeysOfKinds) {c₀ : Client}
    (hc₀ : c₀.Opened s) {κ : String → String → NumberClass} (hholds : s.Holds κ c₀.store.tables)
    {before : List Action} (hbefore : ∀ a ∈ before, a.Regular κ c₀.store.tables) {entity : String}
    {α : Type} {r : Request α} {tx : Option Nat} {a : α} :
    let c := before.foldl after c₀
    (c.ask entity r tx).result = .ok a → ∃ e, s.entity? entity = some e ∧ e.name = entity ∧
      s.Holds κ c.store.tables ∧ ∀ Q, Operation.Leaves c.store.tables (r.operation s e) Q →
        Q a (c.ask entity r tx).client.store.tables := by
  intro c ha
  obtain ⟨hschema, hnow⟩ := holds_foldl hs hkinds hc₀ hholds hbefore
  obtain ⟨e, t, w, he, hrun, htables⟩ := ask_ok ha
  rw [show c.schema = s from hschema] at he hrun
  refine ⟨e, he, hs.name he, hnow, fun Q hleaves => ?_⟩
  have hleft := hleaves ⟨c.store.tables, t, c.supply, [], []⟩ rfl
  rw [hrun] at hleft
  rwa [htables]

end RelationalStore

import RelationalStore.Proofs.DeletionRequests
import RelationalStore.Proofs.TracedCreations

/- What is written when a row is updated, and the traces of whole requests. The rows that the
   updated row references are made first, then it is put back, and then the rows that reference it
   are written to. What a client has after a request that it answers comes from what it had before
   by the writes of the trace (`Client.ask_follows`). -/
namespace RelationalStore
open SortedMap Read

namespace Operation

/-! ### Tracers -/

def traceOwner (s : Schema) (r : Relation) (write : NestedWrite) : Tracer :=
  if write.createMany.isSome then .silent
  else
    match write.disconnect with
    | some (.flag true) => .silent
    | some (.records _) => .silent
    | _ => if write.create.isEmpty && write.connect.isEmpty then .silent else traceParent s r write

def traceRevise (s : Schema) (e : Entity) (entry : String × FieldWrite) : Tracer :=
  match e.field? entry.1 with
  | some _ => .silent
  | none =>
    .after (MonadExcept.ofExcept (e.requireRelation entry.1)) fun r =>
      match entry.2 with
      | .relation write => if r.isOwning then traceOwner s r write else .silent
      | _ => .silent

def traceRevisions (s : Schema) (e : Entity) (v : Revision) : List (String × FieldWrite) → Tracer
  | [] => .silent
  | entry :: rest => .bind (revise s e v entry) (traceRevise s e entry) fun v => traceRevisions s e v rest

/-- Of a row that is updated. -/
def traceUpdate (s : Schema) (e : Entity) (data : WriteData) (row : Row) : Tracer :=
  .bind (data.fields.foldlM (revise s e) ⟨row, []⟩) (traceRevisions s e ⟨row, []⟩ data.fields)
    fun revision =>
      .after (checkForeignKeys s e revision.row revision.written) fun _ =>
        .after (stamp e revision) fun next =>
          .bind (discard (putRow e next)) (.mark (.updated e row) (discard (putRow e next))) fun _ =>
            .after (note e .update (e.keyOf row)) fun _ => traceChildren s e next data.fields

/-! ### Updates -/

variable {s : Schema} {κ : String → String → NumberClass} {updating : Entity → Row → Prop}
  {T : Tables} {e : Entity} {α β : Type}

/-- What an operation does only under a condition. -/
theorem Keeps.imp {p : Prop} {op : Operation α} {P : α → Prop}
    (h : p → Keeps (fun _ => True) op P fun _ => True) :
    Keeps (fun _ => True) op (fun a => p → P a) fun _ => True := by
  by_cases hp : p
  · exact (h hp).mono (fun _ ha _ => ha) fun _ h => h
  · exact Keeps.any.mono (fun _ _ h => absurd h hp) fun _ h => h

section
variable (hs : s.Resolved) (hkinds : s.KeysOfKinds) (he : s.entity? e.name = some e)
include hs hkinds he

theorem recounts_reviseOwner (hT : s.Holds κ T) {r : Relation} (hr : r ∈ e.owningRelations)
    {v : Revision} (hv : v.row.Obeys (fun n f v => v.within (κ n f)) e.name) (write : NestedWrite) :
    Recounts s κ updating T (reviseOwner s e r v write) (traceOwner s r write)
      fun v _ => v.row.Obeys (fun n f v => v.within (κ n f)) e.name := by
  have hV := s.admits_within hs hkinds hT.classes
  refine .ite (fun _ => .throw) fun _ => ?_
  have hresolve : Recounts s κ updating T
      (if write.create.isEmpty && write.connect.isEmpty then return v
        else do return ⟨r.linkTo (← resolveParent s r write) v.row, r.near ++ v.written⟩)
      (if write.create.isEmpty && write.connect.isEmpty then .silent else traceParent s r write)
      fun v _ => v.row.Obeys (fun n f v => v.within (κ n f)) e.name := by
    refine .ite (fun _ => .pure hv) fun _ => ?_
    refine .last hT (recounts_resolveParent hs hkinds hT r write) fun parent T₁ _ hparent =>
      Keeps.pure ?_
    exact Relation.obeys_linkTo hV he hr hparent hv
  obtain ⟨created, connected, refused, batch, released⟩ := write
  cases released with
  | none => exact hresolve
  | some d =>
    cases d with
    | records selectors => exact .throw
    | flag on =>
      cases on with
      | false => exact hresolve
      | true => exact .still (Keeps.ofExcept (release_obeys hV e r hv)) fun _ h => h

theorem recounts_revise (hT : s.Holds κ T) {v : Revision}
    (hv : v.row.Obeys (fun n f v => v.within (κ n f)) e.name) (entry : String × FieldWrite) :
    Recounts s κ updating T (revise s e v entry) (traceRevise s e entry)
      fun v _ => v.row.Obeys (fun n f v => v.within (κ n f)) e.name := by
  have hV := s.admits_within hs hkinds hT.classes
  unfold revise traceRevise
  cases hf : e.field? entry.1 with
  | some f =>
    exact .still (Keeps.ofExcept (reviseField_obeys hV he (List.mem_of_find?_eq_some hf) hv _))
      fun _ h => h
  | none =>
    refine .after (carries_requireRelation e entry.1) fun r hr => ?_
    cases entry.2 with
    | literal _ => exact .throw
    | update _ => exact .throw
    | relation write =>
      refine .ite (fun howning => ?_) fun _ => .pure hv
      exact recounts_reviseOwner hs hkinds he hT (List.mem_filter.2 ⟨hr, howning⟩) hv write

theorem recounts_revisions (hT : s.Holds κ T) {v : Revision}
    (hv : v.row.Obeys (fun n f v => v.within (κ n f)) e.name) (fields : List (String × FieldWrite)) :
    Recounts s κ updating T (fields.foldlM (revise s e) v) (traceRevisions s e v fields)
      fun v _ => v.row.Obeys (fun n f v => v.within (κ n f)) e.name := by
  induction fields generalizing T v with
  | nil => exact .pure hv
  | cons entry rest ih =>
    rw [List.foldlM_cons, traceRevisions]
    exact .bind hT (recounts_revise hs hkinds he hT hv entry) fun v T₁ hT₁ hv => ih hT₁ hv

/-- The row is put back under its own key, unless the primary key may be written to. -/
theorem recounts_update (hT : s.Holds κ T) {row : Row} (hrow : T.Has e.name row)
    (hupdating : updating e row) (data : WriteData) :
    Recounts s κ updating T (update s e data row) (traceUpdate s e data row) fun _ _ => True := by
  have hobeys : Row.Obeys (fun n f v => v.within (κ n f)) e.name row := hT.within hrow
  unfold update
  have hrevised : Keeps (fun _ => True) (data.fields.foldlM (revise s e) ⟨row, []⟩)
      (fun v => e.KeyAlone → e.keyOf v.row = e.keyOf row) fun _ => True :=
    .imp fun halone => Keeps.foldlM rfl fun v hv entry _ =>
      (revise_keyOf hs halone he v entry).mono (fun _ h => h.trans hv) fun _ h => h
  refine .bind hT ((recounts_revisions hs hkinds he hT hobeys data.fields).besides hrevised)
    fun v T₁ hT₁ hv => ?_
  obtain ⟨hv, hkey⟩ := hv
  have hV := s.admits_within hs hkinds hT₁.classes
  refine .after (carries_checkForeignKeys hs (sees_of_holds hT₁) e _ _) fun _ _ => ?_
  refine .after ((carries_stamp hV he (fun _ _ h => h) hv).besides
    (.imp fun halone => stamp_keyOf halone v)) fun next hnext => ?_
  obtain ⟨hnext, hstamped⟩ := hnext
  refine .bind hT₁ (.mark (Q := fun _ _ => True) ?_) fun _ T₂ hT₂ _ => ?_
  · refine Triple.bind (stores_putRow hT₁ he hnext) fun _ => Triple.pure fun w h => ?_
    exact ⟨.updated he hupdating h.2 fun halone => (hstamped halone).trans (hkey halone), h.1, trivial⟩
  · refine .after (still_note e .update _) fun _ _ => ?_
    refine .last hT₂ (recounts_createChildren hs hkinds he hT₂ hnext data.fields) fun _ T₃ hT₃ _ => ?_
    exact (carries_reread (sees_of_holds hT₃) e _).mono (fun _ _ => trivial) fun _ h => h

end

end Operation

/-! ### Requests -/

open Operation

namespace Request

def traceCreate (q : Query) (s : Schema) (e : Entity) : Tracer :=
  .after (MonadExcept.ofExcept (requireData q)) fun data =>
    .after (MonadExcept.ofExcept (checkSupported s e data)) fun _ =>
      Operation.traceCreate s e none ∅ data

def traceUpdate (q : Query) (s : Schema) (e : Entity) : Tracer :=
  .after (MonadExcept.ofExcept (requireSelector e q)) fun selector =>
    .after (MonadExcept.ofExcept (requireData q)) fun data =>
      .after (MonadExcept.ofExcept (checkSupported s e data)) fun _ =>
        .after (look s fun v => do requireFound e (← v.findUnique e selector)) fun row =>
          Operation.traceUpdate s e data row

/-- Of a creation or an update. -/
def trace {α : Type} (r : Request α) : Schema → Entity → Tracer :=
  match r.access with
  | .create => traceCreate r.query
  | .update => traceUpdate r.query
  | _ => fun _ _ => .silent

/-- The requests that write to relations. -/
inductive Traced (q : Query) : {α : Type} → Request α → Prop
  | create : Traced q (.create q)
  | update : Traced q (.update q)

end Request

/-- The writes of a request that a client is asked. -/
def Client.writes {α : Type} (c : Client) (e : Entity) (r : Request α) (tx : Option Nat) :
    List (Touch × Tables) :=
  (c.transactionOf e r tx).elim [] fun t => r.trace c.schema e ⟨c.store.tables, t, c.supply, [], []⟩

/-- The row is the one that the selector of the query finds. -/
def Query.Selects (q : Query) (s : Schema) (tables : Tables) (e : Entity) (row : Row) : Prop :=
  ∃ selector tx, q.filter = some selector ∧
    View.findUnique ⟨s, tables, tx⟩ e selector = .ok (some row)

section
variable {s : Schema} {κ : String → String → NumberClass} {e : Entity} {q : Query} {α : Type}
  {r : Request α} (hs : s.Resolved) (hkinds : s.KeysOfKinds)
include hs hkinds

theorem Operation.recounts_request {T : Tables} (hT : s.Holds κ T) (he : s.entity? e.name = some e)
    (hr : r.Traced q) :
    Recounts s κ (fun e' row => e' = e ∧ q.Selects s T e row) T (r.operation s e) (r.trace s e)
      fun _ _ => True := by
  cases hr with
  | create =>
    refine .after (still_ofExcept _) fun data _ => .after (still_ofExcept _) fun _ _ => ?_
    exact .last hT (recounts_create hs hkinds he hT .empty (by simp) data) fun _ _ _ _ =>
      (still_look s _).mono (fun _ _ => trivial) fun _ h => h
  | update =>
    refine .after (still_ofExcept _) fun selector hselector => ?_
    refine .after (still_ofExcept _) fun data _ => .after (still_ofExcept _) fun _ _ => ?_
    refine .after (still_look s _) fun row hrow => ?_
    obtain ⟨tx, hrow⟩ := hrow
    obtain ⟨found, hfound, hrow⟩ := Except.bind_eq_ok.1 hrow
    cases Option.elim_ok_eq_ok.1 hrow
    have hgives := (View.gives_has s T tx).findUnique e selector
    rw [hfound] at hgives
    refine .last hT (recounts_update hs hkinds he hT (hgives row rfl)
      ⟨rfl, selector, tx, Option.elim_ok_eq_ok.1 hselector, hfound⟩ data) fun _ _ _ _ => ?_
    exact (still_look s _).mono (fun _ _ => trivial) fun _ h => h

/-- What a client has after a request that it answers. -/
theorem Client.ask_follows {c : Client} (hc : c.schema = s) (hholds : s.Holds κ c.store.tables)
    (he : s.entity? e.name = some e) (hr : r.Traced q) {tx : Option Nat} {a : α}
    (ha : (c.ask e.name r tx).result = .ok a) :
    s.Follows κ (fun e' row => e' = e ∧ q.Selects s c.store.tables e row) c.store.tables
      (c.writes e r tx) (c.ask e.name r tx).client.store.tables := by
  obtain ⟨e', t, w, he', ht, hrun, -, hleft⟩ := ask_answered_in ha
  rw [hc] at he' hrun
  obtain rfl : e = e' := Option.some.inj (he.symm.trans he')
  have hrecounts := Operation.recounts_request hs hkinds hholds he hr
    ⟨c.store.tables, t, c.supply, [], []⟩ rfl
  rw [hrun] at hrecounts
  rw [hleft.tables, writes, ht, hc]
  exact hrecounts.1

end

end RelationalStore

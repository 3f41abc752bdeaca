import RelationalStore.Proofs.GainedRows
import RelationalStore.Proofs.GreedyBatches
import RelationalStore.Proofs.RaisedErrors

/- What a write does not support is told before anything is written. The check walks through the
   data as far as the relations are known (`Schema.ConnectsOrCreates` says which places it comes
   to), and refuses the first place where something is to be connected or created. None of the
   functions that write gives that reason; there is one lemma for each, along the recursion of the
   functions, so data that pass the check never fail for it, whatever else is wrong. -/
namespace RelationalStore
open Read Operation

/-- Any error but that something is not supported. -/
def Error.Supported (err : Error) : Prop :=
  ∀ operation entity relation, err ≠ .unsupportedOperation operation entity relation

/-! ### What is to be connected or created -/

/-- Through the relation of the entity something is to be connected or created, somewhere in the
data for a row of the first entity, or of the rows that are created along with it. -/
inductive Schema.ConnectsOrCreates (s : Schema) : Entity → WriteData → String → String → Prop where
  | here {e : Entity} {fields : List (String × FieldWrite)} {name : String} {write : NestedWrite}
    (hwrite : (name, .relation write) ∈ fields) (h : write.connectOrCreate ≠ []) :
    ConnectsOrCreates s e ⟨fields⟩ e.name name
  | created {e t : Entity} {fields : List (String × FieldWrite)} {name : String}
    {write : NestedWrite} {data : WriteData} {entity relation : String}
    (hwrite : (name, .relation write) ∈ fields) (ht : s.target? e name = some t)
    (hdata : data ∈ write.create) (h : ConnectsOrCreates s t data entity relation) :
    ConnectsOrCreates s e ⟨fields⟩ entity relation
  | batch {e t : Entity} {fields : List (String × FieldWrite)} {name : String}
    {write : NestedWrite} {batch : CreateMany} {data : WriteData} {entity relation : String}
    (hwrite : (name, .relation write) ∈ fields) (ht : s.target? e name = some t)
    (hbatch : write.createMany = some batch) (hdata : data ∈ batch.data)
    (h : ConnectsOrCreates s t data entity relation) :
    ConnectsOrCreates s e ⟨fields⟩ entity relation

namespace Schema
variable {s : Schema} {e : Entity} {entity relation : String}

theorem not_connectsOrCreates_nil : ¬ s.ConnectsOrCreates e ⟨[]⟩ entity relation := by
  intro h
  cases h with
  | here hwrite => cases hwrite
  | created hwrite => cases hwrite
  | batch hwrite => cases hwrite

theorem ConnectsOrCreates.mono {fields more : List (String × FieldWrite)}
    (h : s.ConnectsOrCreates e ⟨fields⟩ entity relation)
    (hsub : ∀ name write, (name, FieldWrite.relation write) ∈ fields →
      (name, FieldWrite.relation write) ∈ more) :
    s.ConnectsOrCreates e ⟨more⟩ entity relation := by
  cases h with
  | here hwrite h => exact .here (hsub _ _ hwrite) h
  | created hwrite ht hdata h => exact .created (hsub _ _ hwrite) ht hdata h
  | batch hwrite ht hbatch hdata h => exact .batch (hsub _ _ hwrite) ht hbatch hdata h

theorem connectsOrCreates_cons {entry : String × FieldWrite}
    {rest : List (String × FieldWrite)} :
    s.ConnectsOrCreates e ⟨entry :: rest⟩ entity relation ↔
      s.ConnectsOrCreates e ⟨[entry]⟩ entity relation ∨
        s.ConnectsOrCreates e ⟨rest⟩ entity relation := by
  constructor
  · intro h
    cases h with
    | here hwrite h =>
      rcases List.mem_cons.1 hwrite with rfl | hrest
      · exact .inl (.here List.mem_cons_self h)
      · exact .inr (.here hrest h)
    | created hwrite ht hdata h =>
      rcases List.mem_cons.1 hwrite with rfl | hrest
      · exact .inl (.created List.mem_cons_self ht hdata h)
      · exact .inr (.created hrest ht hdata h)
    | batch hwrite ht hbatch hdata h =>
      rcases List.mem_cons.1 hwrite with rfl | hrest
      · exact .inl (.batch List.mem_cons_self ht hbatch hdata h)
      · exact .inr (.batch hrest ht hbatch hdata h)
  · rintro (h | h)
    · exact h.mono fun _ _ hmem => List.mem_cons.2 (.inl (List.mem_singleton.1 hmem))
    · exact h.mono fun _ _ hmem => List.mem_cons_of_mem _ hmem

/-- At one relation: there itself, or in a row that is created through it. -/
theorem connectsOrCreates_relation {name : String} {write : NestedWrite} :
    s.ConnectsOrCreates e ⟨[(name, .relation write)]⟩ entity relation ↔
      (write.connectOrCreate ≠ [] ∧ entity = e.name ∧ relation = name) ∨
        ∃ t, s.target? e name = some t ∧
          ((∃ data ∈ write.create, s.ConnectsOrCreates t data entity relation) ∨
            ∃ batch ∈ write.createMany, ∃ data ∈ batch.data,
              s.ConnectsOrCreates t data entity relation) := by
  constructor
  · intro h
    cases h with
    | here hwrite h =>
      cases List.mem_singleton.1 hwrite
      exact .inl ⟨h, rfl, rfl⟩
    | created hwrite ht hdata h =>
      cases List.mem_singleton.1 hwrite
      exact .inr ⟨_, ht, .inl ⟨_, hdata, h⟩⟩
    | batch hwrite ht hbatch hdata h =>
      cases List.mem_singleton.1 hwrite
      exact .inr ⟨_, ht, .inr ⟨_, hbatch, _, hdata, h⟩⟩
  · rintro (⟨h, rfl, rfl⟩ | ⟨t, ht, ⟨data, hdata, h⟩ | ⟨batch, hbatch, data, hdata, h⟩⟩)
    · exact .here List.mem_cons_self h
    · exact .created List.mem_cons_self ht hdata h
    · exact .batch List.mem_cons_self ht hbatch hdata h

end Schema

/-! ### The check -/

/-- The check fails and names a place where something is to be connected or created, or there is no
such place. -/
def Read.Refuses (check : Except Error Unit) (P : String → String → Prop) : Prop :=
  Yields check (fun _ => ∀ entity relation, ¬ P entity relation) fun err =>
    ∃ entity relation, err = .unsupportedOperation "connectOrCreate" entity relation ∧
      P entity relation

namespace Read.Refuses
variable {check next : Except Error Unit} {P Q R : String → String → Prop}

theorem ok (h : ∀ entity relation, ¬ P entity relation) : Refuses (.ok ()) P := h

theorem andThen (hcheck : Refuses check P) (hnext : Refuses next Q)
    (hR : ∀ entity relation, R entity relation ↔ P entity relation ∨ Q entity relation) :
    Refuses (check >>= fun _ => next) R := by
  refine .bind (R := fun _ => ∀ entity relation, ¬ P entity relation)
    (hcheck.mono (fun _ h => h) fun err herr => ?_) fun _ hP => hnext.mono (fun _ hQ => ?_) ?_
  · obtain ⟨entity, relation, rfl, h⟩ := herr
    exact ⟨entity, relation, rfl, (hR _ _).2 (.inl h)⟩
  · exact fun entity relation h => ((hR _ _).1 h).elim (hP _ _) (hQ _ _)
  · rintro err ⟨entity, relation, rfl, h⟩
    exact ⟨entity, relation, rfl, (hR _ _).2 (.inr h)⟩

theorem congr (h : Refuses check P)
    (hQ : ∀ entity relation, Q entity relation ↔ P entity relation) : Refuses check Q := by
  have hPQ : P = Q := funext fun entity => funext fun relation => propext (hQ entity relation).symm
  rwa [← hPQ]

/-- What there is decides whether the check fails. -/
theorem error_of (h : Refuses check P) {entity relation : String} (hP : P entity relation) :
    ∃ entity relation, P entity relation ∧
      check = .error (.unsupportedOperation "connectOrCreate" entity relation) := by
  cases hcheck : check with
  | ok u =>
    rw [hcheck] at h
    exact absurd hP (h entity relation)
  | error err =>
    rw [hcheck] at h
    obtain ⟨entity, relation, rfl, hP⟩ := h
    exact ⟨entity, relation, hP, rfl⟩

theorem ok_of (h : Refuses check P) (hP : ∀ entity relation, ¬ P entity relation) :
    check = .ok () := by
  cases hcheck : check with
  | ok u => rfl
  | error err =>
    rw [hcheck] at h
    obtain ⟨entity, relation, -, h⟩ := h
    exact absurd h (hP entity relation)

end Read.Refuses

namespace Operation
variable (s : Schema)

mutual

/-- The check comes to every place where something is to be connected or created. -/
theorem refuses_checkSupported (e : Entity) : ∀ data : WriteData,
    Refuses (checkSupported s e data) (s.ConnectsOrCreates e data)
  | ⟨fields⟩ => by
    rw [checkSupported]
    exact refuses_checkFields e fields

theorem refuses_checkFields (e : Entity) : ∀ fields : List (String × FieldWrite),
    Refuses (checkFields s e fields) (s.ConnectsOrCreates e ⟨fields⟩)
  | [] => by
    rw [checkFields]
    exact .ok fun _ _ => Schema.not_connectsOrCreates_nil
  | (name, write) :: rest => by
    rw [checkFields]
    exact (refuses_checkWrite e name write).andThen (refuses_checkFields e rest) fun _ _ =>
      Schema.connectsOrCreates_cons

theorem refuses_checkWrite (e : Entity) (name : String) : ∀ write : FieldWrite,
    Refuses (checkWrite s e name write) (s.ConnectsOrCreates e ⟨[(name, write)]⟩)
  | .literal literal => by
    rw [checkWrite]
    refine .ok fun _ _ h => Schema.not_connectsOrCreates_nil (h.mono fun _ _ hmem => ?_)
    cases List.mem_singleton.1 hmem
  | .update op => by
    rw [checkWrite]
    refine .ok fun _ _ h => Schema.not_connectsOrCreates_nil (h.mono fun _ _ hmem => ?_)
    cases List.mem_singleton.1 hmem
  | .relation write => by
    rw [checkWrite]
    exact refuses_checkNested e name write

theorem refuses_checkNested (e : Entity) (name : String) : ∀ write : NestedWrite,
    Refuses (checkNested s e name write) (s.ConnectsOrCreates e ⟨[(name, .relation write)]⟩)
  | ⟨created, connected, connectOrCreate, batch, released⟩ => by
    rw [checkNested.eq_def]
    have hrows : Refuses (match s.target? e name with
        | none => .ok ()
        | some target => do
          checkAll s target created
          checkBatch s target batch)
        fun entity relation => ∃ t, s.target? e name = some t ∧
          ((∃ data ∈ created, s.ConnectsOrCreates t data entity relation) ∨
            ∃ many ∈ batch, ∃ data ∈ many.data, s.ConnectsOrCreates t data entity relation) := by
      cases ht : s.target? e name with
      | none => exact .ok fun _ _ h => by simp at h
      | some t =>
        refine (refuses_checkAll t created).andThen (refuses_checkBatch t batch) fun _ _ => ?_
        simp
    refine .ite (fun hsome => ?_) fun hnone => ?_
    · refine .bind (R := fun _ => False) (.throw ⟨e.name, name, rfl, ?_⟩) fun _ h => h.elim
      exact Schema.connectsOrCreates_relation.2 (.inl ⟨by simpa using hsome, rfl, rfl⟩)
    · refine hrows.congr fun _ _ => ?_
      have hempty : connectOrCreate = [] := by simpa using hnone
      rw [Schema.connectsOrCreates_relation, hempty]
      simp

theorem refuses_checkBatch (e : Entity) : ∀ batch : Option CreateMany,
    Refuses (checkBatch s e batch) fun entity relation =>
      ∃ many ∈ batch, ∃ data ∈ many.data, s.ConnectsOrCreates e data entity relation
  | none => by
    rw [checkBatch]
    exact .ok fun _ _ h => by simp at h
  | some batch => by
    rw [checkBatch]
    exact (refuses_checkMany e batch).congr fun _ _ => by simp

theorem refuses_checkMany (e : Entity) : ∀ batch : CreateMany,
    Refuses (checkMany s e batch) fun entity relation =>
      ∃ data ∈ batch.data, s.ConnectsOrCreates e data entity relation
  | ⟨rows, _⟩ => by
    rw [checkMany]
    exact refuses_checkAll e rows

theorem refuses_checkAll (e : Entity) : ∀ rows : List WriteData,
    Refuses (checkAll s e rows) fun entity relation =>
      ∃ data ∈ rows, s.ConnectsOrCreates e data entity relation
  | [] => by
    rw [checkAll]
    exact .ok fun _ _ h => by simp at h
  | data :: rest => by
    rw [checkAll]
    exact (refuses_checkSupported e data).andThen (refuses_checkAll e rest) fun _ _ => by simp

end

end Operation

/-! ### Writing -/

/-- A reading fails for another reason. -/
theorem Read.Raises.supported {α : Type} {r : Read α} (h : Raises (fun _ => True) r) :
    Yields r (fun _ => True) Error.Supported :=
  h.mono (fun _ _ => trivial) fun err herr => by cases herr <;> exact nofun

namespace Transaction
variable {tx : Transaction} {tables : Tables} {name : String}

theorem supported_tableToWrite :
    Yields (tx.tableToWrite tables name) (fun _ => True) Error.Supported := by
  refine .andThen (r := tx.table tables name) ?_ fun _ =>
    .ite (fun _ => .pure trivial) fun _ => .throw nofun
  unfold table
  refine .ite (fun _ => .error nofun) fun _ => .ite (fun _ => ?_) fun _ => .error nofun
  exact .elim (.error nofun) fun _ _ => .ok trivial

theorem supported_requireKey (t : Table) (row : Row) :
    Yields (t.requireKey row) (fun _ => True) Error.Supported :=
  .ite (fun _ => .error nofun) fun _ => .ok trivial

theorem supported_checkUnique (t : Table) (key : Key) (row : Row) :
    Yields (t.checkUnique key row) (fun _ => True) Error.Supported := by
  unfold Table.checkUnique
  split
  · exact .error nofun
  · exact .ok trivial

theorem supported_add (row : Row) :
    Yields (tx.add tables name row) (fun _ => True) Error.Supported := by
  refine .andThen supported_tableToWrite fun t => .andThen (r := t.add row) ?_ fun _ => .pure trivial
  refine .andThen (supported_requireKey t row) fun key => .ite (fun _ => .error nofun) fun _ => ?_
  exact .andThen (supported_checkUnique t key row) fun _ => .pure trivial

theorem supported_put (row : Row) :
    Yields (tx.put tables name row) (fun _ => True) Error.Supported := by
  refine .andThen supported_tableToWrite fun t => .andThen (r := t.put row) ?_ fun _ => .pure trivial
  refine .andThen (supported_requireKey t row) fun key => ?_
  exact .andThen (supported_checkUnique t key row) fun _ => .pure trivial

end Transaction

namespace Operation
variable {s : Schema} {e target : Entity} {α : Type}

/-- The operation does not fail because something is not supported. -/
abbrev Supported (op : Operation α) : Prop :=
  Keeps (fun _ : Work => True) op (fun _ => True) Error.Supported

theorem supported_look {reading : View → Read α} (h : ∀ v, Raises (fun _ => True) (reading v)) :
    Supported (look s reading) :=
  Keeps.look fun _ _ => (h _).supported

theorem supported_ofExcept {r : Read α} (h : Raises (fun _ => True) r) :
    Supported (MonadExcept.ofExcept r) :=
  Keeps.ofExcept h.supported

theorem supported_require (name : String) : Supported (MonadExcept.ofExcept (s.require name)) :=
  supported_ofExcept ((s.raises_require name).mono (fun _ _ => trivial) fun _ h => h)

theorem supported_requireRelation (name : String) :
    Supported (MonadExcept.ofExcept (e.requireRelation name)) :=
  supported_ofExcept ((e.raises_requireRelation fun _ => trivial).mono (fun _ _ => trivial)
    fun _ h => h)

theorem supported_settle {outcome : Except Error (α × Transaction × Tables)}
    (h : Yields outcome (fun _ => True) Error.Supported) : Supported (settle outcome) :=
  Triple.of_eq fun _ _ => Triple.settle (h.mono (fun _ _ => ⟨trivial, trivial⟩) fun _ herr =>
    ⟨trivial, herr⟩)

theorem supported_note (kind : ChangeKind) (key : Key) : Supported (note e kind key) :=
  Triple.modify fun _ _ => ⟨trivial, trivial⟩

/-! ### Complete rows -/

theorem supported_now : Supported now :=
  Triple.get fun _ _ _ _ => ⟨trivial, trivial⟩

theorem supported_token : Supported token :=
  Triple.get fun _ _ _ _ => ⟨trivial, trivial⟩

theorem supported_addRow (row : Row) : Supported (addRow e row) := by
  refine Triple.get fun w hw => ?_
  have hadd : Supported (settle (w.transaction.add w.tables e.name row) >>= fun key => do
      note e .create key
      return key) :=
    Keeps.andThen (supported_settle (Transaction.supported_add row)) fun key =>
      Keeps.andThen (supported_note .create key) fun _ => Keeps.pure trivial
  exact Triple.mono hadd (fun _ _ => trivial) (fun _ _ h => h) fun _ _ h => h

theorem supported_putRow (row : Row) : Supported (putRow e row) :=
  Triple.get fun _ _ => Triple.mono (supported_settle (Transaction.supported_put row))
    (fun _ _ => trivial) (fun _ _ h => h) fun _ _ h => h

theorem supported_changeRow (row : Row) : Supported (changeRow e row) :=
  Keeps.andThen (supported_putRow row) fun key => supported_note .update key

theorem supported_touch (row : Row) : Supported (touch e row) :=
  Keeps.andThen supported_now fun _ => Keeps.pure trivial

theorem supported_requireKind (f : FieldDef) (kind : ScalarKind) (call : String) :
    Supported (requireKind e f kind call) :=
  Triple.ite (fun _ => Keeps.throw nofun) fun _ => Keeps.pure trivial

theorem supported_nextIncrement (f : FieldDef) : Supported (nextIncrement s e f) := by
  refine Keeps.andThen (supported_look fun v => View.raises_table v e) fun t => ?_
  exact Triple.ite (fun _ => Keeps.pure trivial) fun _ => Keeps.throw nofun

theorem supported_generate (f : FieldDef) (time : DateTime) (d : DefaultValue) :
    Supported (generate s e f time d) := by
  cases d with
  | autoIncrement => exact supported_nextIncrement f
  | uuid =>
    refine Keeps.andThen (supported_requireKind f .string _) fun _ => ?_
    exact Keeps.andThen supported_token fun _ => Keeps.pure trivial
  | cuid =>
    refine Keeps.andThen (supported_requireKind f .string _) fun _ => ?_
    exact Keeps.andThen supported_token fun _ => Keeps.pure trivial
  | now => exact Keeps.andThen (supported_requireKind f .datetime _) fun _ => Keeps.pure trivial
  | literal literal => exact supported_ofExcept (e.raises_coerce f literal)

theorem supported_complete (f : FieldDef) (time : DateTime) (written : Option Value) :
    Supported (complete s e f time written) := by
  unfold complete absent
  split
  · refine Triple.ite (fun _ => Keeps.pure trivial) fun _ => ?_
    split
    · exact supported_generate f time _
    · refine Triple.ite (fun _ => Keeps.pure trivial) fun _ => ?_
      exact Triple.ite (fun _ => Keeps.throw nofun) fun _ => Keeps.pure trivial
  · refine Triple.ite (fun _ => Keeps.pure trivial) fun _ => ?_
    refine Triple.ite (fun _ => Keeps.throw nofun) fun _ => ?_
    exact Triple.ite (fun _ => Keeps.pure trivial) fun _ => Keeps.pure trivial

theorem supported_fillDefaults (written : Row) : Supported (fillDefaults s e written) := by
  refine Keeps.andThen supported_now fun time => ?_
  refine Keeps.bind (Keeps.mapM (Q := fun _ => True) fun f _ => ?_) fun values _ => ?_
  · exact Keeps.andThen (supported_complete f time _) fun _ => Keeps.pure trivial
  · split
    · exact Keeps.throw nofun
    · exact Keeps.pure trivial

/-! ### Rows that are referenced, and that reference a parent -/

theorem supported_checkForeignKeys (row : Row) (written : List String) :
    Supported (checkForeignKeys s e row written) := by
  refine Keeps.forM fun r _ => Triple.ite (fun _ => ?_) fun _ => Keeps.pure trivial
  refine Keeps.andThen (supported_require r.target) fun target => ?_
  refine Keeps.andThen (supported_look fun v => View.raises_rowsWhere v _ _ _) fun rows => ?_
  exact Triple.ite (fun _ => Keeps.throw nofun) fun _ => Keeps.pure trivial

theorem supported_reread (key : Key) : Supported (reread s e key) := by
  refine Keeps.andThen (supported_look fun v => View.raises_row? v e key) fun found => ?_
  split
  · exact Keeps.pure trivial
  · exact Keeps.throw nofun

theorem supported_findToConnect (r : Relation) (selector : Filter) :
    Supported (findToConnect s r target selector) := by
  refine Keeps.andThen (supported_look fun v => View.raises_findUnique fun _ _ => trivial)
    fun found => ?_
  split
  · exact Keeps.pure trivial
  · exact Keeps.throw nofun

theorem supported_unlink (r : Relation) (child : Row) : Supported (unlink r target child) := by
  simp only [unlink]
  split
  · exact Keeps.throw fun _ _ _ h => by cases h
  · exact Keeps.andThen (supported_touch _) fun row => supported_changeRow row

theorem supported_disconnect (r : Relation) (parent : Row) (d : Disconnect) :
    Supported (disconnect s e r target parent d) := by
  cases d with
  | flag on =>
    cases on with
    | false => exact Keeps.pure trivial
    | true =>
      refine Triple.ite (fun _ => Keeps.throw nofun) fun _ => ?_
      refine Keeps.andThen (supported_look fun v => View.raises_relatedRows v r parent) fun rows => ?_
      exact Keeps.forM fun row _ => supported_unlink r row
  | records selectors =>
    refine Triple.ite (fun _ => Keeps.throw nofun) fun _ => Keeps.forM fun selector _ => ?_
    refine Keeps.andThen (supported_look fun v => View.raises_findUnique fun _ _ => trivial)
      fun found => ?_
    split
    · exact Keeps.pure trivial
    · exact Triple.ite (fun _ => supported_unlink r _) fun _ => Keeps.pure trivial

theorem supported_connect (r : Relation) (parent : Row) (selector : Filter) :
    Supported (connect s r target parent selector) := by
  refine Keeps.andThen (supported_findToConnect r selector) fun child => ?_
  have hwrite : Supported
      (touch target (child.insertAll (r.childLink parent)) >>= changeRow target) :=
    Keeps.andThen (supported_touch _) fun row => supported_changeRow row
  refine Triple.ite (fun _ => ?_) fun _ => hwrite
  refine Keeps.andThen (supported_look fun v => View.raises_relatedRows v r parent) fun rows => ?_
  refine Keeps.andThen (Keeps.forM fun row _ => ?_) fun _ => hwrite
  exact Triple.ite (fun _ => supported_unlink r row) fun _ => Keeps.pure trivial

/-! ### Creation -/

theorem supported_skipDuplicate (skip : Bool) {creation : Operation Row}
    (h : Supported creation) : Supported (skipDuplicate skip creation) :=
  Triple.skipDuplicate skip h (fun _ _ hrow => hrow) fun _ _ _ _ _ => ⟨trivial, trivial⟩

theorem supported_writeLiteral (row : Row) (name : String) (literal : Json) :
    Supported (writeLiteral e row name literal) := by
  unfold writeLiteral
  split
  · next f _ =>
    exact Keeps.andThen (supported_ofExcept (e.raises_coerce f literal)) fun _ => Keeps.pure trivial
  · refine Keeps.andThen (Keeps.discard (supported_requireRelation name)) fun _ => ?_
    exact Keeps.throw nofun

theorem supported_writeUpdate (row : Row) (name : String) (op : UpdateOp) :
    Supported (writeUpdate e row name op) := by
  unfold writeUpdate
  split
  · exact supported_writeLiteral row name _
  · exact Keeps.throw nofun
  · refine Keeps.andThen (Keeps.discard (supported_requireRelation name)) fun _ => ?_
    exact Keeps.throw nofun

theorem supported_relationToWrite (name : String) : Supported (relationToWrite e name) :=
  Triple.ite (fun _ => Keeps.throw nofun) fun _ => supported_requireRelation name

mutual

theorem supported_create (e : Entity) (link : Row) : ∀ data : WriteData,
    Supported (create s e link data)
  | ⟨fields⟩ => by
    rw [create]
    refine Keeps.andThen (supported_createFields e ∅ fields) fun row => ?_
    refine Keeps.andThen (supported_checkForeignKeys _ _) fun _ => ?_
    refine Keeps.andThen (supported_fillDefaults _) fun row => ?_
    refine Keeps.andThen (supported_addRow row) fun key => ?_
    refine Keeps.andThen (supported_createChildren e row fields) fun _ => ?_
    exact supported_reread key

theorem supported_createFields (e : Entity) (row : Row) : ∀ fields : List (String × FieldWrite),
    Supported (createFields s e row fields)
  | [] => by
    rw [createFields]
    exact Keeps.pure trivial
  | (name, write) :: rest => by
    rw [createFields]
    exact Keeps.andThen (supported_createField e row name write) fun row =>
      supported_createFields e row rest

theorem supported_createField (e : Entity) (row : Row) (name : String) : ∀ write : FieldWrite,
    Supported (createField s e row name write)
  | .literal literal => by
    rw [createField]
    exact supported_writeLiteral row name literal
  | .update op => by
    rw [createField]
    exact supported_writeUpdate row name op
  | .relation write => by
    rw [createField]
    refine Keeps.andThen (supported_relationToWrite name) fun r => ?_
    refine Triple.ite (fun _ => ?_) fun _ => Keeps.pure trivial
    refine Triple.ite (fun _ => Keeps.throw nofun) fun _ => ?_
    exact Keeps.andThen (supported_resolveParent r write) fun _ => Keeps.pure trivial

theorem supported_resolveParent (r : Relation) : ∀ write : NestedWrite,
    Supported (resolveParent s r write)
  | ⟨[data], [], _, _, _⟩ => by
    rw [resolveParent]
    exact Keeps.andThen (supported_require r.target) fun target => supported_create target ∅ data
  | ⟨[], [selector], _, _, _⟩ => by
    rw [resolveParent]
    exact Keeps.andThen (supported_require r.target) fun _ => supported_findToConnect r selector
  | ⟨[], [], _, _, _⟩ | ⟨[], _ :: _ :: _, _, _, _⟩ | ⟨[_], _ :: _, _, _, _⟩
  | ⟨_ :: _ :: _, _, _, _, _⟩ => by
    rw [resolveParent] <;> try simp
    refine Keeps.andThen (Keeps.discard (supported_require r.target)) fun _ => ?_
    exact Keeps.throw nofun

theorem supported_createChildren (e : Entity) (parent : Row) :
    ∀ fields : List (String × FieldWrite), Supported (createChildren s e parent fields)
  | [] => by
    rw [createChildren]
    exact Keeps.pure trivial
  | (name, write) :: rest => by
    rw [createChildren]
    exact Keeps.andThen (supported_createChild e parent name write) fun _ =>
      supported_createChildren e parent rest

theorem supported_createChild (e : Entity) (parent : Row) (name : String) : ∀ write : FieldWrite,
    Supported (createChild s e parent name write)
  | .literal _ => by
    rw [createChild]
    exact Keeps.pure trivial
  | .update _ => by
    rw [createChild]
    exact Keeps.pure trivial
  | .relation write => by
    rw [createChild]
    refine Keeps.andThen (supported_relationToWrite name) fun r => ?_
    exact Triple.ite (fun _ => supported_writeChildren e r parent write) fun _ =>
      Keeps.pure trivial

theorem supported_writeChildren (e : Entity) (r : Relation) (parent : Row) :
    ∀ write : NestedWrite, Supported (writeChildren s e r parent write)
  | ⟨created, connected, _, batch, released⟩ => by
    rw [writeChildren]
    refine Keeps.andThen (supported_require r.target) fun target => ?_
    refine Triple.ite (fun _ => Keeps.throw nofun) fun _ => ?_
    have hrest : Supported (do
        createAll s target (r.childLink parent) created
        connected.forM (connect s r target parent)
        writeBatch s e r target parent batch) := by
      refine Keeps.andThen (supported_createAll target _ created) fun _ => ?_
      refine Keeps.andThen (Keeps.forM fun selector _ => supported_connect r parent selector)
        fun _ => ?_
      exact supported_writeBatch e r target parent batch
    cases released with
    | none => exact hrest
    | some released => exact Keeps.andThen (supported_disconnect r parent released) fun _ => hrest

theorem supported_createAll (e : Entity) (link : Row) : ∀ rows : List WriteData,
    Supported (createAll s e link rows)
  | [] => by
    rw [createAll]
    exact Keeps.pure trivial
  | data :: rest => by
    rw [createAll]
    exact Keeps.andThen (Keeps.discard (supported_create e link data)) fun _ =>
      supported_createAll e link rest

theorem supported_writeBatch (e : Entity) (r : Relation) (target : Entity) (parent : Row) :
    ∀ batch : Option CreateMany, Supported (writeBatch s e r target parent batch)
  | none => by
    rw [writeBatch]
    exact Keeps.pure trivial
  | some batch => by
    rw [writeBatch]
    exact supported_writeMany e r target parent batch

theorem supported_writeMany (e : Entity) (r : Relation) (target : Entity) (parent : Row) :
    ∀ batch : CreateMany, Supported (writeMany s e r target parent batch)
  | ⟨rows, skip⟩ => by
    rw [writeMany]
    refine Triple.ite (fun _ => Keeps.throw nofun) fun _ => ?_
    exact supported_createBatch target _ skip rows

theorem supported_createBatch (e : Entity) (link : Row) (skip : Bool) : ∀ rows : List WriteData,
    Supported (createBatch s e link skip rows)
  | [] => by
    rw [createBatch]
    exact Keeps.pure trivial
  | data :: rest => by
    rw [createBatch]
    refine Triple.ite (fun _ => Keeps.throw nofun) fun _ => ?_
    have hcreate := supported_skipDuplicate skip (supported_create e link data)
    exact Keeps.andThen (Keeps.discard hcreate) fun _ => supported_createBatch e link skip rest

end

/-! ### Updates -/

theorem supported_calculate (f : FieldDef) (current : Value) (op : Arithmetic) (literal : Json) :
    Yields (e.calculate f current op literal) (fun _ => True) Error.Supported := by
  have happlied (operand : Value) : Yields
      ((op.apply current operand).mapError fun fault => Error.invalidValue e.name f.name fault)
      (fun _ => True) Error.Supported := by
    cases op.apply current operand with
    | ok v => exact .ok trivial
    | error fault => exact .error nofun
  have hoperand : Yields (do
      let operand ← e.coerceItem f literal
      (op.apply current operand).mapError (.invalidValue e.name f.name))
      (fun _ => True) Error.Supported :=
    .andThen (e.raises_coerceItem f literal).supported happlied
  exact .ite (fun _ => .andThen (.error nofun) fun _ => hoperand) fun _ => hoperand

theorem supported_change (f : FieldDef) (current : Value) (op : UpdateOp) :
    Yields (e.change f current op) (fun _ => True) Error.Supported := by
  cases op with
  | set literal => exact (e.raises_coerce f literal).supported
  | unset => exact .ok trivial
  | push literal =>
    have hpushed : Yields (do
        let items ← (literal.array?.getD [literal]).mapM (e.coerceItem f)
        return Value.list (current.list?.getD [] ++ items)) (fun _ => True) Error.Supported :=
      .andThen (raises_mapM fun j _ => e.raises_coerceItem f j).supported fun _ => .pure trivial
    exact .ite (fun _ => .andThen (.error nofun) fun _ => hpushed) fun _ => hpushed
  | increment literal => exact supported_calculate f current .add literal
  | decrement literal => exact supported_calculate f current .subtract literal
  | multiply literal => exact supported_calculate f current .multiply literal
  | divide literal => exact supported_calculate f current .divide literal

theorem supported_reviseField (f : FieldDef) (v : Revision) (write : FieldWrite) :
    Yields (reviseField e f v write) (fun _ => True) Error.Supported := by
  have hvalue : Yields (newValue e f (v.row.value f.name) write) (fun _ => True)
      Error.Supported := by
    cases write with
    | literal literal => exact (e.raises_coerce f literal).supported
    | update op => exact supported_change f _ op
    | relation write => exact .error nofun
  refine .ite (fun _ => .throw nofun) fun _ => .andThen hvalue fun value => ?_
  exact .ite (fun _ => .throw nofun) fun _ => .pure trivial

theorem supported_release (r : Relation) (v : Revision) :
    Yields (release e r v) (fun _ => True) Error.Supported := by
  unfold release
  split
  · exact .error nofun
  · exact .ok trivial

theorem supported_reviseOwner (r : Relation) (v : Revision) (write : NestedWrite) :
    Supported (reviseOwner s e r v write) := by
  refine Triple.ite (fun _ => Keeps.throw nofun) fun _ => ?_
  split
  · exact Keeps.ofExcept (supported_release r v)
  · exact Keeps.throw nofun
  · refine Triple.ite (fun _ => Keeps.pure trivial) fun _ => ?_
    exact Keeps.andThen (supported_resolveParent r write) fun _ => Keeps.pure trivial

theorem supported_revise (v : Revision) (entry : String × FieldWrite) :
    Supported (revise s e v entry) := by
  obtain ⟨name, write⟩ := entry
  unfold revise
  split
  · exact Keeps.ofExcept (supported_reviseField _ v write)
  · refine Keeps.andThen (supported_requireRelation name) fun r => ?_
    cases write with
    | literal _ => exact Keeps.throw nofun
    | update _ => exact Keeps.throw nofun
    | relation write =>
      exact Triple.ite (fun _ => supported_reviseOwner r v write) fun _ => Keeps.pure trivial

theorem supported_update (data : WriteData) (row : Row) : Supported (update s e data row) := by
  refine Keeps.andThen (Keeps.foldlM (Q := fun _ => True) trivial fun v _ entry _ =>
    supported_revise v entry) fun v => ?_
  refine Keeps.andThen (supported_checkForeignKeys _ _) fun _ => ?_
  refine Keeps.andThen (Keeps.andThen (supported_touch v.row) fun _ => Keeps.pure trivial)
    fun next => ?_
  refine Keeps.andThen (Keeps.discard (supported_putRow next)) fun _ => ?_
  refine Keeps.andThen (supported_note .update _) fun _ => ?_
  exact Keeps.andThen (supported_createChildren e next data.fields) fun _ => supported_reread _

end Operation

/-! ### The requests -/

namespace Request
variable {q : Query} {data : WriteData} {r : Request Record}

/-- A request that creates one row from the data, or updates one with them. -/
inductive WritesRow (q : Query) (data : WriteData) : Request Record → Prop where
  | create (hdata : q.data = some (.one data)) : WritesRow q data (.create q)
  | update {selector : Filter} (hdata : q.data = some (.one data))
    (hselector : q.filter = some selector) : WritesRow q data (.update q)

/-- Such a request checks the data first. What it does then is never refused for want of support. -/
theorem WritesRow.exists_rest (hr : r.WritesRow q data) (s : Schema) (e : Entity) :
    ∃ rest : Operation Record, Supported rest ∧
      r.operation s e = (MonadExcept.ofExcept (checkSupported s e data) >>= fun _ => rest) := by
  cases hr with
  | create hdata =>
    refine ⟨Operation.create s e ∅ data >>= fun row => look s fun v => v.record e q row, ?_, ?_⟩
    · exact Keeps.andThen (supported_create e ∅ data) fun row =>
        supported_look fun v => View.raises_record (fun _ _ => trivial) row
    · simp only [Request.create, requireData, hdata]
      rfl
  | @update selector hdata hselector =>
    refine ⟨do
      let row ← look s fun v => do requireFound e (← v.findUnique e selector)
      let row ← Operation.update s e data row
      look s fun v => v.record e q row, ?_, ?_⟩
    · have hselected (v : View) : Raises (fun _ => True) (do
          requireFound e (← v.findUnique e selector)) :=
        .andThen (View.raises_findUnique fun _ _ => trivial) fun found =>
          .elim (.error (.notFound _)) fun _ _ => .ok trivial
      refine Keeps.andThen (supported_look hselected) fun row => ?_
      refine Keeps.andThen (supported_update data row) fun row => ?_
      exact supported_look fun v => View.raises_record (fun _ _ => trivial) row
    · simp only [Request.update, requireData, requireSelector, hdata, hselector]
      rfl

end Request

namespace Client
variable {c : Client}

/-- A request that failed tells no listener of anything. -/
theorem deliveries_of_error {α : Type} {entity : String} {r : Request α} {tx : Option Nat}
    {err : Error} (h : (c.ask entity r tx).result = .error err) :
    (c.ask entity r tx).deliveries = [] := by
  unfold ask at h ⊢
  cases hrequire : c.schema.require entity with
  | error err => rfl
  | ok e =>
    simp only [hrequire] at h ⊢
    cases tx with
    | some id =>
      have hruns := c.runsIn id (r.operation c.schema e)
      simp only at h ⊢
      generalize c.runIn id (r.operation c.schema e) = o at hruns h ⊢
      cases hruns with
      | missing => rfl
      | failed => rfl
      | done => cases h
    | none =>
      simp only at h ⊢
      generalize (if r.access.writes then TransactionMode.readWrite else .readOnly) = mode at h ⊢
      have hruns := c.runsAlone (c.schema.neededTables e r.query r.access) mode
        (r.operation c.schema e)
      generalize c.runAlone _ mode (r.operation c.schema e) = o at hruns h ⊢
      cases hruns with
      | refused => rfl
      | missing => rfl
      | failed => rfl
      | uncommitted => rfl
      | done => cases h

/-- Where something is to be connected or created, anywhere in the data that the check comes to,
the operation fails for that, whatever it works on and with nothing done; so does the request,
unless its transaction cannot be begun, and no listener hears of anything. Where nothing is,
neither ever fails because something is not supported. -/
theorem ask_unsupported {entity : String} {e : Entity} (he : c.schema.entity? entity = some e)
    {q : Query} {data : WriteData} {r : Request Record} (hr : r.WritesRow q data)
    (tx : Option Nat) :
    let outcome := c.ask entity r tx
    ((∃ n m, c.schema.ConnectsOrCreates e data n m) → ∃ n m,
      c.schema.ConnectsOrCreates e data n m ∧
        (∀ w, (r.operation c.schema e).run w =
          .error (.unsupportedOperation "connectOrCreate" n m) w) ∧
        (outcome.result = .error (.unsupportedOperation "connectOrCreate" n m) ∨
          ∃ err, err.OfStore ∧ outcome.result = .error err) ∧
        outcome.deliveries = []) ∧
    ((∀ n m, ¬ c.schema.ConnectsOrCreates e data n m) → ∀ operation n m,
      (∀ w w', (r.operation c.schema e).run w ≠
        .error (.unsupportedOperation operation n m) w') ∧
      outcome.result ≠ .error (.unsupportedOperation operation n m)) := by
  intro outcome
  obtain ⟨rest, hrest, hoperation⟩ := hr.exists_rest c.schema e
  have hcheck := refuses_checkSupported c.schema e data
  refine ⟨fun ⟨n, m, hasks⟩ => ?_, fun hnone operation n m => ?_⟩
  · obtain ⟨n, m, hasks, hrefused⟩ := hcheck.error_of hasks
    have hrun (w : Work) : (r.operation c.schema e).run w =
        .error (.unsupportedOperation "connectOrCreate" n m) w := by
      rw [hoperation, hrefused]
      rfl
    have hfails : Yields outcome.result (fun _ => False) fun err =>
        err = .unsupportedOperation "connectOrCreate" n m ∨ err.OfStore :=
      yields_ask_entity (fun _ herr => .inr herr) he (fun t w _ => by
        rw [hrun w]
        exact .inl rfl) tx
    cases hresult : outcome.result with
    | ok record =>
      rw [hresult] at hfails
      exact False.elim hfails
    | error err =>
      rw [hresult] at hfails
      refine ⟨n, m, hasks, hrun, ?_, deliveries_of_error hresult⟩
      exact hfails.imp (congrArg Except.error) fun hstore => ⟨err, hstore, rfl⟩
  · have hsupported : Supported (r.operation c.schema e) := by
      rw [hoperation, hcheck.ok_of hnone]
      exact Keeps.andThen (Keeps.pure trivial) fun _ => hrest
    refine ⟨fun w w' hrun => ?_, fun hresult => ?_⟩
    · have hfailed := hsupported w trivial
      rw [hrun] at hfailed
      exact hfailed.2 operation n m rfl
    · have hfailed := yields_ask_entity (E := Error.Supported)
        (fun err herr => by cases herr <;> exact nofun) he (fun t => Triple.mono hsupported
          (fun _ _ => trivial) (fun _ _ _ => trivial) fun _ _ h => h.2) tx
      rw [hresult] at hfailed
      exact hfailed operation n m rfl

/-- An author of a color, with a book by another author, who is to be connected or created. Neither
authors nor books have colors. -/
def borrowed : WriteData :=
  ⟨[("color", .literal (.string "red")), ("books", .relation { create := [⟨[
    ("color", .literal (.string "red")),
    ("author", .relation { connectOrCreate := [.object []] })]⟩] })]⟩

/-- The author two levels down is what the request fails for, not the colors. Without that author it
fails for the colors. -/
theorem ask_unsupported_shelf : ∃ (c : Client) (e t : Entity),
    Schema.ofDefs EntityDef.shelf = .ok c.schema ∧ c.Opened c.schema ∧
      c.schema.entity? "author" = some e ∧
      c.schema.ConnectsOrCreates e borrowed t.name "author" ∧
      (∃ n m, (c.ask "author" (.create { data := some (.one borrowed) }) none).result =
        .error (.unsupportedOperation "connectOrCreate" n m)) ∧
      (c.ask "author" (.create (.ofFields [("color", .string "red")])) none).result.isOk = false ∧
      ∀ operation n m,
        (c.ask "author" (.create (.ofFields [("color", .string "red")])) none).result ≠
          .error (.unsupportedOperation operation n m) := by
  have hruns : (openMemory EntityDef.shelf).toOption.any fun c =>
      (∃ err ∈ fault? (c.ask "author" (.create { data := some (.one borrowed) }) none).result,
        err.suggestion?.isSome) ∧
      (c.ask "author" (.create (.ofFields [("color", .string "red")])) none).result.isOk = false ∧
      (c.schema.entity? "author").any fun e => (c.schema.target? e "books").isSome := by
    decide +kernel
  obtain ⟨c, hs, hopened, -, hrefused, hother, htarget⟩ := exists_openMemory hruns
  obtain ⟨e, he, htarget⟩ := (Option.any_eq_true _ _).1 htarget
  obtain ⟨t, ht⟩ := Option.isSome_iff_exists.1 htarget
  have hasks : c.schema.ConnectsOrCreates e borrowed t.name "author" :=
    .created (List.mem_cons_of_mem _ List.mem_cons_self) ht List.mem_cons_self
      (.here (List.mem_cons_of_mem _ List.mem_cons_self) (by simp))
  refine ⟨c, e, t, hs, hopened, he, hasks, ?_, hother, fun operation n m => ?_⟩
  · have hrefuses := ask_unsupported he (.create (q := { data := some (.one borrowed) }) rfl) none
    obtain ⟨n, m, -, -, hresult, -⟩ := hrefuses.1 ⟨_, _, hasks⟩
    obtain hresult | ⟨err, hstore, hresult⟩ := hresult
    · exact ⟨n, m, hresult⟩
    · -- An error of the store has no advice to give.
      obtain ⟨err', herr, hadvice⟩ := hrefused
      cases (fault?_eq_some.1 herr).symm.trans hresult
      cases hstore <;> cases hadvice
  · refine ((ask_unsupported he (.create rfl) none).2 (fun n m hasks => ?_) operation n m).2
    exact Schema.not_connectsOrCreates_nil (hasks.mono fun _ _ hmem => by simp at hmem)

end Client

end RelationalStore

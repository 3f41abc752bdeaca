import RelationalStore.Proofs.RegroupedCreations

/- A row that is created from data of its own fields. Before anything is stored the row is drafted:
   the literals are coerced, the foreign keys are looked up, and each field that is left is filled.
   The draft touches nothing but the supply, so data that no row can be made of (`Entity.Refuses`)
   fail with the tables as they were, and a draft that succeeds holds in each field what the one
   rule for that field says (`Entity.Starts`, one constructor for each combination of what was
   written and what the field is declared to be). What is stored is the draft, as one entry among
   those of the table. -/
namespace RelationalStore
open SortedMap Read Operation

/-! ### What a new row holds -/

/-- The last write under a name, which is the one that counts. -/
def WriteData.last? (data : WriteData) (name : String) : Option FieldWrite :=
  (data.fields.reverse.find? (·.1 == name)).map (·.2)

/-- The supply after one look at the clock, with tokens drawn since. -/
def Supply.Draws (supply next : Supply) : Prop :=
  ∃ more, next = { supply.now.2 with serial := supply.serial + more }

/-- The token is one that is drawn after a look at the clock. -/
def Supply.Offers (supply : Supply) (token : Nat) : Prop :=
  ∃ next, supply.Draws next ∧ token = next.token.1

namespace Entity
variable {e : Entity} {T : Tables} {supply : Supply} {f : FieldDef}

/-- The number that an incremented field has reached in a table: that of the last key where the field
is the whole primary key, and the greatest otherwise. -/
def lastNumber (e : Entity) (f : FieldDef) (t : Table) : Int :=
  let last? :=
    if e.idFields = [f.name] then t.lastKey?.bind fun key => key.parts.head?.bind Value.int?
    else (t.toList.filterMap fun row => (row.value f.name).int?).max?
  last?.getD 0

/-- What a default gives a field of a row that is created over the tables. -/
def Generates (e : Entity) (T : Tables) (supply : Supply) (f : FieldDef) :
    DefaultValue → Value → Prop
  | .literal literal, v => e.coerce f literal = .ok v
  | .now, v => v = .datetime supply.now.1
  | .uuid, v => ∃ token, supply.Offers token ∧ v = .string (Supply.uuidText token)
  | .cuid, v => ∃ token, supply.Offers token ∧ v = .string (Supply.cuidText token)
  | .autoIncrement, v => ∃ t, T.get? e.name = some t ∧ v = .int (e.lastNumber f t + 1)

/-- What a field of a new row starts with, given what was written to it. -/
inductive Starts (e : Entity) (T : Tables) (supply : Supply) (f : FieldDef) :
    Option Value → Value → Prop
  | given {v : Value} (hv : v.isNull = false) : Starts e T supply f (some v) v
  | cleared (hfree : (f.required || f.id) = false) (hstamp : f.updatedAt = false) :
      Starts e T supply f (some .null) .null
  | clearedStamp (hfree : (f.required || f.id) = false) (hstamp : f.updatedAt = true) :
      Starts e T supply f (some .null) (.datetime supply.now.1)
  | stamp (hstamp : f.updatedAt = true) : Starts e T supply f none (.datetime supply.now.1)
  | default {d : DefaultValue} {v : Value} (hstamp : f.updatedAt = false)
      (hd : f.default = some d) (hv : e.Generates T supply f d v) : Starts e T supply f none v
  | noItems (hstamp : f.updatedAt = false) (hd : f.default = none) (hlist : f.list = true) :
      Starts e T supply f none (.list [])
  | absent (hstamp : f.updatedAt = false) (hd : f.default = none) (hlist : f.list = false)
      (hfree : (f.required || f.id) = false) : Starts e T supply f none .null

/-- What the data write to a field, as a value of it. -/
def given? (e : Entity) (data : WriteData) (f : FieldDef) : Option Value := do
  let write ← data.last? f.name
  let literal ← write.newLiteral?
  (e.coerce f literal).toOption

/-- The entry of the data is a literal for a field, which can be read as a value of its kind. -/
def Takes (e : Entity) (entry : String × FieldWrite) : Prop :=
  ∃ f literal v, e.field? entry.1 = some f ∧ entry.2.newLiteral? = some literal ∧
    e.coerce f literal = .ok v

/-- The row is what the data describe, over the tables and at the time of the supply. -/
structure Drafts (e : Entity) (T : Tables) (supply : Supply) (data : WriteData) (row : Row) :
    Prop where
  fields : row.keys = (SortedSet.ofList (e.fields.map (·.name))).keys
  takes : ∀ entry ∈ data.fields, e.Takes entry
  starts : ∀ f ∈ e.fields, e.Starts T supply f (e.given? data f) (row.value f.name)

/-- No row can be made of the data. -/
inductive Refuses (e : Entity) (data : WriteData) : Prop
  | unknown {name : String} {write : FieldWrite} (hwrite : (name, write) ∈ data.fields)
      (hname : e.field? name = none)
  | operator {name : String} {op : UpdateOp} (hwrite : (name, .update op) ∈ data.fields)
      (hop : ∀ literal, op ≠ .set literal)
  | uncoercible {name : String} {write : FieldWrite} {f : FieldDef} {literal : Json} {err : Error}
      (hwrite : (name, write) ∈ data.fields) (hf : e.field? name = some f)
      (hliteral : write.newLiteral? = some literal) (herr : e.coerce f literal = .error err)
  | nulled {f : FieldDef} {write : FieldWrite} {literal : Json} (hf : f ∈ e.fields)
      (hwrite : data.last? f.name = some write) (hliteral : write.newLiteral? = some literal)
      (hnull : literal.isNull = true) (hneeded : f.required = true ∨ f.id = true)
  | missing {f : FieldDef} (hf : f ∈ e.fields) (hwrite : data.last? f.name = none)
      (hneeded : f.required = true ∨ f.id = true) (hlist : f.list = false)
      (hstamp : f.updatedAt = false) (hd : f.default = none)

section Given
variable {data : WriteData} {row : Row}

/-- What no row can be made of has no draft. -/
theorem Drafts.not_refuses (h : e.Drafts T supply data row) : ¬ e.Refuses data := by
  intro hrefuses
  cases hrefuses with
  | unknown hwrite hname =>
    obtain ⟨f, -, -, hf, -⟩ := h.takes _ hwrite
    rw [hname] at hf
    cases hf
  | @operator _ op hwrite hop =>
    obtain ⟨-, literal, -, -, hliteral, -⟩ := h.takes _ hwrite
    cases op with
    | set literal => exact hop literal rfl
    | _ => cases hliteral
  | uncoercible hwrite hf hliteral herr =>
    obtain ⟨g, literal, v, hg, hliteral', hv⟩ := h.takes _ hwrite
    rw [hf] at hg
    cases hg
    rw [hliteral] at hliteral'
    cases hliteral'
    rw [herr] at hv
    cases hv
  | @nulled f write literal hf hwrite hliteral hnull hneeded =>
    have hstarts := h.starts f hf
    obtain rfl : literal = .null := by
      cases literal <;> simp [Json.isNull] at hnull ⊢
    have hgiven : e.given? data f = some .null := by
      simp [given?, hwrite, hliteral, coerce_null, Except.toOption]
    have hbound := Bool.or_eq_true_iff.2 hneeded
    rw [hgiven] at hstarts
    generalize row.value f.name = v at hstarts
    cases hstarts with
    | given hpresent => cases hpresent
    | cleared hfree => simp [hbound] at hfree
    | clearedStamp hfree => simp [hbound] at hfree
  | @missing f hf hwrite hneeded hlist hstamp hd =>
    have hstarts := h.starts f hf
    have hgiven : e.given? data f = none := by simp [given?, hwrite]
    have hbound := Bool.or_eq_true_iff.2 hneeded
    rw [hgiven] at hstarts
    generalize row.value f.name = v at hstarts
    cases hstarts with
    | stamp h => simp [hstamp] at h
    | default _ h => simp [hd] at h
    | noItems _ _ h => simp [hlist] at h
    | absent _ _ _ hfree => simp [hbound] at hfree

end Given

end Entity

theorem WriteData.last?_cons (entry : String × FieldWrite) (rest : List (String × FieldWrite))
    (name : String) : WriteData.last? ⟨entry :: rest⟩ name =
      (WriteData.last? ⟨rest⟩ name).or (if entry.1 = name then some entry.2 else none) := by
  rw [last?, last?, List.reverse_cons, List.find?_append]
  cases rest.reverse.find? (·.1 == name) with
  | some found => rfl
  | none => by_cases hname : entry.1 = name <;> simp [hname]

theorem WriteData.mem_of_last? {data : WriteData} {name : String} {write : FieldWrite}
    (h : data.last? name = some write) : (name, write) ∈ data.fields := by
  obtain ⟨entry, hfound, rfl⟩ := Option.map_eq_some_iff.1 h
  have hname : entry.1 = name := by simpa using List.find?_some hfound
  rw [← hname]
  exact List.mem_reverse.1 (List.mem_of_find?_eq_some hfound)

theorem Entity.given?_cons (e : Entity) {name : String} {write : FieldWrite}
    {rest : List (String × FieldWrite)} (htakes : ∀ entry ∈ rest, e.Takes entry) {f : FieldDef}
    (hf : e.field? f.name = some f) :
    e.given? ⟨(name, write) :: rest⟩ f = (e.given? ⟨rest⟩ f).or
      (if name = f.name then write.newLiteral?.bind fun literal => (e.coerce f literal).toOption
        else none) := by
  rw [given?, given?, WriteData.last?_cons]
  cases hlast : WriteData.last? ⟨rest⟩ f.name with
  | none => by_cases hname : name = f.name <;> simp [hname]
  | some later =>
    -- A later write under the name hides this one, since it has a value.
    obtain ⟨g, literal, v, hg, hliteral, hv⟩ := htakes _ (WriteData.mem_of_last? hlast)
    rw [hf] at hg
    cases hg
    simp [hliteral, hv, Except.toOption]

/-! ### Drafts -/

/-- Nothing has changed but the supply. -/
def Work.Since (w₀ w : Work) : Prop := ∃ supply, w = { w₀ with supply }

/-- Nothing has changed but that the clock was looked at and tokens were drawn. -/
def Work.Drawn (w₀ w : Work) : Prop := ∃ supply, w₀.supply.Draws supply ∧ w = { w₀ with supply }

theorem Work.Drawn.since {w₀ w : Work} (h : w₀.Drawn w) : w₀.Since w := by
  obtain ⟨supply, -, rfl⟩ := h
  exact ⟨supply, rfl⟩

namespace Operation
variable {s : Schema} {e : Entity} {data : WriteData} {I : Work → Prop} {w₀ : Work}

/-- The row that is stored for data of its own fields. -/
def draft (s : Schema) (e : Entity) (data : WriteData) : Operation Row := do
  let row ← createFields s e ∅ data.fields
  checkForeignKeys s e row (data.fields.map (·.1) |>.filter fun name => (e.field? name).isSome)
  fillDefaults s e row

/-- A creation with no relation written to stores a draft. -/
theorem create_of_plain (hplain : data.writesRelations = false) :
    create s e ∅ data =
      (draft s e data >>= fun row => addRow e row >>= fun key => reread s e key) := by
  obtain ⟨fields⟩ := data
  have hkeys : (∅ : Row).keys = [] := rfl
  have hlink (row : Row) : row.insertAll ∅ = row := rfl
  simp only [create, draft, hkeys, hlink, List.append_nil, bind_assoc,
    createChildren_of_plain _ hplain, pure_bind]

/-! None of the errors of a draft is that a unique constraint is violated. -/

end Operation

theorem View.table_other (v : View) (e : Entity) :
    Yields (v.table e) (fun t => v.tables.get? e.name = some t) Error.Other := by
  unfold View.table Transaction.table
  refine .ite (fun _ => .error nofun) fun _ => .ite (fun _ => ?_) fun _ => .error nofun
  exact .elim (.error nofun) fun t ht => .ok ht

theorem View.rowsWhere_other (v : View) (e : Entity) (fields : List String) (key : Key) :
    Yields (v.rowsWhere e fields key) (fun _ => True) Error.Other := by
  refine .bind (v.table_other e) fun t _ => .ite (fun _ => .pure trivial) fun _ => ?_
  split
  · unfold Table.lookup
    split
    · exact .ok trivial
    · exact .error nofun
  · exact .pure trivial

theorem Entity.coerceItem_other (e : Entity) (f : FieldDef) (literal : Json) :
    Yields (e.coerceItem f literal) (fun _ => True) Error.Other := by
  unfold coerceItem
  cases f.kind.coerce literal with
  | error cause => exact .error nofun
  | ok v => exact .ok trivial

theorem Entity.coerce_other (e : Entity) (f : FieldDef) (literal : Json) :
    Yields (e.coerce f literal) (fun v => e.coerce f literal = .ok v) Error.Other := by
  have h : Yields (e.coerce f literal) (fun _ => True) Error.Other := by
    refine .ite (fun _ => e.coerceItem_other f literal) fun _ => ?_
    split
    · exact .error nofun
    · exact .bind (.mapM fun item _ => e.coerceItem_other f item) fun _ _ => .pure trivial
  exact .of_ok (fun _ hv => hv) fun err herr => by rwa [herr] at h

namespace Operation

theorem keeps_requireRelation (I : Work → Prop) (e : Entity) (name : String) :
    Keeps I (MonadExcept.ofExcept (e.requireRelation name)) (fun _ => True) Error.Other :=
  Keeps.ofExcept (.elim (.error nofun) fun _ _ => .ok trivial)

/-- What is written under a name is put there, as a value of the field of that name. -/
theorem keeps_writeLiteral (I : Work → Prop) (e : Entity) (row : Row) (name : String)
    (literal : Json) :
    Keeps I (writeLiteral e row name literal) (fun row' => ∃ f v, e.field? name = some f ∧
      e.coerce f literal = .ok v ∧ row' = row.insert name v) Error.Other := by
  unfold writeLiteral
  split
  · next f hf =>
    exact Keeps.bind (Keeps.ofExcept (e.coerce_other f literal)) fun v hv =>
      Keeps.pure ⟨f, v, hf, hv, rfl⟩
  · exact Keeps.andThen (Keeps.discard (keeps_requireRelation I e name)) fun _ =>
      Keeps.throw nofun

/-- One write of a draft. -/
theorem keeps_createField (I : Work → Prop) (s : Schema) (e : Entity) (row : Row) (name : String)
    {write : FieldWrite} (hplain : ∀ nested, write ≠ .relation nested) :
    Keeps I (createField s e row name write) (fun row' => ∃ f literal v, e.field? name = some f ∧
      write.newLiteral? = some literal ∧ e.coerce f literal = .ok v ∧
        row' = row.insert name v) Error.Other := by
  have hliteral (literal : Json) (hwrite : write.newLiteral? = some literal) :
      Keeps I (writeLiteral e row name literal) (fun row' => ∃ f literal v,
        e.field? name = some f ∧ write.newLiteral? = some literal ∧
          e.coerce f literal = .ok v ∧ row' = row.insert name v) Error.Other := by
    refine (keeps_writeLiteral I e row name literal).mono (fun row' hrow' => ?_) fun _ h => h
    obtain ⟨f, v, hf, hv, rfl⟩ := hrow'
    exact ⟨f, literal, v, hf, hwrite, hv, rfl⟩
  cases write with
  | literal literal =>
    rw [createField]
    exact hliteral literal rfl
  | update op =>
    rw [createField]
    unfold writeUpdate
    split
    · exact hliteral _ rfl
    · exact Keeps.throw nofun
    · exact Keeps.andThen (Keeps.discard (keeps_requireRelation I e name)) fun _ =>
        Keeps.throw nofun
  | relation nested => exact absurd rfl (hplain nested)

/-- The writes of a draft, of which the last one under a name counts. -/
theorem keeps_createFields (I : Work → Prop) (s : Schema) (e : Entity)
    {fields : List (String × FieldWrite)}
    (hplain : WriteData.writesRelations ⟨fields⟩ = false) (row : Row) :
    Keeps I (createFields s e row fields) (fun row' => (∀ entry ∈ fields, e.Takes entry) ∧
      ∀ f, e.field? f.name = some f →
        row'.get? f.name = (e.given? ⟨fields⟩ f).or (row.get? f.name)) Error.Other := by
  induction fields generalizing row with
  | nil =>
    rw [createFields]
    exact Keeps.pure ⟨by simp, fun f _ => rfl⟩
  | cons entry rest ih =>
    obtain ⟨name, write⟩ := entry
    rw [WriteData.writesRelations, List.any_cons, Bool.or_eq_false_iff] at hplain
    have hwrite : ∀ nested, write ≠ .relation nested := by
      rintro nested rfl
      cases hplain.1
    rw [createFields]
    refine Keeps.bind (keeps_createField I s e row name hwrite) fun row₁ hrow₁ => ?_
    obtain ⟨g, literal, v, hg, hliteral, hv, rfl⟩ := hrow₁
    refine (ih hplain.2 (row.insert name v)).mono (fun row' hrow' => ?_) fun _ h => h
    obtain ⟨htakes, hvalues⟩ := hrow'
    refine ⟨List.forall_mem_cons.2 ⟨⟨g, literal, v, hg, hliteral, hv⟩, htakes⟩,
      fun f hf => ?_⟩
    rw [hvalues f hf, e.given?_cons htakes hf, get?_insert_eq]
    split
    · next hname =>
      rw [← hname, hg] at hf
      cases hf
      cases e.given? ⟨rest⟩ g <;> simp [hliteral, hv, Except.toOption]
    · simp

theorem keeps_checkForeignKeys (I : Work → Prop) (s : Schema) (e : Entity) (row : Row)
    (written : List String) :
    Keeps I (checkForeignKeys s e row written) (fun _ => True) Error.Other := by
  refine Keeps.forM fun r _ => Triple.ite (fun _ => ?_) fun _ => Keeps.pure trivial
  refine Keeps.andThen (Keeps.ofExcept (.elim (.error nofun) fun _ _ => .ok trivial)) fun target => ?_
  refine Keeps.andThen (Keeps.look fun _ _ => View.rowsWhere_other _ target _ _) fun rows => ?_
  exact Triple.ite (fun _ => Keeps.throw nofun) fun _ => Keeps.pure trivial

/-! Filling the row, with the time at which it began. -/

section Filling
variable (w₀ : Work) (s : Schema) (e : Entity) (f : FieldDef)

theorem drawn_token : Keeps w₀.Drawn token w₀.supply.Offers Error.Other := by
  refine Triple.get fun w hw => ?_
  obtain ⟨_, ⟨more, rfl⟩, rfl⟩ := hw
  exact fun _ _ => ⟨⟨_, ⟨more + 1, rfl⟩, rfl⟩, _, ⟨more, rfl⟩, rfl⟩

theorem keeps_requireKind (I : Work → Prop) (kind : ScalarKind) (call : String) :
    Keeps I (requireKind e f kind call) (fun _ => True) Error.Other :=
  Triple.ite (fun _ => Keeps.throw nofun) fun _ => Keeps.pure trivial

theorem drawn_nextIncrement : Keeps w₀.Drawn (nextIncrement s e f)
    (e.Generates w₀.tables w₀.supply f .autoIncrement) Error.Other := by
  refine Keeps.bind (R := fun t => w₀.tables.get? e.name = some t) (Keeps.look fun w hw => ?_)
    fun t ht => ?_
  · obtain ⟨_, -, rfl⟩ := hw
    exact View.table_other _ e
  · exact Triple.ite (fun _ => Keeps.pure ⟨t, ht, rfl⟩) fun _ => Keeps.throw nofun

theorem drawn_generate (d : DefaultValue) :
    Keeps w₀.Drawn (generate s e f w₀.supply.now.1 d) (e.Generates w₀.tables w₀.supply f d)
      Error.Other := by
  cases d with
  | autoIncrement => exact drawn_nextIncrement w₀ s e f
  | uuid =>
    refine Keeps.andThen (keeps_requireKind e f _ _ _) fun _ => ?_
    exact Keeps.bind (drawn_token w₀) fun n hn => Keeps.pure ⟨n, hn, rfl⟩
  | cuid =>
    refine Keeps.andThen (keeps_requireKind e f _ _ _) fun _ => ?_
    exact Keeps.bind (drawn_token w₀) fun n hn => Keeps.pure ⟨n, hn, rfl⟩
  | now => exact Keeps.andThen (keeps_requireKind e f _ _ _) fun _ => Keeps.pure rfl
  | literal literal => exact Keeps.ofExcept (e.coerce_other f literal)

theorem drawn_complete (written : Option Value) :
    Keeps w₀.Drawn (complete s e f w₀.supply.now.1 written)
      (e.Starts w₀.tables w₀.supply f written) Error.Other := by
  have hmissing : (Error.missingRequiredField e.name f.name).Other := by
    intro _ _ h
    cases h
  cases written with
  | some v =>
    refine Triple.ite (fun hpresent => Keeps.pure (.given (by simpa using hpresent)))
      fun hnull => ?_
    obtain rfl : v = .null := by cases v <;> simp [Value.isNull] at hnull ⊢
    refine Triple.ite (fun _ => Keeps.throw hmissing) fun hfree => ?_
    rw [Bool.not_eq_true] at hfree
    refine Triple.ite (fun hstamp => Keeps.pure (.clearedStamp hfree hstamp)) fun hstamp => ?_
    exact Keeps.pure (.cleared hfree (by simpa using hstamp))
  | none =>
    refine Triple.ite (fun hstamp => Keeps.pure (.stamp hstamp)) fun hstamp => ?_
    rw [Bool.not_eq_true] at hstamp
    split
    · next d hd =>
      exact (drawn_generate w₀ s e f d).mono (fun v hv => .default hstamp hd hv) fun _ h => h
    · next hd =>
      refine Triple.ite (fun hlist => Keeps.pure (.noItems hstamp hd hlist)) fun hlist => ?_
      refine Triple.ite (fun _ => Keeps.throw hmissing) fun hfree => Keeps.pure ?_
      exact .absent hstamp hd (by simpa using hlist) (by simpa using hfree)

end Filling

/-- Every field is filled at the same time, over the same tables. -/
theorem fillDefaults_starts {s : Schema} {e : Entity} (hs : s.Resolved)
    (he : s.entity? e.name = some e) (w₀ : Work) (written : Row) :
    Triple (· = w₀) (fillDefaults s e written)
      (fun row w => w₀.Drawn w ∧ row.keys = (SortedSet.ofList (e.fields.map (·.name))).keys ∧
        ∀ f ∈ e.fields,
          e.Starts w₀.tables w₀.supply f (written.get? f.name) (row.value f.name))
      fun err w => w₀.Drawn w ∧ err.Other := by
  have hfields : Keeps w₀.Drawn (e.fields.mapM fun f => do
      return (f.name, ← complete s e f w₀.supply.now.1 (written.get? f.name)))
      (List.Forall₂ (fun f p => p.1 = f.name ∧
        e.Starts w₀.tables w₀.supply f (written.get? f.name) p.2) e.fields) Error.Other :=
    Keeps.mapM_each fun f _ =>
      Keeps.bind (drawn_complete w₀ s e f _) fun v hv => Keeps.pure ⟨rfl, hv⟩
  refine Triple.bind (R := fun time w => time = w₀.supply.now.1 ∧ w₀.Drawn w)
    (Triple.get fun w hw => ?_) fun time => ?_
  · subst hw
    exact fun _ _ => ⟨rfl, _, ⟨0, rfl⟩, rfl⟩
  · intro w hw
    obtain ⟨rfl, hw⟩ := hw
    refine Triple.bind hfields (fun values => ?_) w hw
    split
    · exact Triple.throw fun _ h => ⟨h.1, nofun⟩
    · refine Triple.pure fun w h => ⟨h.1, ?_, Entity.value_ofList (hs.field he) h.2⟩
      rw [keys_ofList, Schema.map_eq_of_forall₂ (h.2.imp fun _ _ h => h.1)]

/-- A draft is what the data describe, and nothing but the supply has changed. -/
theorem draft_drafts {s : Schema} {e : Entity} (hs : s.Resolved) (he : s.entity? e.name = some e)
    {data : WriteData} (hplain : data.writesRelations = false) (w₀ : Work) :
    Triple (· = w₀) (draft s e data)
      (fun row w => w₀.Drawn w ∧ e.Drafts w₀.tables w₀.supply data row)
      fun err w => w₀.Since w ∧ err.Other := by
  have hsame {P : Prop} {w : Work} (h : w = w₀ ∧ P) : w₀.Since w ∧ P := ⟨⟨_, h.1⟩, h.2⟩
  refine Triple.bind (Triple.mono (keeps_createFields (· = w₀) s e hplain ∅) (fun _ h => h)
    (fun _ _ h => h) fun _ _ => hsame) fun row => Triple.of_eq fun w hw => ?_
  obtain ⟨rfl, htakes, hvalues⟩ := hw
  refine Triple.bind (Triple.mono (keeps_checkForeignKeys (· = w) s e row _) (fun _ h => h)
    (fun _ _ h => h) fun _ _ => hsame) fun _ => ?_
  refine Triple.mono (fillDefaults_starts hs he w row) (fun _ h => h.1) (fun filled w' h => ?_)
    fun _ _ h => ⟨h.1.since, h.2⟩
  obtain ⟨hdrawn, hfields, hstarts⟩ := h
  refine ⟨hdrawn, hfields, htakes, fun f hf => ?_⟩
  have hgiven := hstarts f hf
  rwa [hvalues f (hs.field he f hf), get?_empty, Option.or_none] at hgiven

end Operation

end RelationalStore

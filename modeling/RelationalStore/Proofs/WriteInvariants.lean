import RelationalStore.Proofs.StoredRows

/- What survives every write of the engine. An invariant of the tables and the transaction over them
   is given (`J`), and what the values of stored rows obey (`V`). If adding, putting and deleting
   rows that obey `V` keeps `J` (`Schema.Upholds`), and the ways in which values come about lead
   from values with `V` to such values (`Schema.Admits`), then each operation keeps `J`, whether it
   fails or not and wherever it fails, and each row that it writes obeys `V`. -/
namespace RelationalStore
open SortedMap Read

/-! ### Rows of values that obey something -/

namespace Row
variable {V : String → String → Value → Prop} {n : String} {row link : Row}

/-- Every value of the row may stand in its column of the table. -/
def Obeys (V : String → String → Value → Prop) (n : String) (row : Row) : Prop :=
  ∀ c, V n c (row.value c)

/-- Every value that the row lists may stand in its column, also one that another one hides. -/
def Lists (V : String → String → Value → Prop) (n : String) (row : Row) : Prop :=
  ∀ p ∈ row.entries, V n p.1 p.2

theorem Obeys.insert (h : row.Obeys V n) {c : String} {v : Value} (hv : V n c v) :
    Row.Obeys V n (row.insert c v) := by
  intro d
  rw [Row.value, get?_insert_eq]
  split
  · next hd =>
    subst hd
    exact hv
  · exact h d

theorem Obeys.empty (hnull : ∀ n c, V n c .null) : Row.Obeys V n ∅ := fun c => hnull n c

theorem Lists.empty : Row.Lists V n ∅ := by
  intro p hp
  cases hp

theorem Obeys.foldl {α : Type} {items : List α} {f : Row → α → Row} (h : row.Obeys V n)
    (hf : ∀ row : Row, row.Obeys V n → ∀ a ∈ items, (f row a).Obeys V n) :
    (items.foldl f row).Obeys V n := by
  induction items generalizing row with
  | nil => exact h
  | cons a rest ih =>
    refine ih (hf row h a List.mem_cons_self) fun row hrow b hb => ?_
    exact hf row hrow b (List.mem_cons_of_mem a hb)

theorem Obeys.insertAll (h : row.Obeys V n) (hlink : link.Lists V n) :
    Row.Obeys V n (row.insertAll link) :=
  h.foldl fun _ hrow p hp => hrow.insert (hlink p hp)

theorem Obeys.ofList (hnull : ∀ n c, V n c .null) {pairs : List (String × Value)}
    (h : ∀ p ∈ pairs, V n p.1 p.2) : Row.Obeys V n (.ofList pairs) := by
  intro c
  rw [Row.value]
  cases hc : (SortedMap.ofList pairs).get? c with
  | none => exact hnull n c
  | some v => exact h (c, v) (mem_of_get?_ofList hc)

theorem Lists.ofList {pairs : List (String × Value)} (h : ∀ p ∈ pairs, V n p.1 p.2) :
    Row.Lists V n (.ofList pairs) := by
  intro p hp
  exact h p (mem_of_get?_ofList ((ordered_ofList pairs).get?_eq_some_iff.2 hp))

end Row

/-! ### What is to be shown -/

/-- The values that a row takes in when it is created obey `V`, those aside that it takes over from
other rows. -/
structure Schema.Supplies (s : Schema) (V : String → String → Value → Prop) : Prop where
  null : ∀ n c, V n c .null
  coerce : ∀ {e}, s.entity? e.name = some e → ∀ f ∈ e.fields, ∀ {literal v},
    e.coerce f literal = .ok v → V e.name f.name v
  stamp : ∀ {e}, s.entity? e.name = some e → ∀ f ∈ e.fields, f.updatedAt = true →
    ∀ t, V e.name f.name (.datetime t)
  time : ∀ {e}, s.entity? e.name = some e → ∀ f ∈ e.fields, f.kind = .datetime → f.list = false →
    ∀ t, V e.name f.name (.datetime t)
  text : ∀ {e}, s.entity? e.name = some e → ∀ f ∈ e.fields, f.kind = .string → f.list = false →
    ∀ text, V e.name f.name (.string text)
  increment : ∀ {e}, s.entity? e.name = some e → ∀ f ∈ e.fields,
    f.default = some .autoIncrement → ∀ n, V e.name f.name (.int n)
  noItems : ∀ {e}, s.entity? e.name = some e → ∀ f ∈ e.fields, f.list = true →
    V e.name f.name (.list [])

/-- The ways in which values come into rows lead to values that obey `V`. -/
structure Schema.Admits (s : Schema) (V : String → String → Value → Prop) : Prop
    extends s.Supplies V where
  change : ∀ {e}, s.entity? e.name = some e → ∀ f ∈ e.fields, ∀ {current op v},
    V e.name f.name current → e.change f current op = .ok v → V e.name f.name v
  link : ∀ {e}, s.entity? e.name = some e → ∀ r ∈ e.owningRelations, ∀ p ∈ r.near.zip r.far,
    ∀ {v}, V r.target p.2 v → V e.name p.1 v

/-- What is said of the work does not depend on what is left of the supply. -/
def Work.Supplied (I : Work → Prop) : Prop := ∀ w supply, I w → I { w with supply }

/-- Under `I`, which is not about the supply, all rows obey `V`. -/
structure Schema.Sees (s : Schema) (V : String → String → Value → Prop) (I : Work → Prop) :
    Prop where
  stored : ∀ {w}, I w → View.Gives ⟨s, w.tables, w.transaction⟩ fun n row => row.Obeys V n
  supplied : Work.Supplied I

/-- Writing rows that obey `V` keeps `J`, under which all rows obey `V`. -/
structure Schema.Upholds (s : Schema) (V : String → String → Value → Prop)
    (J : Tables → Transaction → Prop) : Prop where
  stored : ∀ {tables tx}, J tables tx → View.Gives ⟨s, tables, tx⟩ fun n row => row.Obeys V n
  add : ∀ {tables tx}, J tables tx → ∀ {e}, s.entity? e.name = some e → ∀ {row : Row},
    row.Obeys V e.name → ∀ {key tx' tables'},
      tx.add tables e.name row = .ok (key, tx', tables') → J tables' tx'
  put : ∀ {tables tx}, J tables tx → ∀ {e}, s.entity? e.name = some e → ∀ {row : Row},
    row.Obeys V e.name → ∀ {key tx' tables'},
      tx.put tables e.name row = .ok (key, tx', tables') → J tables' tx'
  delete : ∀ {tables tx}, J tables tx → ∀ {e}, s.entity? e.name = some e → ∀ {row : Row},
    row.Obeys V e.name → ∀ {old tx' tables'},
      tx.delete tables e.name (e.keyOf row) = .ok (old, tx', tables') → J tables' tx'

namespace Operation
variable {s : Schema} {V : String → String → Value → Prop} {J : Tables → Transaction → Prop}
  {I : Work → Prop} {e : Entity} {α β : Type}

/-- The operation keeps `I`, and its result has `Q`. -/
abbrev Carries (I : Work → Prop) (op : Operation α) (Q : α → Prop) : Prop :=
  Keeps I op Q fun _ => True

/-- The operation keeps `J`, and its result has `Q`. -/
abbrev Upholds (J : Tables → Transaction → Prop) (op : Operation α) (Q : α → Prop) : Prop :=
  Carries (fun w => J w.tables w.transaction) op Q

theorem supplied_upholds (J : Tables → Transaction → Prop) :
    Work.Supplied fun w => J w.tables w.transaction :=
  fun _ _ hw => hw

theorem sees_upholds (hJ : s.Upholds V J) : s.Sees V fun w => J w.tables w.transaction :=
  ⟨fun hw => hJ.stored hw, supplied_upholds J⟩

/-! ### Reading and drawing from the supply -/

theorem carries_look {reading : View → Read α} {Q : α → Prop} (hI : s.Sees V I)
    (h : ∀ v : View, v.schema = s → v.Gives (fun n row => row.Obeys V n) →
      Yields (reading v) Q fun _ => True) : Carries I (look s reading) Q :=
  Keeps.look fun _ hw => h _ rfl (hI.stored hw)

theorem upholds_look {reading : View → Read α} {Q : α → Prop} (hJ : s.Upholds V J)
    (h : ∀ v : View, v.schema = s → v.Gives (fun n row => row.Obeys V n) →
      Yields (reading v) Q fun _ => True) : Upholds J (look s reading) Q :=
  carries_look (sees_upholds hJ) h

theorem carries_now (hI : Work.Supplied I) : Carries I now fun _ => True :=
  Triple.get fun w hw => fun _ _ => ⟨hI w _ hw, trivial⟩

theorem carries_token (hI : Work.Supplied I) : Carries I token fun _ => True :=
  Triple.get fun w hw => fun _ _ => ⟨hI w _ hw, trivial⟩

theorem upholds_now : Upholds J now fun _ => True := carries_now (supplied_upholds J)

theorem upholds_token : Upholds J token fun _ => True := carries_token (supplied_upholds J)

/-! ### Writing rows -/

theorem upholds_settle {w : Work} (hw : J w.tables w.transaction)
    {outcome : Except Error (α × Transaction × Tables)} {Q : α → Prop}
    (h : ∀ a tx tables, outcome = .ok (a, tx, tables) → J tables tx ∧ Q a) :
    Triple (· = w) (settle outcome) (fun a w => J w.tables w.transaction ∧ Q a)
      fun _ w => J w.tables w.transaction ∧ True :=
  Triple.settle (.of_ok (fun r hr => h r.1 r.2.1 r.2.2 hr) fun _ _ => ⟨hw, trivial⟩)

theorem upholds_note (kind : ChangeKind) (key : Key) :
    Upholds J (note e kind key) fun _ => True :=
  Triple.modify fun _ hw => ⟨hw, trivial⟩

theorem upholds_addRow (hJ : s.Upholds V J) (he : s.entity? e.name = some e) {row : Row}
    (hrow : row.Obeys V e.name) : Upholds J (addRow e row) fun _ => True := by
  refine Triple.get fun w hw => Triple.bind (upholds_settle (Q := fun _ => True) hw
    fun key tx tables h => ⟨?_, trivial⟩) fun key => ?_
  · exact hJ.add hw he hrow h
  · refine Triple.mono ?_ (fun _ hw => hw.1) (fun _ _ h => h) fun _ _ h => h
    exact Keeps.andThen (upholds_note .create key) fun _ => Keeps.pure trivial

theorem upholds_putRow (hJ : s.Upholds V J) (he : s.entity? e.name = some e) {row : Row}
    (hrow : row.Obeys V e.name) : Upholds J (putRow e row) fun _ => True :=
  Triple.get fun _ hw => upholds_settle hw fun _ _ _ h => ⟨hJ.put hw he hrow h, trivial⟩

theorem upholds_changeRow (hJ : s.Upholds V J) (he : s.entity? e.name = some e) {row : Row}
    (hrow : row.Obeys V e.name) : Upholds J (changeRow e row) fun _ => True :=
  Keeps.andThen (upholds_putRow hJ he hrow) fun key => upholds_note .update key

theorem upholds_deleteRow (hJ : s.Upholds V J) (he : s.entity? e.name = some e) {row : Row}
    (hrow : row.Obeys V e.name) : Upholds J (deleteRow e (e.keyOf row)) fun _ => True := by
  refine Triple.get fun w hw => Triple.bind (R := fun _ w => J w.tables w.transaction ∧ True)
    (Triple.bind (upholds_settle (Q := fun _ => True) hw fun old tx tables h => ⟨?_, trivial⟩) ?_)
    fun _ => ?_
  · exact hJ.delete hw he hrow h
  · exact fun _ => Triple.pure fun _ h => h
  · exact Triple.mono (upholds_note .delete _) (fun _ hw => hw.1) (fun _ _ h => h) fun _ _ h => h

theorem upholds_beginDelete (key : Key) : Upholds J (beginDelete e key) fun _ => True := by
  refine Triple.get fun w hw => Triple.ite (fun _ => ?_) fun _ => ?_
  · refine Triple.pure fun w' hw' => ?_
    subst hw'
    exact ⟨hw, trivial⟩
  · exact fun w' _ => ⟨hw, trivial⟩

/-! ### Complete rows -/

theorem carries_requireKind (f : FieldDef) (kind : ScalarKind) (call : String) :
    Carries I (requireKind e f kind call) fun _ => f.kind = kind ∧ f.list = false := by
  refine Triple.ite (fun _ => Keeps.throw trivial) fun h => Keeps.pure ?_
  simpa using h

theorem carries_touch (hV : s.Admits V) (hI : Work.Supplied I) (he : s.entity? e.name = some e)
    {row : Row} (hrow : row.Obeys V e.name) :
    Carries I (touch e row) fun row => row.Obeys V e.name := by
  refine Keeps.andThen (carries_now hI) fun time => Keeps.pure ?_
  refine hrow.foldl fun row hrow f hf => hrow.insert ?_
  obtain ⟨hf, hupdated⟩ := List.mem_filter.1 hf
  exact hV.stamp he f hf hupdated time

section Defaults
variable (hV : s.Supplies V) (hI : Work.Supplied I) (he : s.entity? e.name = some e)
include hV hI he

omit hI in
theorem carries_nextIncrement {f : FieldDef} (hf : f ∈ e.fields) (hd : f.default = some .autoIncrement) :
    Carries I (nextIncrement s e f) (V e.name f.name) := by
  refine Keeps.andThen (Keeps.look fun _ _ => .any) fun t => ?_
  refine Triple.ite (fun _ => Keeps.pure ?_) fun _ => Keeps.throw trivial
  exact hV.increment he f hf hd _

theorem carries_generate {f : FieldDef} (hf : f ∈ e.fields) (time : DateTime) {d : DefaultValue} (hd : f.default = some d) :
    Carries I (generate s e f time d) (V e.name f.name) := by
  cases d with
  | autoIncrement => exact carries_nextIncrement hV he hf hd
  | uuid =>
    refine Keeps.bind (carries_requireKind f .string _) fun _ h => ?_
    exact Keeps.andThen (carries_token hI) fun n => Keeps.pure (hV.text he f hf h.1 h.2 _)
  | cuid =>
    refine Keeps.bind (carries_requireKind f .string _) fun _ h => ?_
    exact Keeps.andThen (carries_token hI) fun n => Keeps.pure (hV.text he f hf h.1 h.2 _)
  | now =>
    refine Keeps.bind (carries_requireKind f .datetime _) fun _ h => ?_
    exact Keeps.pure (hV.time he f hf h.1 h.2 _)
  | literal literal =>
    exact Keeps.ofExcept (.of_ok (fun v hv => hV.coerce he f hf hv) fun _ _ => trivial)

theorem carries_absent {f : FieldDef} (hf : f ∈ e.fields) (time : DateTime) :
    Carries I (absent s e f time) (V e.name f.name) := by
  unfold absent
  refine Triple.ite (fun h => Keeps.pure (hV.stamp he f hf h time)) fun _ => ?_
  split
  · next d hd => exact carries_generate hV hI he hf time hd
  · refine Triple.ite (fun h => Keeps.pure (hV.noItems he f hf h)) fun _ => ?_
    exact Triple.ite (fun _ => Keeps.throw trivial) fun _ => Keeps.pure (hV.null _ _)

theorem carries_complete {f : FieldDef} (hf : f ∈ e.fields) (time : DateTime) {written : Option Value}
    (hwritten : ∀ v ∈ written, V e.name f.name v) :
    Carries I (complete s e f time written) (V e.name f.name) := by
  unfold complete
  split
  · exact carries_absent hV hI he hf time
  · next v =>
    refine Triple.ite (fun _ => Keeps.pure (hwritten v rfl)) fun _ => ?_
    refine Triple.ite (fun _ => Keeps.throw trivial) fun _ => ?_
    refine Triple.ite (fun h => Keeps.pure (hV.stamp he f hf h time)) fun _ => ?_
    exact Keeps.pure (hV.null _ _)

theorem carries_fillDefaults {row : Row} (hrow : row.Obeys V e.name) :
    Carries I (fillDefaults s e row) fun row => row.Obeys V e.name := by
  refine Keeps.andThen (carries_now hI) fun time => ?_
  refine Keeps.bind (R := fun values => ∀ p ∈ values, V e.name p.1 p.2)
    (Keeps.mapM fun f hf => ?_) fun values hvalues => ?_
  · refine Keeps.bind (carries_complete hV hI he hf time fun v hv => ?_) fun v hv => Keeps.pure hv
    have hvalue := hrow f.name
    rwa [Row.value, show row.get? f.name = some v from hv] at hvalue
  · split
    · exact Keeps.throw trivial
    · exact Keeps.pure (.ofList hV.null hvalues)

end Defaults

theorem upholds_requireKind (f : FieldDef) (kind : ScalarKind) (call : String) :
    Upholds J (requireKind e f kind call) fun _ => f.kind = kind ∧ f.list = false :=
  carries_requireKind f kind call

theorem upholds_touch (hV : s.Admits V) (he : s.entity? e.name = some e) {row : Row}
    (hrow : row.Obeys V e.name) : Upholds J (touch e row) fun row => row.Obeys V e.name :=
  carries_touch hV (supplied_upholds J) he hrow

theorem upholds_fillDefaults (hV : s.Admits V) (he : s.entity? e.name = some e) {row : Row}
    (hrow : row.Obeys V e.name) : Upholds J (fillDefaults s e row) fun row => row.Obeys V e.name :=
  carries_fillDefaults hV.toSupplies (supplied_upholds J) he hrow

/-! ### Looking into the schema -/

theorem carries_require (hs : s.Resolved) (name : String) :
    Carries I (MonadExcept.ofExcept (s.require name))
      fun t => s.entity? t.name = some t ∧ t.name = name := by
  refine Keeps.ofExcept (.of_ok (fun t ht => ?_) fun _ _ => trivial)
  have ht := Option.elim_ok_eq_ok.1 ht
  have hname := hs.name ht
  exact ⟨by rw [hname, ht], hname⟩

theorem carries_requireRelation (e : Entity) (name : String) :
    Carries I (MonadExcept.ofExcept (e.requireRelation name)) fun r => r ∈ e.relations := by
  refine Keeps.ofExcept (.of_ok (fun r hr => ?_) fun _ _ => trivial)
  exact List.mem_of_find?_eq_some (Option.elim_ok_eq_ok.1 hr)

theorem upholds_require (hs : s.Resolved) (name : String) :
    Upholds J (MonadExcept.ofExcept (s.require name))
      fun t => s.entity? t.name = some t ∧ t.name = name :=
  carries_require hs name

theorem upholds_requireRelation (e : Entity) (name : String) :
    Upholds J (MonadExcept.ofExcept (e.requireRelation name)) fun r => r ∈ e.relations :=
  carries_requireRelation e name

end Operation

end RelationalStore

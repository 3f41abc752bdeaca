import RelationalStore.Proofs.DeletionRequests
import RelationalStore.Proofs.RecordedWrites
import RelationalStore.Proofs.RequestWrites

/- Every request that writes keeps its ledger: it notes one change for each row that it writes, of
   the kind that the write was of. What is put in place of a row that was read has the key of that
   row, because nothing but a creation gives a row its primary key, and the row is still there
   (`Ledger.Stands`): creations and updates take no row away, and a deletion takes the rows whose
   own deletion has begun, each once. -/
namespace RelationalStore
open SortedMap Read

variable {s : Schema} {e : Entity} {row link : Row}

/-! ### Rows that keep their primary key -/

namespace Entity

theorem keyOf_insert {c : String} (h : c ∉ e.idFields) (v : Value) (row : Row) :
    e.keyOf (row.insert c v) = e.keyOf row := by
  refine Key.ofRow_congr fun f hf => get?_insert_of_ne ?_
  rintro rfl
  exact h hf

theorem keyOf_foldl {α : Type} {items : List α} {f : Row → α → Row}
    (h : ∀ a ∈ items, ∀ row, e.keyOf (f row a) = e.keyOf row) (row : Row) :
    e.keyOf (items.foldl f row) = e.keyOf row := by
  induction items generalizing row with
  | nil => rfl
  | cons a rest ih =>
    rw [List.foldl_cons, ih fun b hb => h b (List.mem_cons_of_mem a hb), h a List.mem_cons_self]

theorem keyOf_insertAll (h : link.Lists (fun _ c _ => c ∉ e.idFields) e.name) (row : Row) :
    e.keyOf (row.insertAll link) = e.keyOf row :=
  keyOf_foldl (fun p hp row => keyOf_insert (h p hp) p.2 row) row

end Entity

theorem Schema.KeysAlone.entity (h : s.KeysAlone) (hs : s.Resolved) (he : s.entity? e.name = some e) :
    e.KeyAlone := h e (hs.mem_values he)

namespace Entity.KeyAlone
variable (h : e.KeyAlone)
include h

theorem near {r : Relation} (hr : r ∈ e.owningRelations) : ∀ f ∈ r.near, f ∉ e.idFields :=
  fun f hf hid => (h f hid).2 r hr hf

theorem updatedAt : ∀ f ∈ e.fields.filter (·.updatedAt), f.name ∉ e.idFields :=
  fun _ hf hid => (h _ hid).1 (List.mem_map_of_mem hf)

/-- Through a relation the rows at the other end get their foreign key. -/
theorem far (hs : s.Resolved) {r : Relation} (hheld : s.Held r e) : ∀ f ∈ r.far, f ∉ e.idFields := by
  obtain ⟨o, ho, hnear, -⟩ := hheld.exists_owner hs
  rw [← hnear]
  exact h.near ho

end Entity.KeyAlone

namespace Operation

section
variable (hs : s.Resolved) (halone : e.KeyAlone) (he : s.entity? e.name = some e)
include hs halone he

omit hs he in
theorem touch_keyOf (row : Row) :
    Carries (fun _ => True) (touch e row) fun row' => e.keyOf row' = e.keyOf row := by
  refine Keeps.andThen .any fun time => Keeps.pure ?_
  exact Entity.keyOf_foldl (fun f hf row => Entity.keyOf_insert (halone.updatedAt f hf) _ row) row

omit hs he in
theorem stamp_keyOf (v : Revision) :
    Carries (fun _ => True) (stamp e v) fun row => e.keyOf row = e.keyOf v.row := by
  refine Keeps.bind (touch_keyOf halone v.row) fun row hrow => Keeps.pure ?_
  rw [← hrow]
  refine Entity.keyOf_foldl (fun f hf row => Entity.keyOf_insert ?_ _ row) row
  obtain ⟨hf, hkept⟩ := List.mem_filter.1 hf
  exact halone.updatedAt f (List.mem_filter.2 ⟨hf, (Bool.and_eq_true_iff.1 hkept).1⟩)

omit halone in
theorem reviseField_keyOf {f : FieldDef} (hf : f ∈ e.fields) (v : Revision) (write : FieldWrite) :
    Yields (reviseField e f v write) (fun v' => e.keyOf v'.row = e.keyOf v.row) fun _ => True := by
  refine .ite (fun _ => .throw trivial) fun hid => .andThen .any fun value => ?_
  refine .ite (fun _ => .throw trivial) fun _ => .pure (Entity.keyOf_insert ?_ _ v.row)
  exact fun hmem => hid (hs.id_of_mem_idFields he hf hmem)

omit hs he in
theorem release_keyOf {r : Relation} (hr : r ∈ e.owningRelations) (v : Revision) :
    Yields (release e r v) (fun v' => e.keyOf v'.row = e.keyOf v.row) fun _ => True := by
  unfold release
  split
  · exact .error trivial
  · refine .ok ?_
    have hnear := halone.near hr
    generalize r.near = names at hnear
    induction names generalizing v with
    | nil => rfl
    | cons name rest ih =>
      rw [List.foldl_cons, ih _ fun f hf => hnear f (List.mem_cons_of_mem name hf)]
      exact Entity.keyOf_insert (hnear name List.mem_cons_self) .null v.row

omit hs he in
theorem reviseOwner_keyOf {r : Relation} (hr : r ∈ e.owningRelations) (v : Revision)
    (write : NestedWrite) :
    Carries (fun _ => True) (reviseOwner s e r v write) fun v' => e.keyOf v'.row = e.keyOf v.row := by
  refine Triple.ite (fun _ => Keeps.throw trivial) fun _ => ?_
  split
  · exact Keeps.ofExcept (release_keyOf halone hr v)
  · exact Keeps.throw trivial
  · refine Triple.ite (fun _ => Keeps.pure rfl) fun _ => Keeps.andThen .any fun parent => ?_
    refine Keeps.pure (Entity.keyOf_foldl (fun p hp row => ?_) v.row)
    exact Entity.keyOf_insert (halone.near hr p.1 (List.of_mem_zip hp).1) _ row

theorem revise_keyOf (v : Revision) (entry : String × FieldWrite) :
    Carries (fun _ => True) (revise s e v entry) fun v' => e.keyOf v'.row = e.keyOf v.row := by
  unfold revise
  split
  · next f hf => exact Keeps.ofExcept (reviseField_keyOf hs he (List.mem_of_find?_eq_some hf) v _)
  · refine Keeps.bind (carries_requireRelation e entry.1) fun r hr => ?_
    split
    · refine Triple.ite (fun howning => ?_) fun _ => Keeps.pure rfl
      exact reviseOwner_keyOf halone (List.mem_filter.2 ⟨hr, howning⟩) v _
    · exact Keeps.throw trivial

end

end Operation

/-! ### Single writes -/

/-- The keys of some rows of an entity. -/
def Entity.keysOf (e : Entity) (rows : List Row) : Set (String × Key) :=
  {p | ∃ row ∈ rows, p = (e.name, e.keyOf row)}

namespace Ledger
open Operation
variable {l : Ledger} {K B : Set (String × Key)} {w : Work} {α β : Type}

/-- A row with a known key has numbers of the classes of its fields in that key. -/
theorem Stands.obeys (h : l.Stands K B w) (he : l.schema.entity? e.name = some e)
    (hkey : (e.name, e.keyOf row) ∈ K) : row.Obeys l.schema.KeyWithin e.name := by
  intro c hc
  obtain ⟨e', he', hc⟩ := hc
  cases he.symm.trans he'
  exact (h.sorted.fits he (h.keys hkey)).value hc

theorem sees (l : Ledger) (K B : Set (String × Key)) :
    l.schema.Sees l.schema.KeyWithin (l.Stands K B) where
  stored h := h.sorted.gives l.resolved _
  supplied := l.supplied_stands K B

section
variable (he : l.schema.entity? e.name = some e)
include he

omit he in
/-- What is owed is noted. -/
theorem note_stands (e : Entity) (kind : ChangeKind) (key : Key) :
    Triple (l.Owes K B ⟨e.name, kind, key⟩) (note e kind key) (fun _ w => l.Stands K B w ∧ True)
      fun _ w => l.Stands K B w ∧ True :=
  Triple.modify fun _ h => ⟨h, trivial⟩

theorem carries_addRow (hrow : row.Obeys l.schema.KeyWithin e.name) :
    Carries (l.Stands K B) (addRow e row) fun _ => True := by
  refine Triple.get fun w hw => ?_
  refine Triple.bind (R := fun key => l.Owes K B ⟨e.name, .create, key⟩)
    (Triple.settle (.of_ok (fun r hadd => hw.add he hrow hadd) fun _ _ => ⟨hw, trivial⟩)) fun key => ?_
  exact Triple.bind (R := fun _ => l.Stands K B) (Triple.modify fun _ h => h) fun _ =>
    Triple.pure fun _ h => ⟨h, trivial⟩

theorem putRow_owes (hkey : (e.name, e.keyOf row) ∈ K) :
    Triple (l.Stands K B) (putRow e row)
      (fun key w => key = e.keyOf row ∧ l.Owes K B ⟨e.name, .update, e.keyOf row⟩ w)
      fun _ w => l.Stands K B w ∧ True := by
  refine Triple.get fun w hw => Triple.settle (.of_ok (fun r hput => ?_) fun _ _ => ⟨hw, trivial⟩)
  obtain ⟨hsame, howes⟩ := hw.put he (hw.keys hkey) hput
  rw [hsame] at howes
  exact ⟨hsame, howes⟩

/-- The change that is owed for the row that is put has the key of the row it takes the place of. -/
theorem replaceRow_owes (hkey : (e.name, e.keyOf row) ∈ K) {key : Key} (hsame : e.keyOf row = key) :
    Triple (l.Stands K B) (discard (putRow e row)) (fun _ => l.Owes K B ⟨e.name, .update, key⟩)
      fun _ w => l.Stands K B w ∧ True := by
  subst hsame
  exact Triple.bind (putRow_owes he hkey) fun _ => Triple.pure fun _ h => h.2

theorem carries_changeRow (hkey : (e.name, e.keyOf row) ∈ K) :
    Carries (l.Stands K B) (changeRow e row) fun _ => True := by
  refine Triple.bind (putRow_owes he hkey) fun key => Triple.modify fun w h => ?_
  obtain ⟨rfl, howes⟩ := h
  exact ⟨howes, trivial⟩

/-- A row keeps its key when the time of the write is noted in it. -/
theorem touch_stands (row : Row) :
    Carries (l.Stands K B) (touch e row) fun row' => e.keyOf row' = e.keyOf row := by
  have hstays : Carries (l.Stands K B) (touch e row) fun _ => True :=
    Keeps.andThen (carries_now (l.supplied_stands K B)) fun _ => Keeps.pure trivial
  exact (Keeps.besides hstays (touch_keyOf (l.alone.entity l.resolved he) row)).mono (fun _ h => h.2) fun _ h => h

theorem deleteRow_stands {key : Key} (hother : (e.name, key) ∉ K) :
    Triple (l.Stands (insert (e.name, key) K) B) (deleteRow e key)
      (fun _ w => l.Stands K B w ∧ True) fun _ w => l.Stands K B w ∧ True := by
  refine Triple.get fun w hw => ?_
  refine Triple.bind (R := fun _ => l.Owes K B ⟨e.name, .delete, key⟩) ?_ fun _ =>
    Triple.modify fun _ h => ⟨h, trivial⟩
  refine Triple.bind (R := fun _ => l.Owes K B ⟨e.name, .delete, key⟩) (Triple.settle ?_) fun _ =>
    Triple.pure fun _ h => h
  refine .of_ok (fun r hdelete => hw.delete he hother hdelete) fun _ _ => ?_
  exact ⟨hw.mono (Set.subset_insert _ K) subset_rfl, trivial⟩

end

/-! ### Reading rows -/

/-- What is read are rows, whose keys are known from then on. -/
theorem look_stands (he : l.schema.entity? e.name = some e) {reading : View → Read α}
    {F : α → List Row} (h : ∀ v : View, v.schema = l.schema → v.Gives v.tables.Has →
      Yields (reading v) (fun a => ∀ row ∈ F a, v.tables.Has e.name row) fun _ => True) :
    Triple (l.Stands K B) (look l.schema reading) (fun a w => l.Stands (e.keysOf (F a) ∪ K) B w)
      fun _ w => l.Stands K B w ∧ True := by
  refine Triple.look fun w hw => ?_
  refine (h ⟨l.schema, w.tables, w.transaction⟩ rfl (View.gives_has _ _ _)).mono (fun a ha => ?_)
    fun _ _ => ⟨hw, trivial⟩
  refine ⟨hw.toTallies, Set.union_subset (fun p hp => ?_) hw.keys, hw.begun⟩
  obtain ⟨row, hrow, rfl⟩ := hp
  exact (hw.sorted.mem_primaryKeys he).2 ⟨row, ha row hrow, rfl⟩

/-- What is known of what the first gives is known in the rest only. -/
theorem carries_bind {x : Operation β} {f : β → Operation α} {M : β → Set (String × Key)}
    {Q : α → Prop} (hx : Triple (l.Stands K B) x (fun b w => l.Stands (M b ∪ K) B w)
      fun _ w => l.Stands K B w ∧ True)
    (hf : ∀ b, Carries (l.Stands (M b ∪ K) B) (f b) Q) : Carries (l.Stands K B) (x >>= f) Q :=
  Triple.bind hx fun b => Triple.mono (hf b) (fun _ h => h)
    (fun _ _ h => ⟨h.1.mono Set.subset_union_right subset_rfl, h.2⟩)
    fun _ _ h => ⟨h.1.mono Set.subset_union_right subset_rfl, h.2⟩

/-! ### Creations -/

section
variable {target : Entity} (ht : l.schema.entity? target.name = some target) {r : Relation}
  (hfar : ∀ f ∈ r.far, f ∉ target.idFields)
include ht

theorem carries_touched (hkey : (target.name, target.keyOf row) ∈ K) :
    Carries (l.Stands K B) (touch target row >>= changeRow target) fun _ => True :=
  Keeps.bind (touch_stands ht row) fun row' hsame => carries_changeRow ht (by rwa [hsame])

include hfar

theorem carries_unlink {child : Row} (hkey : (target.name, target.keyOf child) ∈ K) :
    Carries (l.Stands K B) (unlink r target child) fun _ => True := by
  simp only [unlink]
  split
  · exact Keeps.throw trivial
  · refine carries_touched ht ?_
    rwa [Entity.keyOf_foldl fun f hf row => Entity.keyOf_insert (hfar f hf) .null row]

theorem carries_unlinkAll (rows : List Row) :
    Carries (l.Stands (target.keysOf rows ∪ K) B) (rows.forM (unlink r target)) fun _ => True :=
  Keeps.forM fun row hrow => carries_unlink ht hfar (.inl ⟨row, hrow, rfl⟩)

variable (htarget : target.name = r.target)
include htarget

theorem carries_disconnect (e : Entity) (parent : Row) (d : Disconnect) :
    Carries (l.Stands K B) (disconnect l.schema e r target parent d) fun _ => True := by
  cases d with
  | flag on =>
    cases on with
    | false => exact Keeps.pure trivial
    | true =>
      refine Triple.ite (fun _ => Keeps.throw trivial) fun _ => ?_
      refine carries_bind (M := target.keysOf) (look_stands ht fun v hv hgives => ?_)
        fun rows => carries_unlinkAll ht hfar rows
      rw [htarget]
      exact hgives.relatedRows (hv ▸ l.resolved) r parent
  | records selectors =>
    refine Triple.ite (fun _ => Keeps.throw trivial) fun _ => Keeps.forM fun selector _ => ?_
    refine carries_bind (M := fun found : Option Row => target.keysOf found.toList)
      (look_stands ht fun v _ hgives => ?_) fun found => ?_
    · exact (hgives.findUnique target selector).mono (fun _ h => by simpa using h) fun _ h => h
    · split
      · exact Keeps.pure trivial
      · refine Triple.ite (fun _ => ?_) fun _ => Keeps.pure trivial
        exact carries_unlink ht hfar (.inl ⟨_, by simp, rfl⟩)

omit hfar htarget in
theorem findToConnect_stands (selector : Filter) :
    Triple (l.Stands K B) (findToConnect l.schema r target selector)
      (fun row w => l.Stands (target.keysOf [row] ∪ K) B w) fun _ w => l.Stands K B w ∧ True := by
  refine Triple.bind (look_stands (F := Option.toList) ht fun v _ hgives => ?_) fun found => ?_
  · exact (hgives.findUnique target selector).mono (fun _ h => by simpa using h) fun _ h => h
  · split
    · exact Triple.pure fun _ h => h
    · exact Triple.throw fun _ h => ⟨h.mono Set.subset_union_right subset_rfl, trivial⟩

theorem carries_connect (parent : Row) (selector : Filter) :
    Carries (l.Stands K B) (connect l.schema r target parent selector) fun _ => True := by
  refine carries_bind (M := fun child => target.keysOf [child])
    (findToConnect_stands ht selector) fun child => ?_
  have hchild : (target.name, target.keyOf child) ∈ target.keysOf [child] := ⟨child, by simp, rfl⟩
  have hwrite (K' : Set (String × Key)) (hkey : (target.name, target.keyOf child) ∈ K') :
      Carries (l.Stands K' B)
        (touch target (child.insertAll (r.childLink parent)) >>= changeRow target) fun _ => True := by
    have hlink : (r.childLink parent).Lists (fun _ c _ => c ∉ target.idFields) target.name := by
      refine .ofList fun p hp => ?_
      obtain ⟨⟨far, near⟩, hzip, rfl⟩ := List.mem_map.1 hp
      exact hfar far (List.of_mem_zip hzip).1
    refine carries_touched ht ?_
    rwa [Entity.keyOf_insertAll hlink]
  refine Triple.ite (fun _ => ?_) fun _ => hwrite _ (.inl hchild)
  refine carries_bind (M := target.keysOf) (look_stands ht fun v hv hgives => ?_) fun rows => ?_
  · rw [htarget]
    exact hgives.relatedRows (hv ▸ l.resolved) r parent
  · refine Keeps.andThen (Keeps.forM fun row hrow => ?_) fun _ => hwrite _ (.inr (.inl hchild))
    refine Triple.ite (fun _ => ?_) fun _ => Keeps.pure trivial
    exact carries_unlink ht hfar (.inl ⟨row, hrow, rfl⟩)

end

theorem sustains (l : Ledger) (K B : Set (String × Key)) :
    l.schema.Sustains l.schema.KeyWithin (l.Stands K B) where
  toSees := l.sees K B
  addRow he _ hrow := carries_addRow he hrow
  disconnect he ht _ hr howning htarget parent d :=
    carries_disconnect ht
      ((l.alone.entity l.resolved ht).far l.resolved ⟨ht, htarget, howning, _, he, hr⟩) htarget _ parent d
  connect he ht _ hr howning htarget parent _ selector :=
    carries_connect ht
      ((l.alone.entity l.resolved ht).far l.resolved ⟨ht, htarget, howning, _, he, hr⟩) htarget parent selector

/-! ### Updates -/

section
variable (he : l.schema.entity? e.name = some e)
include he

theorem carries_createRow (hlink : link.Lists l.schema.KeyWithin e.name) (data : WriteData) :
    Carries (l.Stands K B) (create l.schema e link data) fun _ => True :=
  (carries_create l.resolved (Schema.admits_keyWithin l.resolved l.alone) (l.sustains K B) he hlink
    data).mono (fun _ _ => trivial) fun _ h => h

theorem carries_update (data : WriteData) (hkey : (e.name, e.keyOf row) ∈ K) :
    Carries (l.Stands K B) (update l.schema e data row) fun _ => True := by
  intro w hw
  have hs := l.resolved
  have hV := Schema.admits_keyWithin l.resolved l.alone
  have hI := l.sustains K B
  refine Keeps.bind (Keeps.foldlM (Q := fun v : Revision =>
    v.row.Obeys l.schema.KeyWithin e.name ∧ e.keyOf v.row = e.keyOf row) ⟨hw.obeys he hkey, rfl⟩
    fun v hv entry _ => ?_) (fun v hv => ?_) w hw
  · have hrevised := Keeps.besides (carries_revise hs hV he hI hv.1 entry)
      (revise_keyOf hs (l.alone.entity hs he) he v entry)
    exact hrevised.mono (fun _ h => ⟨h.1, h.2.trans hv.2⟩) fun _ h => h
  · refine Keeps.andThen (carries_checkForeignKeys hs hI.toSees e _ _) fun _ => ?_
    refine Keeps.bind (Keeps.besides (carries_stamp hV he hI.supplied hv.1) (stamp_keyOf (l.alone.entity hs he) v))
      fun next hnext => ?_
    have hsame : e.keyOf next = e.keyOf row := hnext.2.trans hv.2
    refine Triple.bind (replaceRow_owes he (by rwa [hsame]) hsame) fun _ => ?_
    refine Triple.bind (note_stands e .update _) fun _ => Triple.mono ?_ (fun _ h => h.1)
      (fun _ _ h => h) fun _ _ h => h
    refine Keeps.andThen (carries_createChildren hs hV hI he hnext.1 data.fields) fun _ => ?_
    exact (carries_reread hI.toSees e _).mono (fun _ _ => trivial) fun _ h => h

end

end Ledger

end RelationalStore

import RelationalStore.Proofs.TracedWrites

/- What is written when rows are created with all that is related to them, and when rows are
   connected and let go of. There is a tracer for each function, which follows its code; each
   function recounts what its tracer gives, from tables of the schema. A row that is made for a
   parent has the parent's key where that is not null, since the link is written after the data and
   no default takes its place (`recounts_create`). -/
namespace RelationalStore
open SortedMap Read

namespace Operation

/-! ### Tracers -/

/-- Lets the row go that a selector finds, if it references the parent. -/
def letGo (s : Schema) (r : Relation) (target : Entity) (parent : Row) (selector : Filter) :
    Operation Unit := do
  match ← look s fun v => v.findUnique target selector with
  | none => pure ()
  | some child =>
    if (Key.ofRow r.far child).equiv (Key.ofRow r.near parent) then unlink r target child

/-- Lets a row go if it is not the one that is to be connected. -/
def makeWay (r : Relation) (target : Entity) (child current : Row) : Operation Unit := do
  if !(target.keyOf current).equiv (target.keyOf child) then unlink r target current

/-- Puts a row back with the key of a parent. -/
def link (r : Relation) (target : Entity) (parent child : Row) : Operation Unit := do
  changeRow target (← touch target (child.insertAll (r.childLink parent)))

theorem disconnect_records (s : Schema) (e : Entity) (r : Relation) (target : Entity) (parent : Row)
    (selectors : List Filter) : disconnect s e r target parent (.records selectors) =
      if !r.isToMany then throw (.invalidQuery (.disconnectShape false e.name r.name))
      else selectors.forM (letGo s r target parent) := rfl

theorem connect_eq (s : Schema) (r : Relation) (target : Entity) (parent : Row) (selector : Filter) :
    connect s r target parent selector = (findToConnect s r target selector >>= fun child =>
      if !r.isToMany then
        (look s fun v => v.relatedRows r parent) >>= fun rows =>
          rows.forM (makeWay r target child) >>= fun _ => link r target parent child
      else link r target parent child) := rfl

def traceUnlink (r : Relation) (target : Entity) (child : Row) : Tracer :=
  .mark (.released r target child) (unlink r target child)

def traceLetGo (s : Schema) (r : Relation) (target : Entity) (parent : Row) (selector : Filter) :
    Tracer :=
  .after (look s fun v => v.findUnique target selector) fun
    | none => .silent
    | some child =>
      if (Key.ofRow r.far child).equiv (Key.ofRow r.near parent) then traceUnlink r target child
      else .silent

def traceDisconnect (s : Schema) (r : Relation) (target : Entity) (parent : Row) :
    Disconnect → Tracer
  | .flag false => .silent
  | .flag true =>
    if r.isToMany then .silent
    else .after (look s fun v => v.relatedRows r parent) (.each (unlink r target) (traceUnlink r target))
  | .records selectors =>
    if !r.isToMany then .silent
    else .each (letGo s r target parent) (traceLetGo s r target parent) selectors

def traceMakeWay (r : Relation) (target : Entity) (child current : Row) : Tracer :=
  if !(target.keyOf current).equiv (target.keyOf child) then traceUnlink r target current else .silent

def traceLink (r : Relation) (target : Entity) (parent child : Row) : Tracer :=
  .mark (.connected r target parent child) (link r target parent child)

def traceConnect (s : Schema) (r : Relation) (target : Entity) (parent : Row) (selector : Filter) :
    Tracer :=
  .after (findToConnect s r target selector) fun child =>
    if !r.isToMany then
      .after (look s fun v => v.relatedRows r parent) fun rows =>
        .bind (rows.forM (makeWay r target child))
            (.each (makeWay r target child) (traceMakeWay r target child) rows) fun _ =>
          traceLink r target parent child
    else traceLink r target parent child

mutual

/-- Of a row that is created, for the parent `origin` if there is one. -/
def traceCreate (s : Schema) (e : Entity) (origin : Option (Relation × Row)) (link : Row) :
    WriteData → Tracer
  | ⟨fields⟩ =>
    .bind (createFields s e ∅ fields) (traceFields s e ∅ fields) fun given =>
      let row := given.insertAll link
      let written := fields.map (·.1) |>.filter fun name => (e.field? name).isSome
      .after (checkForeignKeys s e row (written ++ link.keys)) fun _ =>
        .after (fillDefaults s e row) fun row =>
          .bind (addRow e row) (.mark (.stored e origin row) (addRow e row)) fun _ =>
            traceChildren s e row fields

def traceFields (s : Schema) (e : Entity) (row : Row) : List (String × FieldWrite) → Tracer
  | [] => .silent
  | (name, write) :: rest =>
    .bind (createField s e row name write) (traceField s e name write) fun row =>
      traceFields s e row rest

def traceField (s : Schema) (e : Entity) (name : String) : FieldWrite → Tracer
  | .literal _ => .silent
  | .update _ => .silent
  | .relation write =>
    .after (relationToWrite e name) fun r =>
      if r.isOwning then
        if write.disconnect.isSome || write.createMany.isSome then .silent else traceParent s r write
      else .silent

def traceParent (s : Schema) (r : Relation) : NestedWrite → Tracer
  | ⟨[data], [], _, _, _⟩ =>
    .after (MonadExcept.ofExcept (s.require r.target)) fun target => traceCreate s target none ∅ data
  | _ => .silent

def traceChildren (s : Schema) (e : Entity) (parent : Row) : List (String × FieldWrite) → Tracer
  | [] => .silent
  | (name, write) :: rest =>
    .bind (createChild s e parent name write) (traceChild s e parent name write) fun _ =>
      traceChildren s e parent rest

def traceChild (s : Schema) (e : Entity) (parent : Row) (name : String) : FieldWrite → Tracer
  | .literal _ => .silent
  | .update _ => .silent
  | .relation write =>
    .after (relationToWrite e name) fun r =>
      if !r.isOwning then traceNested s e r parent write else .silent

def traceNested (s : Schema) (e : Entity) (r : Relation) (parent : Row) : NestedWrite → Tracer
  | ⟨created, connected, _, batch, released⟩ =>
    .after (MonadExcept.ofExcept (s.require r.target)) fun target =>
      if !r.isToMany && 1 < created.length + connected.length then .silent
      else
        .bind (released.forM (disconnect s e r target parent))
            (released.elim .silent (traceDisconnect s r target parent)) fun _ =>
          .bind (createAll s target (r.childLink parent) created) (traceAll s target r parent created)
            fun _ =>
              .bind (connected.forM (connect s r target parent))
                  (.each (connect s r target parent) (traceConnect s r target parent) connected)
                fun _ => traceBatch s r target parent batch

def traceAll (s : Schema) (e : Entity) (r : Relation) (parent : Row) : List WriteData → Tracer
  | [] => .silent
  | data :: rest =>
    .bind (discard (create s e (r.childLink parent) data))
        (traceCreate s e (some (r, parent)) (r.childLink parent) data) fun _ =>
      traceAll s e r parent rest

def traceBatch (s : Schema) (r : Relation) (target : Entity) (parent : Row) :
    Option CreateMany → Tracer
  | none => .silent
  | some batch => traceMany s r target parent batch

def traceMany (s : Schema) (r : Relation) (target : Entity) (parent : Row) : CreateMany → Tracer
  | ⟨rows, skip⟩ => if !r.isToMany then .silent else traceRows s target r parent skip rows

def traceRows (s : Schema) (e : Entity) (r : Relation) (parent : Row) (skip : Bool) :
    List WriteData → Tracer
  | [] => .silent
  | data :: rest =>
    if data.writesRelations then .silent
    else
      .bind (discard (skipDuplicate skip (create s e (r.childLink parent) data)))
          (traceCreate s e (some (r, parent)) (r.childLink parent) data) fun _ =>
        traceRows s e r parent skip rest

end

/-! ### Single writes -/

variable {s : Schema} {κ : String → String → NumberClass} {updating : Entity → Row → Prop}
  {T : Tables} {e target : Entity} {r : Relation}

/-- What is read obeys the classes of the columns. -/
theorem sees_of_holds (hT : s.Holds κ T) :
    s.Sees (fun n f v => v.within (κ n f)) fun w => w.tables = T where
  stored {w} hw := by
    subst hw
    exact fun n t ht row hrow => hT.within ⟨t, (Transaction.table_ok ht).2.2, hrow⟩
  supplied _ _ h := h

section
variable (hT : s.Holds κ T)
include hT

theorem recounts_addRow (he : s.entity? e.name = some e) {origin : Option (Relation × Row)} {row : Row}
    (hrow : row.Within (κ e.name)) (hmade : ∀ p ∈ origin, s.MadeFor p.1 e p.2 row) :
    Recounts s κ updating T (addRow e row) (.mark (.stored e origin row) (addRow e row))
      fun _ _ => True := by
  refine .mark (Triple.get fun w hw => ?_)
  refine Triple.bind (R := fun _ w' => s.Wrote updating T (.stored e origin row) w'.tables ∧
    s.Holds κ w'.tables ∧ True) (Triple.settle (.of_ok (fun out hadd => ?_) fun _ _ => hw)) fun key => ?_
  · rw [hw] at hadd
    obtain ⟨hholds, hstores, -, hnew⟩ := hT.add he hrow hadd
    exact ⟨.stored he hstores hnew hmade, hholds, trivial⟩
  · exact Triple.bind (R := fun _ w' => s.Wrote updating T (.stored e origin row) w'.tables ∧
      s.Holds κ w'.tables ∧ True) (Triple.modify fun _ h => h) fun _ => Triple.pure fun _ h => h

theorem stores_putRow (he : s.entity? e.name = some e) {row : Row} (hrow : row.Within (κ e.name)) :
    Triple (fun w => w.tables = T) (putRow e row)
      (fun _ w => s.Holds κ w.tables ∧ e.Stores row T w.tables) fun _ w => w.tables = T := by
  refine Triple.get fun w hw => Triple.settle (.of_ok (fun out hput => ?_) fun _ _ => hw)
  rw [hw] at hput
  exact hT.put he hrow hput

variable (hheld : s.Held r target) {child row : Row} (hrow : row.Within (κ target.name))
  (hsame : ∀ f, f ∉ r.far → f ∉ target.stamps → row.value f = child.value f)
  (hcurrent : target.KeyAlone → T.HasLike r target child)
include hheld hrow hsame hcurrent

/-- A row that was read is put back with other values in the foreign key. -/
theorem rekeyed_touch : Triple (fun w => w.tables = T) (touch target row >>= changeRow target)
    (fun _ w => s.Holds κ w.tables ∧ ∃ next, s.Rekeyed r target child next T w.tables ∧
      ∀ f, f ∉ target.stamps → next.value f = row.value f) fun _ w => w.tables = T := by
  refine Triple.bind (Triple.mono (still_touch target row) (fun _ h => h) (fun _ _ h => h)
    fun _ _ h => h.1) fun next => Triple.of_eq fun w hw => ?_
  obtain ⟨hw, time, hnext⟩ := hw
  -- Only the time is new in what is put back, and a time is of any class.
  have hplain {f : String} (hf : f ∉ target.stamps) : next.value f = row.value f := by
    rw [hnext, if_neg hf]
  have hwithin : next.Within (κ target.name) := by
    intro f
    rw [hnext]
    split
    · rfl
    · exact hrow f
  refine Triple.mono (Triple.bind (stores_putRow hT hheld.child hwithin) fun key =>
    Triple.modify (Q := fun _ (w : Work) => s.Holds κ w.tables ∧ target.Stores next T w.tables)
      fun _ h => h)
    (fun _ h => h ▸ hw) (fun _ w' h => ?_) fun _ _ h => h
  exact ⟨h.1, next, ⟨hheld, h.2, fun f hfar hf => (hplain hf).trans (hsame f hfar hf), hcurrent⟩,
    fun f hf => hplain hf⟩

end

/-! ### Rows that reference a parent -/

section
variable (hs : s.Resolved) (hheld : s.Held r target)
include hs hheld

omit hs in
theorem recounts_unlink (hT : s.Holds κ T) {child : Row} (hchild : child.Within (κ target.name))
    (hcurrent : target.KeyAlone → T.HasLike r target child) :
    Recounts s κ updating T (unlink r target child) (traceUnlink r target child)
      fun _ T' => ∃ next, s.Rekeyed r target child next T T' := by
  refine .mark ?_
  unfold unlink
  simp only
  split
  · exact Triple.throw fun _ h => h
  · have hvalue := Row.value_foldl_null r.far child
    refine Triple.mono (rekeyed_touch hT hheld (fun f => ?_) (fun f hf _ => ?_) hcurrent)
      (fun _ h => h) (fun _ w h => ?_) fun _ _ h => h
    · rw [hvalue]
      split
      · rfl
      · exact hchild f
    · rw [hvalue, if_neg hf]
    · obtain ⟨hholds, next, hnext, -⟩ := h
      exact ⟨.released hnext, hholds, next, hnext⟩

/-- Rows that were read together are let go of one by one, if at all; none of these writes touches any
of the others, or a row with another key. -/
theorem recounts_eachUnlinked (hT : s.Holds κ T) {rows : List Row} (kept : List Row)
    (hrows : ∀ row ∈ rows, T.Has target.name row) (hkept : ∀ row ∈ kept, T.Has target.name row)
    {f : Row → Operation Unit} {traces : Row → Tracer}
    (hf : ∀ row ∈ rows, ∀ T', s.Holds κ T' → (target.KeyAlone → T'.HasLike r target row) →
      Recounts s κ updating T' (f row) (traces row) fun _ T'' =>
        T'' = T' ∨ ∃ next, s.Rekeyed r target row next T' T'' ∧
          ∀ other ∈ kept, compare (target.keyOf row) (target.keyOf other) ≠ .eq) :
    Recounts s κ updating T (rows.forM f) (.each f traces rows) fun _ T' =>
      target.KeyAlone → ∀ row ∈ rows ++ kept, T'.HasLike r target row := by
  have hthere : ∀ row ∈ rows ++ kept, T.Has target.name row := fun row hrow =>
    (List.mem_append.1 hrow).elim (hrows row) (hkept row)
  -- The invariant is that all rows are there as they were read, but for what their own write changed.
  refine .each (I := fun T' => target.KeyAlone → ∀ row ∈ rows ++ kept, T'.HasLike r target row) hT
    (fun _ row hrow => ⟨row, hthere row hrow, rfl, fun _ _ _ => rfl⟩) fun row hrow T' hT' hI => ?_
  refine .mono (hf row hrow T' hT' fun halone => hI halone row (List.mem_append_left _ hrow))
    fun _ T'' h halone other hother => ?_
  rcases h with rfl | ⟨next, hnext, hapart⟩
  · exact hI halone other hother
  · refine hnext.hasLike hs halone (hI halone other hother) fun heq => ?_
    -- Both were read from the same tables, where a key belongs to one row.
    exact (hT.eq_of_keyOf hheld.child (hrows row hrow) (hthere other hother) heq).symm

omit hs in
theorem recounts_letGo (hT : s.Holds κ T) (parent : Row) (selector : Filter) :
    Recounts s κ updating T (letGo s r target parent selector) (traceLetGo s r target parent selector)
      fun _ _ => True := by
  refine .after (still_look s _) fun found hfound => ?_
  obtain ⟨tx, hfound⟩ := hfound
  split
  · exact .pure trivial
  · next child =>
    have hgives := (View.gives_has s T tx).findUnique target selector
    rw [hfound] at hgives
    have hchild : T.Has target.name child := hgives child rfl
    refine .ite (fun _ => .mono (recounts_unlink hheld hT (hT.within hchild) fun _ => ?_)
      fun _ _ _ => trivial) fun _ => .pure trivial
    exact ⟨child, hchild, rfl, fun _ _ _ => rfl⟩

theorem recounts_disconnect (hT : s.Holds κ T) (e : Entity) (parent : Row) (d : Disconnect) :
    Recounts s κ updating T (disconnect s e r target parent d) (traceDisconnect s r target parent d)
      fun _ _ => True := by
  cases d with
  | flag on =>
    cases on with
    | false => exact .pure trivial
    | true =>
      refine .ite (fun _ => .throw) fun _ => .after (still_relatedRows hs r parent) fun rows hrows => ?_
      rw [← hheld.name] at hrows
      refine .mono (recounts_eachUnlinked hs hheld hT [] hrows (by simp)
        fun row hrow T' hT' hcurrent => ?_) fun _ _ _ => trivial
      refine .mono (recounts_unlink hheld hT' (hT.within (hrows row hrow)) hcurrent)
        fun _ _ h => .inr ?_
      obtain ⟨next, hnext⟩ := h
      exact ⟨next, hnext, by simp⟩
  | records selectors =>
    rw [disconnect_records]
    refine .ite (fun _ => .throw) fun _ => ?_
    exact .each (I := fun _ => True) hT trivial fun selector _ T' hT' _ =>
      recounts_letGo hheld hT' parent selector

theorem recounts_connect (hT : s.Holds κ T) {parent : Row}
    (hlink : (r.childLink parent).Lists (fun n f v => v.within (κ n f)) target.name)
    (selector : Filter) :
    Recounts s κ updating T (connect s r target parent selector) (traceConnect s r target parent selector)
      fun _ _ => True := by
  have hwrite {T' : Tables} (hT' : s.Holds κ T') {child : Row} (hchild : child.Within (κ target.name))
      (hcurrent : target.KeyAlone → T'.HasLike r target child) :
      Recounts s κ updating T' (link r target parent child) (traceLink r target parent child)
        fun _ _ => True := by
    have hobeys : Row.Obeys (fun n f v => v.within (κ n f)) target.name child := hchild
    refine .mark (Triple.mono (rekeyed_touch hT' hheld (hobeys.insertAll hlink) (fun f hf _ => ?_)
      hcurrent) (fun _ h => h) (fun _ w h => ?_) fun _ _ h => h)
    · exact Relation.value_childLink_of_notMem hf
    · obtain ⟨hholds, next, hnext, hsame⟩ := h
      refine ⟨.connected hnext fun f hf hstamp => (hsame f hstamp).trans ?_, hholds, trivial⟩
      exact Relation.value_childLink ((Relation.isSome_get?_childLink (hheld.length_far hs)).2 hf)
  rw [connect_eq]
  refine .after (still_findToConnect s r target selector) fun child hchild => ?_
  obtain ⟨hchild, -⟩ := hchild
  have hwithin := hT.within hchild
  refine .ite (fun _ => .after (still_relatedRows hs r parent) fun rows hrows => ?_)
    fun _ => hwrite hT hwithin fun _ => ⟨child, hchild, rfl, fun _ _ _ => rfl⟩
  rw [← hheld.name] at hrows
  -- The child was read before the others make way, so it has to outlast their writes.
  refine .bind hT (recounts_eachUnlinked hs hheld hT [child] hrows (by simpa using hchild)
    fun row hrow T' hT' hcurrent => ?_) fun _ T' hT' h => ?_
  · refine .ite (fun hother => ?_) fun _ => .pure (.inl rfl)
    refine .mono (recounts_unlink hheld hT' (hT.within (hrows row hrow)) hcurrent) fun _ _ h => .inr ?_
    obtain ⟨next, hnext⟩ := h
    refine ⟨next, hnext, List.forall_mem_singleton.2 fun heq => ?_⟩
    rw [Key.equiv_iff.2 heq] at hother
    cases hother
  · exact hwrite hT' hwithin fun halone => h halone child (by simp)

end

/-! ### Rows that are made -/

/-- The link is written after the data, and is not taken for absent. -/
theorem still_fillLinked (hs : s.Resolved) (hheld : s.Held r target) (parent given : Row) :
    Still T (fillDefaults s target (given.insertAll (r.childLink parent))) fun row =>
      s.MadeFor r target parent row := by
  have hlinked (f : String) : f ∈ r.far ↔ ∃ v, (r.childLink parent).get? f = some v :=
    (Relation.isSome_get?_childLink (hheld.length_far hs)).symm.trans Option.isSome_iff_exists
  -- A null of the link counts as written: it is not filled in, and refused where a value is needed.
  have heach := still_fillDefaults_each (T := T) hs hheld.child (given.insertAll (r.childLink parent))
    (D := fun f v' => ∀ v, (r.childLink parent).get? f.name = some v →
      (v.isNull = false → v' = v) ∧ ((f.required || f.id) = true → v'.isNull = false))
    fun f _ time => by
      cases hget : (r.childLink parent).get? f.name with
      | none => exact (still_complete f time _).mono (fun _ _ => by simp) fun _ h => h
      | some v =>
        rw [Relation.get?_insertAll_childLink, hget, Option.some_or]
        exact (still_complete_written f time v).mono (fun _ h _ hv => Option.some.inj hv ▸ h) fun _ h => h
  refine heach.mono (fun row hrow => ⟨hheld, fun f hpresent => ?_, fun f hf hneeded => ?_⟩) fun _ h => h
  · cases hget : (r.childLink parent).get? f with
    | none =>
      rw [Row.value, hget] at hpresent
      cases hpresent
    | some v =>
      obtain ⟨g, hg⟩ := Option.isSome_iff_exists.1 (hheld.isSome_field? hs ((hlinked f).2 ⟨v, hget⟩))
      obtain rfl : g.name = f := by simpa using List.find?_some hg
      have hvalue : (r.childLink parent).value g.name = v := by rw [Row.value, hget]; rfl
      rw [hvalue] at hpresent ⊢
      exact (hrow g (List.mem_of_find?_eq_some hg) v hget).1 hpresent
  · obtain ⟨g, hg, hrequired⟩ := (Option.any_eq_true _ _).1 hneeded
    obtain ⟨v, hv⟩ := (hlinked f).1 hf
    obtain rfl : g.name = f := by simpa using List.find?_some hg
    exact (hrow g (List.mem_of_find?_eq_some hg) v hv).2 hrequired

section
variable (hs : s.Resolved) (hkinds : s.KeysOfKinds)
include hs hkinds

set_option linter.unusedSectionVars false in
mutual

theorem recounts_create {e : Entity} (he : s.entity? e.name = some e) {T : Tables} (hT : s.Holds κ T)
    {origin : Option (Relation × Row)} {link : Row}
    (hlink : link.Lists (fun n f v => v.within (κ n f)) e.name)
    (horigin : ∀ p ∈ origin, s.Held p.1 e ∧ link = p.1.childLink p.2) : ∀ d : WriteData,
    Recounts s κ updating T (create s e link d) (traceCreate s e origin link d)
      fun row _ => row.Within (κ e.name)
  | ⟨fields⟩ => by
    rw [create, traceCreate]
    have hV := s.admits_within hs hkinds hT.classes
    refine .bind hT (recounts_createFields he hT (.empty hV.null) fields) fun given T₁ hT₁ hgiven => ?_
    have hrow : Row.Obeys (fun n f v => v.within (κ n f)) e.name (given.insertAll link) :=
      hgiven.insertAll hlink
    refine .after (carries_checkForeignKeys hs (sees_of_holds hT₁) e _ _) fun _ _ => ?_
    have hmade : Still T₁ (fillDefaults s e (given.insertAll link)) fun row =>
        ∀ p ∈ origin, s.MadeFor p.1 e p.2 row := by
      cases origin with
      | none => exact Keeps.mono (still_fillDefaults hs he _) (fun _ _ => by simp) fun _ h => h
      | some p =>
        obtain ⟨hheld, rfl⟩ := horigin p rfl
        exact (still_fillLinked hs hheld p.2 given).mono (fun _ h => by simpa using h) fun _ h => h
    refine .after (hmade.besides (carries_fillDefaults hV.toSupplies (fun _ _ h => h) he hrow))
      fun row hfilled => ?_
    refine .bind hT₁ (recounts_addRow hT₁ he hfilled.2 hfilled.1) fun key T₂ hT₂ _ => ?_
    refine .last hT₂ (recounts_createChildren he hT₂ hfilled.2 fields) fun _ T₃ hT₃ _ => ?_
    exact carries_reread (sees_of_holds hT₃) e key

theorem recounts_createFields {e : Entity} (he : s.entity? e.name = some e) {T : Tables}
    (hT : s.Holds κ T) {row : Row} (hrow : row.Obeys (fun n f v => v.within (κ n f)) e.name) :
    ∀ fields : List (String × FieldWrite),
      Recounts s κ updating T (createFields s e row fields) (traceFields s e row fields)
        fun row _ => row.Obeys (fun n f v => v.within (κ n f)) e.name
  | [] => by
    rw [createFields, traceFields]
    exact .pure hrow
  | (name, write) :: rest => by
    rw [createFields, traceFields]
    refine .bind hT (recounts_createField he hT hrow name write) fun row T₁ hT₁ hrow => ?_
    exact recounts_createFields he hT₁ hrow rest

theorem recounts_createField {e : Entity} (he : s.entity? e.name = some e) {T : Tables}
    (hT : s.Holds κ T) {row : Row} (hrow : row.Obeys (fun n f v => v.within (κ n f)) e.name)
    (name : String) : ∀ write : FieldWrite,
      Recounts s κ updating T (createField s e row name write) (traceField s e name write)
        fun row _ => row.Obeys (fun n f v => v.within (κ n f)) e.name
  | .literal literal => by
    rw [createField, traceField]
    have hV := s.admits_within hs hkinds hT.classes
    exact .still (carries_writeLiteral hV.toSupplies he hrow name literal) fun _ h => h
  | .update op => by
    rw [createField, traceField]
    have hV := s.admits_within hs hkinds hT.classes
    exact .still (carries_writeUpdate hV.toSupplies he hrow name op) fun _ h => h
  | .relation write => by
    rw [createField, traceField]
    have hV := s.admits_within hs hkinds hT.classes
    refine .after (carries_relationToWrite e name) fun r hr => ?_
    refine .ite (fun howning => .ite (fun _ => .throw) fun _ => ?_) fun _ => .pure hrow
    refine .last hT (recounts_resolveParent hT r write) fun parent T₁ _ hparent => Keeps.pure ?_
    exact Relation.obeys_linkTo hV he (List.mem_filter.2 ⟨hr, howning⟩) hparent hrow

theorem recounts_resolveParent {T : Tables} (hT : s.Holds κ T) (r : Relation) :
    ∀ write : NestedWrite,
      Recounts s κ updating T (resolveParent s r write) (traceParent s r write)
        fun row _ => row.Obeys (fun n f v => v.within (κ n f)) r.target
  | ⟨[data], [], _, _, _⟩ => by
    rw [resolveParent, traceParent]
    refine .after (carries_require hs r.target) fun target htarget => ?_
    rw [← htarget.2]
    exact recounts_create htarget.1 hT .empty (by simp) data
  | ⟨[], [selector], _, _, _⟩ => by
    rw [resolveParent, traceParent]
    · refine .still (Keeps.bind (carries_require hs r.target) fun target htarget => ?_) fun _ h => h
      rw [← htarget.2]
      exact carries_findToConnect (sees_of_holds hT) r target selector
    · simp
  | ⟨[], [], _, _, _⟩ | ⟨[], _ :: _ :: _, _, _, _⟩ | ⟨[_], _ :: _, _, _, _⟩
  | ⟨_ :: _ :: _, _, _, _, _⟩ => by
    rw [resolveParent, traceParent] <;> try simp
    refine .still (P := fun _ => False) ?_ fun _ h => h.elim
    exact Keeps.andThen (Keeps.discard (carries_require hs r.target)) fun _ => Keeps.throw trivial

theorem recounts_createChildren {e : Entity} (he : s.entity? e.name = some e) {T : Tables}
    (hT : s.Holds κ T) {parent : Row} (hparent : parent.Within (κ e.name)) :
    ∀ fields : List (String × FieldWrite),
      Recounts s κ updating T (createChildren s e parent fields) (traceChildren s e parent fields)
        fun _ _ => True
  | [] => by
    rw [createChildren, traceChildren]
    exact .pure trivial
  | (name, write) :: rest => by
    rw [createChildren, traceChildren]
    refine .bind hT (recounts_createChild he hT hparent name write) fun _ T₁ hT₁ _ => ?_
    exact recounts_createChildren he hT₁ hparent rest

theorem recounts_createChild {e : Entity} (he : s.entity? e.name = some e) {T : Tables}
    (hT : s.Holds κ T) {parent : Row} (hparent : parent.Within (κ e.name)) (name : String) :
    ∀ write : FieldWrite,
      Recounts s κ updating T (createChild s e parent name write) (traceChild s e parent name write)
        fun _ _ => True
  | .literal _ => by
    rw [createChild, traceChild]
    exact .pure trivial
  | .update _ => by
    rw [createChild, traceChild]
    exact .pure trivial
  | .relation write => by
    rw [createChild, traceChild]
    refine .after (carries_relationToWrite e name) fun r hr => ?_
    refine .ite (fun howning => ?_) fun _ => .pure trivial
    exact recounts_writeChildren he hT hparent hr (by simpa using howning) write

theorem recounts_writeChildren {e : Entity} (he : s.entity? e.name = some e) {T : Tables}
    (hT : s.Holds κ T) {parent : Row} (hparent : parent.Within (κ e.name)) {r : Relation}
    (hr : r ∈ e.relations) (howning : r.isOwning = false) : ∀ write : NestedWrite,
      Recounts s κ updating T (writeChildren s e r parent write) (traceNested s e r parent write)
        fun _ _ => True
  | ⟨created, connected, _, batch, released⟩ => by
    rw [writeChildren, traceNested]
    have hV := s.admits_within hs hkinds hT.classes
    refine .after (carries_require hs r.target) fun target htarget => ?_
    have hheld : s.Held r target := ⟨htarget.1, htarget.2, howning, e, he, hr⟩
    have hlink := Relation.lists_childLink hs hV he hr howning hparent
    rw [← htarget.2] at hlink
    refine .ite (fun _ => .throw) fun _ => ?_
    refine .bind (R := fun _ _ => True) hT ?_ fun _ T₁ hT₁ _ => ?_
    · cases released with
      | none => exact .pure trivial
      | some d => exact recounts_disconnect hs hheld hT e parent d
    · refine .bind hT₁ (recounts_createAll hT₁ hheld hlink created) fun _ T₂ hT₂ _ => ?_
      refine .bind hT₂ (.each (I := fun _ => True) hT₂ trivial fun selector _ T' hT' _ =>
        recounts_connect hs hheld hT' hlink selector) fun _ T₃ hT₃ _ => ?_
      exact recounts_writeBatch hT₃ hheld hlink e batch

theorem recounts_createAll {T : Tables} (hT : s.Holds κ T) {r : Relation} {target : Entity}
    (hheld : s.Held r target) {parent : Row}
    (hlink : (r.childLink parent).Lists (fun n f v => v.within (κ n f)) target.name) :
    ∀ rows : List WriteData,
      Recounts s κ updating T (createAll s target (r.childLink parent) rows)
        (traceAll s target r parent rows) fun _ _ => True
  | [] => by
    rw [createAll, traceAll]
    exact .pure trivial
  | data :: rest => by
    rw [createAll, traceAll]
    refine .bind hT (.discard hT (recounts_create hheld.child hT hlink (by simpa using hheld) data))
      fun _ T₁ hT₁ _ => ?_
    exact recounts_createAll hT₁ hheld hlink rest

theorem recounts_writeBatch {T : Tables} (hT : s.Holds κ T) {r : Relation} {target : Entity}
    (hheld : s.Held r target) {parent : Row}
    (hlink : (r.childLink parent).Lists (fun n f v => v.within (κ n f)) target.name) (e : Entity) :
    ∀ batch : Option CreateMany,
      Recounts s κ updating T (writeBatch s e r target parent batch)
        (traceBatch s r target parent batch) fun _ _ => True
  | none => by
    rw [writeBatch, traceBatch]
    exact .pure trivial
  | some batch => by
    rw [writeBatch, traceBatch]
    exact recounts_writeMany hT hheld hlink e batch

theorem recounts_writeMany {T : Tables} (hT : s.Holds κ T) {r : Relation} {target : Entity}
    (hheld : s.Held r target) {parent : Row}
    (hlink : (r.childLink parent).Lists (fun n f v => v.within (κ n f)) target.name) (e : Entity) :
    ∀ batch : CreateMany,
      Recounts s κ updating T (writeMany s e r target parent batch)
        (traceMany s r target parent batch) fun _ _ => True
  | ⟨rows, skip⟩ => by
    rw [writeMany, traceMany]
    exact .ite (fun _ => .throw) fun _ => recounts_createBatch hT hheld hlink skip rows

theorem recounts_createBatch {T : Tables} (hT : s.Holds κ T) {r : Relation} {target : Entity}
    (hheld : s.Held r target) {parent : Row}
    (hlink : (r.childLink parent).Lists (fun n f v => v.within (κ n f)) target.name) (skip : Bool) :
    ∀ rows : List WriteData,
      Recounts s κ updating T (createBatch s target (r.childLink parent) skip rows)
        (traceRows s target r parent skip rows) fun _ _ => True
  | [] => by
    rw [createBatch, traceRows]
    exact .pure trivial
  | data :: rest => by
    rw [createBatch, traceRows]
    refine .ite (fun _ => .throw) fun _ => ?_
    refine .bind hT (.discard hT (.skipDuplicate (recounts_create hheld.child hT hlink
      (by simpa using hheld) data) skip)) fun _ T₁ hT₁ _ => ?_
    exact recounts_createBatch hT₁ hheld hlink skip rest

end

end

end Operation

end RelationalStore

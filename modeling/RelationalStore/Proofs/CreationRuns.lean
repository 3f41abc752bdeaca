import RelationalStore.Proofs.WriteRuns

/- Creating rows with all that is written through their relations. Each part goes on to tables in
   which its planned rows have been made, and gives or leaves behind rows that are known there. A
   foreign key comes from a row that is known, from a value that is checked, or is null; so none
   comes to dangle. The rows that are there already are rewritten by connecting them and letting
   them go, as far as the payload says. -/
namespace RelationalStore
open SortedMap Read

/-! ### Links between rows -/

namespace Relation
variable {r o : Relation} {parent row : Row} {f : String}

/-- The values that a row takes over from the row it references. -/
theorem get?_linkTo : (r.linkTo parent row).get? f =
    ((SortedMap.ofList ((r.near.zip r.far).map fun p => (p.1, parent.value p.2))).get? f).or
      (row.get? f) := by
  rw [← get?_foldl_insert, List.foldl_map]
  rfl

theorem isSome_get?_linkTo (hlen : r.near.length = r.far.length) :
    ((r.linkTo parent row).get? f).isSome ↔ f ∈ r.near ∨ (row.get? f).isSome := by
  have hkeys : ((r.near.zip r.far).map fun p => (p.1, parent.value p.2)).map (·.1) = r.near := by
    rw [List.map_map]
    exact List.map_fst_zip (Nat.le_of_eq hlen)
  rw [get?_linkTo, Option.isSome_or, Bool.or_eq_true, isSome_get?_ofList, hkeys]

theorem value_linkTo_of_notMem (h : f ∉ r.near) : (r.linkTo parent row).value f = row.value f := by
  have hnone : (SortedMap.ofList ((r.near.zip r.far).map fun p => (p.1, parent.value p.2))).get? f =
      none := by
    rw [← Option.not_isSome_iff_eq_none, isSome_get?_ofList, List.map_map]
    intro hmem
    obtain ⟨p, hp, rfl⟩ := List.mem_map.1 hmem
    exact h (List.of_mem_zip hp).1
  rw [Row.value, get?_linkTo, hnone]
  rfl

/-- The foreign key becomes the key of the row that is referenced. -/
theorem ofRow_linkTo (hdistinct : r.near.Nodup) (hlen : r.near.length = r.far.length) :
    Key.ofRow r.near (r.linkTo parent row) = Key.ofRow r.far parent := by
  have hnear : r.near = (r.near.zip r.far).map Prod.fst := (List.map_fst_zip (Nat.le_of_eq hlen)).symm
  have hnodup : (((r.near.zip r.far).map fun p => (p.1, parent.value p.2)).map Prod.fst).Nodup := by
    rw [List.map_map]
    rwa [hnear] at hdistinct
  have hvalue : ∀ p ∈ r.near.zip r.far, (r.linkTo parent row).value p.1 = parent.value p.2 := by
    intro p hp
    rw [Row.value, get?_linkTo, get?_ofList_of_mem hnodup (List.mem_map.2 ⟨p, hp, rfl⟩)]
    rfl
  have hfar : r.far = (r.near.zip r.far).map Prod.snd :=
    (List.map_snd_zip (Nat.le_of_eq hlen.symm)).symm
  refine congrArg Key.mk ?_
  calc r.near.map (r.linkTo parent row).value
      = (r.near.zip r.far).map fun p => (r.linkTo parent row).value p.1 := by
        conv_lhs => rw [hnear, List.map_map]
        rfl
    _ = (r.near.zip r.far).map fun p => parent.value p.2 := List.map_congr_left hvalue
    _ = r.far.map parent.value := by
        conv_rhs => rw [hfar, List.map_map]
        rfl

/-- A row that is linked to a parent through the other end of a relation takes over the same. -/
theorem value_insertAll_childLink (hnear : o.near = r.far) (hfar : o.far = r.near) :
    Row.value (row.insertAll (r.childLink parent)) f = (o.linkTo parent row).value f := by
  have hlink : r.childLink parent =
      SortedMap.ofList ((o.near.zip o.far).map fun p => (p.1, parent.value p.2)) := by
    rw [hnear, hfar]
    rfl
  rw [Row.value, Row.value, hlink, get?_insertAll (ordered_ofList _), get?_linkTo]

theorem mem_far_of_childLink (h : ((r.childLink parent).get? f).isSome) : f ∈ r.far := by
  rw [childLink, isSome_get?_ofList, List.map_map] at h
  obtain ⟨p, hp, rfl⟩ := List.mem_map.1 h
  exact (List.of_mem_zip hp).1

theorem isSome_get?_childLink (hlen : r.near.length = r.far.length) :
    ((r.childLink parent).get? f).isSome ↔ f ∈ r.far := by
  have hkeys : ((r.far.zip r.near).map fun p => (p.1, parent.value p.2)).map (·.1) = r.far := by
    rw [List.map_map]
    exact List.map_fst_zip (Nat.le_of_eq hlen.symm)
  rw [childLink, isSome_get?_ofList, hkeys]

theorem get?_insertAll_childLink : SortedMap.get? (row.insertAll (r.childLink parent)) f =
    ((r.childLink parent).get? f).or (row.get? f) :=
  get?_insertAll (ordered_ofList _)

/-- What the link has takes the place of what the row has. -/
theorem value_childLink (h : ((r.childLink parent).get? f).isSome) :
    Row.value (row.insertAll (r.childLink parent)) f = (r.childLink parent).value f := by
  rw [Row.value, get?_insertAll_childLink, Option.or_of_isSome h, Row.value]

theorem value_childLink_of_notMem (h : f ∉ r.far) :
    Row.value (row.insertAll (r.childLink parent)) f = row.value f := by
  have hnone : (r.childLink parent).get? f = none :=
    Option.not_isSome_iff_eq_none.1 (mt mem_far_of_childLink h)
  rw [Row.value, get?_insertAll_childLink, hnone]
  rfl

end Relation

/-- The foreign key of a row that is linked to a parent. -/
theorem Schema.Held.ofRow_childLink {s : Schema} {r : Relation} {target : Entity} (h : s.Held r target)
    (hs : s.Resolved) (hdistinct : r.far.Nodup) (parent row : Row) :
    Key.ofRow r.far (row.insertAll (r.childLink parent)) = Key.ofRow r.near parent := by
  obtain ⟨o, ho, hnear, hfar⟩ := h.exists_owner hs
  obtain ⟨-, hlen, -⟩ := hs.key h.child o ho
  calc Key.ofRow r.far (row.insertAll (r.childLink parent))
      = Key.ofRow o.near (o.linkTo parent row) := by
        rw [hnear]
        exact Key.ofRow_eq fun f _ => Relation.value_insertAll_childLink hnear hfar
    _ = Key.ofRow o.far parent := Relation.ofRow_linkTo (by rwa [hnear]) hlen
    _ = Key.ofRow r.near parent := by rw [hfar]

namespace Operation
variable {c : Course} {T : Tables} {e target : Entity}

/-- Where a key is taken over from a known row, a foreign key that agrees with that is left alone or
references the row. -/
theorem spared_or_sound_of_link (he : c.schema.entity? e.name = some e) {o r : Relation}
    (hguarded : c.Guarded e r) (hagrees : o.Agrees r)
    (ht : c.schema.entity? target.name = some target) (htarget : target.name = o.target)
    {parent row x : Row} (hparent : c.Known T target parent)
    (hvalue : ∀ f, row.value f = (o.linkTo parent x).value f) :
    (∀ f ∈ r.near, row.value f = x.value f) ∨ ¬ T.Dangles r row := by
  rcases hagrees with hapart | ⟨hdistinct, hnear, hfar, hsame⟩
  · exact .inl fun f hf => (hvalue f).trans (Relation.value_linkTo_of_notMem (hapart f hf))
  · refine .inr fun hdangles => ?_
    obtain ⟨-, hlen, -⟩ := c.resolved.key he r hguarded.owning
    have hkey : Key.ofRow r.near row = Key.ofRow r.far parent := by
      rw [Key.ofRow_eq fun f _ => hvalue f, ← hnear, ← hfar]
      exact Relation.ofRow_linkTo (by rwa [hnear]) (by rwa [hnear, hfar])
    obtain ⟨p, hp, hbecomes⟩ := hparent.there
    have hname : target.name = r.target := by rw [htarget, hsame]
    refine hdangles.2 p (by rwa [← hname]) ?_
    rw [Relation.Refers, hkey]
    exact hguarded.anchored.keeps (by rw [← hname, ht]) hbecomes

/-! ### Rows that reference a parent -/

section
variable (hT : c.Writing T) (ht : c.schema.entity? target.name = some target)
include hT ht

/-- A row that was read is written back with other values in fields that may change, if its foreign
keys are as they were or reference a row. -/
theorem goes_rewrite {child row : Row} (hchild : c.Known T target child)
    (hrow : row.Within (c.classes target.name))
    (hsame : ∀ f, ¬ c.fluid target.name f → row.value f = child.value f)
    (hstamps : ∀ f ∈ target.stamps, c.fluid target.name f)
    (hkeys : ∀ r, c.Guarded target r →
      (∀ f ∈ r.near, row.value f = child.value f) ∨ ¬ T.Dangles r row) :
    c.Goes T [] (touch target row >>= changeRow target) fun _ _ => True := by
  refine .after hT (still_touch target row) fun touched htouched => ?_
  obtain ⟨time, hvalue⟩ := htouched
  have hplain {f : String} (hf : f ∉ target.stamps) : touched.value f = row.value f := by
    rw [hvalue, if_neg hf]
  have hlasting (f : String) (hf : ¬ c.fluid target.name f) : touched.value f = child.value f :=
    (hplain fun hstamp => hf (hstamps f hstamp)).trans (hsame f hf)
  refine Course.Goes.mono (goes_changeRow hT ht (hchild.storable ht (fun f => ?_) hlasting ?_) ?_)
    fun _ _ _ => trivial
  · rw [hvalue]
    split
    · rfl
    · exact hrow f
  · intro r hguarded
    have hnear : ∀ f ∈ r.near, touched.value f = row.value f := fun f hf =>
      hplain (hguarded.unstamped f hf)
    rcases hkeys r hguarded with hkey | hsound
    · exact .inl fun f hf => (hnear f hf).trans (hkey f hf)
    · exact .inr fun hdangles => hsound (hdangles.congr (Key.ofRow_eq hnear))
  · obtain ⟨y, hy, -, hthere⟩ := hchild.there
    exact ⟨y, hy, fun f hf => (hlasting f hf).trans (hthere f hf).symm⟩

/-- Each of the rows that were read, which are known while the others are written. -/
theorem goes_forEach {rows : List Row} {f : Row → Operation Unit}
    (hrows : ∀ row ∈ rows, T.Has target.name row)
    (hf : ∀ row ∈ rows, ∀ T', c.Writing T' → c.Known T' target row →
      c.Goes T' [] (f row) fun _ _ => True) :
    c.Goes T [] (rows.forM f) fun _ _ => True := by
  refine Course.Goes.forM (I := fun _ => True) hT trivial fun row hrow T' hT' hTT' _ => ?_
  exact hf row hrow T' hT' ((hT.known ht (hrows row hrow)).later c.resolved c.kinds ht hT.holds
    hT'.holds hTT')

variable {r : Relation} (htarget : target.name = r.target)
  (hfluid : ∀ f, f ∈ r.far ∨ c.schema.Stamps target.name f → c.fluid target.name f)
include hfluid

theorem goes_unlink {child : Row} (hchild : c.Known T target child) :
    c.Goes T [] (unlink r target child) fun _ _ => True := by
  simp only [unlink]
  split
  · exact .throw hT
  · have hvalue := Row.value_foldl_null r.far child
    refine goes_rewrite hT ht hchild (fun f => ?_) (fun f hf => ?_) (fun f hf => ?_)
      fun o _ => ?_
    · rw [hvalue]
      split
      · rfl
      · exact hchild.within f
    · rw [hvalue, if_neg fun hfar => hf (hfluid f (.inl hfar))]
    · exact hfluid f (.inr ⟨target, ht, hf⟩)
    · by_cases hshare : ∃ f ∈ o.near, f ∈ r.far
      · -- A part of the key is null now, so it references nothing.
        obtain ⟨f, hf, hfar⟩ := hshare
        refine .inr fun hdangles => ?_
        have hnull := List.any_eq_false.1 hdangles.1 _ (List.mem_map_of_mem hf)
        rw [hvalue, if_pos hfar] at hnull
        exact hnull rfl
      · exact .inl fun f hf => by rw [hvalue, if_neg fun hfar => hshare ⟨f, hf, hfar⟩]

include htarget

theorem goes_disconnect (e : Entity) (parent : Row) (d : Disconnect) :
    c.Goes T [] (disconnect c.schema e r target parent d) fun _ _ => True := by
  have hgiven {T' : Tables} {rows : List Row} (hrows : ∀ row ∈ rows, T'.Has r.target row) :
      ∀ row ∈ rows, T'.Has target.name row := by
    rw [htarget]
    exact hrows
  cases d with
  | flag on =>
    cases on with
    | false => exact .pure hT trivial
    | true =>
      refine .ite (fun _ => .throw hT) fun _ => ?_
      refine .after hT (still_relatedRows c.resolved r parent) fun rows hrows => ?_
      exact goes_forEach hT ht (hgiven hrows) fun row _ T' hT' hrow => goes_unlink hT' ht hfluid hrow
  | records selectors =>
    refine .ite (fun _ => .throw hT) fun _ => ?_
    refine .forM (I := fun _ => True) hT trivial fun selector _ T' hT' _ _ => ?_
    refine .after hT' (still_look c.schema _) fun found hfound => ?_
    obtain ⟨tx, hfound⟩ := hfound
    split
    · exact .pure hT' trivial
    · next child =>
      have hgives := (View.gives_has c.schema T' tx).findUnique target selector
      rw [hfound] at hgives
      refine .ite (fun _ => ?_) fun _ => .pure hT' trivial
      exact goes_unlink hT' ht hfluid (hT'.known ht (hgives child rfl))

variable (he : c.schema.entity? e.name = some e) (hr : r ∈ e.relations) (howning : r.isOwning = false)
include he hr howning

theorem goes_connect (hagrees : ∀ o, c.Guarded target o → (r.backward e.name).Agrees o)
    {parent : Row} (hparent : c.Known T e parent) (selector : Filter) :
    c.Goes T [] (connect c.schema r target parent selector) fun _ _ => True := by
  have hV := c.schema.admits_within c.resolved c.kinds hT.holds.classes
  refine .after hT (still_findToConnect c.schema r target selector) fun child hchild => ?_
  have hwrite {T' : Tables} (hT' : c.Writing T') (hTT' : c.Retains T T') :
      c.Goes T' [] (touch target (child.insertAll (r.childLink parent)) >>= changeRow target)
        fun _ _ => True := by
    have hknown := (hT.known ht hchild.1).later c.resolved c.kinds ht hT.holds hT'.holds hTT'
    have hparent' := hparent.later c.resolved c.kinds he hT.holds hT'.holds hTT'
    refine goes_rewrite hT' ht hknown ?_ (fun f hf => ?_) (fun f hf => ?_) fun o hguarded => ?_
    · have hobeys : c.Obeys target.name child := hknown.within
      refine hobeys.insertAll ?_
      have hlists := Relation.lists_childLink c.resolved hV he hr howning hparent.within
      rwa [← htarget] at hlists
    · exact Relation.value_childLink_of_notMem fun hfar => hf (hfluid f (.inl hfar))
    · exact hfluid f (.inr ⟨target, ht, hf⟩)
    · exact spared_or_sound_of_link ht hguarded (hagrees o hguarded) he rfl hparent'
        fun f => Relation.value_insertAll_childLink rfl rfl
  refine .ite (fun _ => ?_) fun _ => hwrite hT (.refl _ _ T)
  refine .after hT (still_relatedRows c.resolved r parent) fun rows hrows => ?_
  refine .last hT (R := fun _ _ => True) ?_ fun _ T' hT' hTT' _ => hwrite hT' hTT'
  refine goes_forEach hT ht (by rw [htarget]; exact hrows) fun row _ T' hT' hrow => ?_
  exact .ite (fun _ => goes_unlink hT' ht hfluid hrow) fun _ => .pure hT' trivial

end

end Operation

theorem Row.isSome_get?_insert {row : Row} {name f : String} {v : Value} :
    (SortedMap.get? (row.insert name v) f).isSome ↔ (row.get? f).isSome ∨ f = name := by
  rw [get?_insert_eq]
  split
  · next h => simp [h]
  · next h => simp [Ne.symm h]

theorem Row.isSome_get?_insertAll {row link : Row} {f : String} :
    (SortedMap.get? (row.insertAll link) f).isSome ↔ f ∈ link.keys ∨ (row.get? f).isSome := by
  rw [SortedMap.insertAll, SortedMap.get?_foldl_insert, Option.isSome_or, Bool.or_eq_true,
    isSome_get?_ofList]
  rfl

theorem Row.value_insertAll_of_notMem {row link : Row} {f : String} (h : f ∉ link.keys) :
    Row.value (row.insertAll link) f = row.value f := by
  have hnone : (SortedMap.ofList link.entries).get? f = none := by
    rwa [← Option.not_isSome_iff_eq_none, isSome_get?_ofList]
  rw [Row.value, SortedMap.insertAll, SortedMap.get?_foldl_insert, hnone]
  rfl

/-! ### Rows that are made -/

namespace Entity
variable {e : Entity}

/-- What entries of write data make of a row: they give values to fields, and leave null those that
they give none or a null. -/
structure Provides (e : Entity) (fields : List (String × FieldWrite)) (row row' : Row) : Prop where
  given : ∀ f, (row'.get? f).isSome ↔ (row.get? f).isSome ∨ f ∈ e.provided [] fields
  null : ∀ f, f ∉ e.provided [] (fillings fields) → row.value f = .null → row'.value f = .null

theorem coerce_null (e : Entity) (f : FieldDef) : e.coerce f .null = .ok .null := by
  simp [coerce, coerceItem, ScalarKind.coerce, ScalarKind.coerceWith, Json.isNull, Except.mapError]

namespace Provides
variable {row row₁ row₂ : Row} {name : String}

theorem nil (row : Row) : e.Provides [] row row :=
  ⟨fun f => by simp [provided, writtenFields, links], fun _ _ h => h⟩

theorem cons {entry : String × FieldWrite} {rest : List (String × FieldWrite)}
    (h : e.Provides [entry] row row₁) (h' : e.Provides rest row₁ row₂) :
    e.Provides (entry :: rest) row row₂ where
  given f := by
    rw [h'.given, h.given, or_assoc, ← mem_provided_append, List.singleton_append]
  null f hf hnull := by
    rw [fillings_cons, mem_provided_append, not_or] at hf
    exact h'.null f hf.2 (h.null f hf.1 hnull)

/-- A literal is written to a field. -/
theorem insert {write : FieldWrite} {literal : Json} {g : FieldDef} {v : Value}
    (hname : e.field? name = some g) (hwrite : write.newLiteral? = some literal)
    (hv : e.coerce g literal = .ok v) : e.Provides [(name, write)] row (row.insert name v) := by
  have hnone : e.link? (name, write) = none := by
    cases write with
    | relation => cases hwrite
    | _ => rfl
  have hsome : (e.field? name).isSome := by rw [hname]; rfl
  refine ⟨fun f => ?_, fun f hf hnull => ?_⟩
  · rw [Row.isSome_get?_insert, mem_provided_written hsome hnone]
  · rw [Row.value, get?_insert_eq]
    split
    · next heq =>
      by_cases hempty : literal.isNull = true
      · obtain rfl : literal = .null := by
          cases literal with
          | null => rfl
          | _ => simp [Json.isNull] at hempty
        rw [e.coerce_null g] at hv
        cases hv
        rfl
      · refine absurd ((mem_provided_written hsome hnone).2 heq.symm) ?_
        rwa [fillings, List.filter_cons_of_pos (by simp [hwrite, hempty]), List.filter_nil] at hf
    · exact hnull

/-- A key is taken over. -/
theorem linkTo {r : Relation} {write : NestedWrite} {parent : Row} (hname : e.field? name = none)
    (hr : e.relation? name = some r) (howning : r.isOwning = true)
    (hlen : r.near.length = r.far.length) :
    e.Provides [(name, .relation write)] row (r.linkTo parent row) := by
  refine ⟨fun f => ?_, fun f hf hnull => ?_⟩
  · rw [Relation.isSome_get?_linkTo hlen, mem_provided_relation hname hr, or_comm]
    simp [howning]
  · rw [Relation.value_linkTo_of_notMem fun hnear => hf ?_, hnull]
    exact (mem_provided_relation hname hr).2 ⟨howning, hnear⟩

/-- Rows at the other end are none of the row itself. -/
theorem other {r : Relation} {write : NestedWrite} (hname : e.field? name = none)
    (hr : e.relation? name = some r) (howning : r.isOwning ≠ true) :
    e.Provides [(name, .relation write)] row row :=
  ⟨fun f => by simp [mem_provided_relation hname hr, howning], fun _ _ h => h⟩

variable {fields : List (String × FieldWrite)} {link : Row} {f : String}

/-- What comes from a parent is put on top of what write data make of nothing. -/
theorem given_insertAll (h : e.Provides fields ∅ row) (hf : f ∈ e.provided link.keys fields) :
    (SortedMap.get? (row.insertAll link) f).isSome := by
  rw [mem_provided] at hf
  exact Row.isSome_get?_insertAll.2 (hf.imp_right fun hf => (h.given f).2 (.inr hf))

theorem null_insertAll (h : e.Provides fields ∅ row)
    (hf : f ∉ e.provided link.keys (fillings fields)) : Row.value (row.insertAll link) f = .null := by
  rw [mem_provided, not_or] at hf
  rw [Row.value_insertAll_of_notMem hf.1]
  exact h.null f hf.2 rfl

end Provides

end Entity

/-- A write through a relation rewrites only fields that may change, and vouches for all foreign keys
for which the payload does. -/
structure Schema.Flows (s : Schema) (vouched : String → Relation → Prop)
    (fluid : String → String → Prop) (p : PayloadPart) : Prop where
  relinks : ∀ n f, s.Relinks p n f → fluid n f
  vouches : ∀ n r, vouched n r → p.Vouches s n r

theorem Schema.Flows.mono {s : Schema} {vouched : String → Relation → Prop}
    {narrow fluid : String → String → Prop} {p : PayloadPart} (h : s.Flows vouched narrow p)
    (hle : ∀ n f, narrow n f → fluid n f) : s.Flows vouched fluid p :=
  ⟨fun n f hf => hle n f (h.relinks n f hf), h.vouches⟩

/-- A part vouches for the rows that it creates. -/
theorem Schema.Flows.rows {s : Schema} {vouched : String → Relation → Prop}
    {fluid : String → String → Prop} {p : PayloadPart} (h : s.Flows vouched fluid p) {t : Entity}
    (ht : s.entity? t.name = some t) (hname : t.name = p.relation.target) {data : WriteData}
    (hdata : data ∈ p.write.create ∨ data ∈ p.write.createMany.elim [] CreateMany.data)
    (r : Relation) (hr : vouched t.name r) : t.Vouches p.link data r :=
  (h.vouches t.name r hr hname.symm).1 t ht data (List.mem_append.2 hdata)

namespace Course
variable {c : Course} {T T' : Tables} {e : Entity} {row : Row} {settled : Relation → Prop}

/-- Each guarded foreign key of a row that is made does not dangle, unless that is settled otherwise. -/
def Sound (c : Course) (T : Tables) (e : Entity) (row : Row) (settled : Relation → Prop) : Prop :=
  ∀ r, c.Guarded e r → settled r ∨ ¬ T.Dangles r row

/-- The entries of write data that write a value to a part of a foreign key settle it, and those that
take over a key agree with each that is not settled. -/
structure Covers (c : Course) (e : Entity) (fields : List (String × FieldWrite))
    (settled : Relation → Prop) : Prop where
  written : ∀ r, c.Guarded e r → (∃ f ∈ r.near, f ∈ e.writtenFields fields) → settled r
  linked : ∀ r, c.Guarded e r → settled r ∨ ∀ o ∈ e.links fields, o.Agrees r

abbrev Flows (c : Course) (p : PayloadPart) : Prop := c.schema.Flows c.vouched c.fluid p

theorem Covers.mono {fields part : List (String × FieldWrite)} (h : c.Covers e fields settled)
    (hwritten : ∀ f ∈ e.writtenFields part, f ∈ e.writtenFields fields)
    (hlinks : ∀ o ∈ e.links part, o ∈ e.links fields) : c.Covers e part settled where
  written r hr hf := by
    obtain ⟨f, hnear, hf⟩ := hf
    exact h.written r hr ⟨f, hnear, hwritten f hf⟩
  linked r hr := (h.linked r hr).imp_right fun hagrees o ho => hagrees o (hlinks o ho)

theorem Covers.of_cons {entry : String × FieldWrite} {rest : List (String × FieldWrite)}
    (h : c.Covers e (entry :: rest) settled) :
    c.Covers e [entry] settled ∧ c.Covers e rest settled := by
  have hwritten := e.writtenFields_cons entry rest
  have hlinks := e.links_cons entry rest
  exact ⟨h.mono (fun _ hf => hwritten ▸ List.mem_append_left _ hf)
      fun _ ho => hlinks ▸ List.mem_append_left _ ho,
    h.mono (fun _ hf => hwritten ▸ List.mem_append_right _ hf)
      fun _ ho => hlinks ▸ List.mem_append_right _ ho⟩

theorem Sound.empty (he : c.schema.entity? e.name = some e) (T : Tables) : c.Sound T e ∅ settled := by
  intro r hguarded
  obtain ⟨hne, -, -⟩ := c.resolved.key he r hguarded.owning
  obtain ⟨f, hf⟩ := List.exists_mem_of_ne_nil _ hne
  refine .inr fun hdangles => ?_
  exact List.any_eq_false.1 hdangles.1 _ (List.mem_map_of_mem hf) rfl

theorem Sound.later (h : c.Sound T e row settled) (he : c.schema.entity? e.name = some e)
    (hrow : row.Within (c.classes e.name)) (hT : c.Writing T) (hT' : c.Writing T')
    (hTT' : c.Retains T T') : c.Sound T' e row settled := by
  intro r hguarded
  refine (h r hguarded).imp_right fun hsound hdangles => hsound ?_
  exact hTT'.dangles c.resolved c.kinds he hT.holds hT'.holds hguarded.owning hguarded.anchored hrow
    hdangles

/-- Fields are written. -/
theorem Sound.write (h : c.Sound T e row settled) {row' : Row} (names : List String)
    (hsame : ∀ f, f ∉ names → row'.value f = row.value f)
    (hsettled : ∀ r, c.Guarded e r → (∃ f ∈ r.near, f ∈ names) → settled r) :
    c.Sound T e row' settled := by
  intro r hguarded
  by_cases hnames : ∃ f ∈ r.near, f ∈ names
  · exact .inl (hsettled r hguarded hnames)
  · refine (h r hguarded).imp_right fun hsound hdangles => hsound (hdangles.congr ?_)
    exact Key.ofRow_eq fun f hf => hsame f fun hmem => hnames ⟨f, hf, hmem⟩

theorem Sound.insert (h : c.Sound T e row settled) {name : String} {write : FieldWrite} {g : FieldDef}
    (hname : e.field? name = some g) (hcovers : c.Covers e [(name, write)] settled) (v : Value) :
    c.Sound T e (row.insert name v) settled := by
  refine h.write [name] (fun f hf => ?_) fun r hguarded hnames => ?_
  · rw [Row.value, get?_insert_of_ne fun heq => hf (by simp [heq])]
    rfl
  · refine hcovers.written r hguarded ?_
    simpa [Entity.writtenFields, hname] using hnames

/-- A foreign key is taken over from a row that is known. -/
theorem Sound.linkTo (h : c.Sound T e row settled) (he : c.schema.entity? e.name = some e)
    {o : Relation} (hagrees : ∀ r, c.Guarded e r → settled r ∨ o.Agrees r) {t : Entity}
    (ht : c.schema.entity? t.name = some t) (htarget : t.name = o.target) {parent : Row}
    (hparent : c.Known T t parent) : c.Sound T e (o.linkTo parent row) settled := by
  intro r hguarded
  rcases hagrees r hguarded with hsettled | hagrees
  · exact .inl hsettled
  · rcases Operation.spared_or_sound_of_link (x := row) he hguarded hagrees ht htarget hparent
      fun _ => rfl with hspared | hsound
    · exact (h r hguarded).imp_right fun hsound hdangles =>
        hsound (hdangles.congr (Key.ofRow_eq hspared))
    · exact .inr hsound

/-- What a payload vouches for is settled by what it writes or leaves open, or agrees with what it
takes over. -/
theorem Covers.of_vouches {link : List String} {data : WriteData}
    (h : ∀ r, c.vouched e.name r → e.Vouches link data r) : c.Covers e data.fields fun r =>
      e.Writes link data.fields r ∨ e.LeavesOpen link data.fields r where
  written r _ hwritten := by
    obtain ⟨f, hf, hmem⟩ := hwritten
    exact .inl ⟨f, hf, List.mem_append_left _ hmem⟩
  linked r hguarded := by
    rcases h r hguarded.vouched with hopen | ⟨-, hwrites | hagrees⟩
    · exact .inl (.inr hopen)
    · exact .inl (.inl hwrites)
    · exact .inr hagrees

/-- What comes from a parent is checked with what the data write. -/
theorem Sound.insertAll {link : Row} {fields : List (String × FieldWrite)}
    (h : c.Sound T e row fun r => e.Writes link.keys fields r ∨ e.LeavesOpen link.keys fields r) :
    c.Sound T e (row.insertAll link) fun r =>
      e.Writes link.keys fields r ∨ e.LeavesOpen link.keys fields r := by
  refine h.write link.keys (fun f hf => Row.value_insertAll_of_notMem hf) fun r _ hwritten => ?_
  obtain ⟨f, hf, hmem⟩ := hwritten
  exact .inl ⟨f, hf, List.mem_append_right _ hmem⟩

/-- A row may be stored, with its other fields filled, if its foreign keys are vouched for and those of
which a part was written were checked. -/
theorem Sound.storable {link : List String} {data : WriteData}
    (h : c.Sound T e row fun r => e.Writes link data.fields r ∨ e.LeavesOpen link data.fields r)
    (hvouched : ∀ r, c.vouched e.name r → e.Vouches link data r)
    (hchecked : ∀ r, c.schema.Checkable e r → e.Writes link data.fields r → ¬ T.Dangles r row)
    (hgiven : ∀ f, f ∈ e.provided link data.fields → (row.get? f).isSome)
    (hnull : ∀ f, f ∉ e.provided link (Entity.fillings data.fields) → row.value f = .null)
    (he : c.schema.entity? e.name = some e) {row' : Row} (hrow' : row'.Within (c.classes e.name))
    (hfilled : ∀ f ∈ e.fields, f.Stands (row.get? f.name) → row'.value f.name = row.value f.name) :
    c.Storable T e row' where
  within := hrow'
  excused r hguarded hdangles := by
    have hstays (g : FieldDef) (hg : g ∈ e.fields) (hnear : g.name ∈ r.near)
        (hstands : g.Plain ∨ g.name ∈ e.provided link data.fields) : g.Stands (row.get? g.name) := by
      refine hstands.imp_right fun hprovided => .inr ⟨hgiven g.name hprovided, ?_⟩
      refine Bool.eq_false_iff.2 fun hstamp => hguarded.unstamped g.name hnear ?_
      exact List.mem_map_of_mem (List.mem_filter.2 ⟨hg, hstamp⟩)
    by_cases hopen : e.LeavesOpen link data.fields r
    · -- A part of the key stays null, so it references nothing.
      obtain ⟨g, hg, hnear, hfree, hstands⟩ := hopen
      have hpresent := List.any_eq_false.1 hdangles.1 _ (List.mem_map_of_mem hnear)
      rw [hfilled g hg (hstays g hg hnear hstands), hnull g.name hfree] at hpresent
      exact absurd rfl hpresent
    · obtain ⟨hstands, -⟩ := (hvouched r hguarded.vouched).resolve_left hopen
      have hsound : ¬ T.Dangles r row := (h r hguarded).elim
        (fun hsettled => hchecked r hguarded.toCheckable (hsettled.resolve_right hopen)) id
      refine absurd (hdangles.congr (Key.ofRow_eq fun f hf => ?_)) hsound
      obtain ⟨-, -, hfields⟩ := c.resolved.key he r hguarded.owning
      obtain ⟨g, hg⟩ := Option.isSome_iff_exists.1 (hfields f hf)
      have hname : g.name = f := by simpa using List.find?_some hg
      subst hname
      have hmem := List.mem_of_find?_eq_some hg
      exact hfilled g hmem (hstays g hmem hf (hstands g hmem hf))

end Course

namespace Operation
variable {c : Course}

theorem goes_skipDuplicate {T : Tables} {n : String} {Q : Row → Tables → Prop} (skip : Bool)
    {creation : Operation Row} (h : c.Goes T [(n, false)] creation Q) :
    c.Goes T [(n, skip)] (skipDuplicate skip creation) fun _ _ => True := by
  cases skip with
  | false =>
    exact Triple.skipDuplicate false h (fun _ _ hw => ⟨hw.1, hw.2.1, trivial⟩) fun hskip => by
      cases hskip
  | true =>
    -- What was planned may be left out, as it may be when it fails.
    have hloose : c.Goes T [(n, true)] creation Q :=
      Triple.mono h (fun _ hw => hw) (fun _ _ hw => ⟨hw.1, hw.2.1.loose, hw.2.2⟩) fun _ _ hw => hw
    exact Triple.skipDuplicate true hloose (fun _ _ hw => ⟨hw.1, hw.2.1, trivial⟩)
      fun _ _ _ _ hw => ⟨hw.1, hw.2, trivial⟩

theorem still_writeLiteral {T : Tables} (e : Entity) (row : Row) (name : String) (literal : Json) :
    Still T (writeLiteral e row name literal) fun row' => ∃ g v, e.field? name = some g ∧
      e.coerce g literal = .ok v ∧ row' = row.insert name v := by
  unfold writeLiteral
  split
  · next g hg =>
    exact Keeps.bind (still_ofExcept _) fun v hv => Keeps.pure ⟨g, v, hg, hv, rfl⟩
  · refine Keeps.andThen (Keeps.discard (R := fun _ => True) (Keeps.ofExcept .any)) fun _ => ?_
    exact Keeps.throw trivial

theorem still_writeUpdate {T : Tables} (e : Entity) (row : Row) (name : String) (op : UpdateOp) :
    Still T (writeUpdate e row name op) fun row' => ∃ literal g v, op = .set literal ∧
      e.field? name = some g ∧ e.coerce g literal = .ok v ∧ row' = row.insert name v := by
  unfold writeUpdate
  split
  · next literal _ =>
    refine (still_writeLiteral e row name literal).mono (fun row' hrow' => ?_) fun _ h => h
    obtain ⟨g, v, h⟩ := hrow'
    exact ⟨literal, g, v, rfl, h⟩
  · exact Keeps.throw trivial
  · refine Keeps.andThen (Keeps.discard (R := fun _ => True) (Keeps.ofExcept .any)) fun _ => ?_
    exact Keeps.throw trivial

variable (c) in
/-- The values that each write takes in keep to their columns. -/
theorem upholds_holds : c.schema.Upholds (fun n f v => v.within (c.classes n f))
    fun tables _ => c.Holds tables :=
  c.schema.upholds_holds c.classes

mutual

theorem goes_create {e : Entity} (he : c.schema.entity? e.name = some e) {T : Tables}
    (hT : c.Writing T) {link : Row} (hlink : link.Lists (fun n f v => v.within (c.classes n f)) e.name) :
    ∀ d : WriteData, (∀ p ∈ c.schema.parts e d, c.Flows p) →
      (∀ r, c.vouched e.name r → e.Vouches link.keys d r) →
        c.Goes T (c.schema.creations e d) (create c.schema e link d) fun row T' => c.Known T' e row
  | ⟨fields⟩, hparts, hvouched => by
    rw [Schema.parts] at hparts
    rw [create, Schema.creations]
    have hV := c.schema.admits_within c.resolved c.kinds hT.holds.classes
    have hJ := upholds_holds c
    have hempty : c.Obeys e.name ∅ := .empty fun _ _ => rfl
    have hcovers := Course.Covers.of_vouches hvouched
    refine .bind hT ((goes_createFields he hT hempty (.empty he T) fields hparts hcovers).obeys hT
      (upholds_createFields c.resolved hV hJ he hempty fields)) fun row T₁ hT₁ _ hrow => ?_
    obtain ⟨⟨hsound, hprovides⟩, hrow⟩ := hrow
    have hrow : c.Obeys e.name (row.insertAll link) := hrow.insertAll hlink
    refine .after hT₁ (still_checkForeignKeys c.resolved c.kinds hT₁.holds he hrow _)
      fun _ hchecked => ?_
    refine .after hT₁ ((still_fillDefaults c.resolved he _).obeys hT₁.holds
      (upholds_fillDefaults hV he hrow)) fun filled hfilled => ?_
    have hstorable := hsound.insertAll.storable hvouched hchecked (fun f => hprovides.given_insertAll)
      (fun f => hprovides.null_insertAll) he hfilled.2 hfilled.1
    rw [← List.singleton_append]
    refine .bind hT₁ (goes_addRow hT₁ he hstorable) fun key T₂ hT₂ _ hadded => ?_
    refine .last hT₂ (goes_createChildren he hT₂ (hT₂.known he hadded.1) fields hparts)
      fun _ T₃ hT₃ _ _ => ?_
    refine .still hT₃ (still_reread c.schema e key) fun row hrow => ?_
    obtain ⟨tx, hrow⟩ := hrow
    have hgives := (View.gives_has c.schema T₃ tx).row? e key
    rw [hrow] at hgives
    exact hT₃.known he (hgives row rfl)

theorem goes_createFields {e : Entity} (he : c.schema.entity? e.name = some e) {T : Tables}
    (hT : c.Writing T) {row : Row} (hrow : c.Obeys e.name row) {settled : Relation → Prop}
    (hsound : c.Sound T e row settled) : ∀ fields : List (String × FieldWrite),
    (∀ p ∈ c.schema.fieldsParts e fields, c.Flows p) → c.Covers e fields settled →
      c.Goes T (c.schema.parentCreations e fields) (createFields c.schema e row fields)
        fun row' T' => c.Sound T' e row' settled ∧ e.Provides fields row row'
  | [], _, _ => by
    rw [createFields, Schema.parentCreations]
    exact .pure hT ⟨hsound, .nil row⟩
  | (name, write) :: rest, hparts, hcovers => by
    rw [Schema.fieldsParts] at hparts
    rw [createFields, Schema.parentCreations]
    have hV := c.schema.admits_within c.resolved c.kinds hT.holds.classes
    obtain ⟨hfirst, hrest⟩ := hcovers.of_cons
    refine .bind hT ((goes_createField he hT hrow hsound name write (fun p hp =>
      hparts p (List.mem_append_left _ hp)) hfirst).obeys hT
      (upholds_createField c.resolved hV (upholds_holds c) he hrow name write))
      fun row₁ T₁ hT₁ _ hfield => ?_
    obtain ⟨⟨hsound₁, hprovides⟩, hrow₁⟩ := hfield
    exact .mono (goes_createFields he hT₁ hrow₁ hsound₁ rest (fun p hp =>
      hparts p (List.mem_append_right _ hp)) hrest) fun row₂ T₂ h => ⟨h.1, hprovides.cons h.2⟩

theorem goes_createField {e : Entity} (he : c.schema.entity? e.name = some e) {T : Tables}
    (hT : c.Writing T) {row : Row} (hrow : c.Obeys e.name row) {settled : Relation → Prop}
    (hsound : c.Sound T e row settled) (name : String) : ∀ write : FieldWrite,
    (∀ p ∈ c.schema.fieldParts e name write, c.Flows p) → c.Covers e [(name, write)] settled →
      c.Goes T (c.schema.parentCreation e name write) (createField c.schema e row name write)
        fun row' T' => c.Sound T' e row' settled ∧ e.Provides [(name, write)] row row'
  | .literal literal, _, hcovers => by
    rw [createField, Schema.parentCreation]
    refine .still hT (still_writeLiteral e row name literal) fun row' hrow' => ?_
    obtain ⟨g, v, hname, hv, rfl⟩ := hrow'
    exact ⟨hsound.insert hname hcovers v, .insert hname rfl hv⟩
  | .update op, _, hcovers => by
    rw [createField, Schema.parentCreation]
    refine .still hT (still_writeUpdate e row name op) fun row' hrow' => ?_
    obtain ⟨literal, g, v, rfl, hname, hv, rfl⟩ := hrow'
    exact ⟨hsound.insert hname hcovers v, .insert hname rfl hv⟩
  | .relation write, hparts, hcovers => by
    rw [createField]
    refine .after hT (still_relationToWrite e name) fun r hr => ?_
    obtain ⟨hname, hr⟩ := hr
    rw [Schema.parentCreation_relation hr]
    rw [Schema.fieldParts_relation hr, List.forall_mem_cons] at hparts
    have hmem := List.mem_of_find?_eq_some hr
    by_cases howning : r.isOwning = true
    · rw [if_pos howning, if_pos howning]
      refine .ite (fun _ => .throw hT) fun hsupported => ?_
      have hkept : write.disconnect ≠ some (.flag true) := by
        intro hreleased
        simp [hreleased] at hsupported
      refine .last hT (goes_resolveParent hT howning write hkept hparts.1 hparts.2)
        fun parent T₁ hT₁ hTT₁ hparent => .pure hT₁ ⟨?_, ?_⟩
      · obtain ⟨t, ht, htarget, hparent, -⟩ := hparent
        refine (hsound.later he hrow hT hT₁ hTT₁).linkTo he (fun o hguarded => ?_) ht htarget hparent
        have hlinks := Entity.links_relation hr write
        rw [if_pos howning] at hlinks
        exact (hcovers.linked o hguarded).imp_right fun hagrees =>
          hagrees r (by rw [hlinks]; exact List.mem_singleton_self r)
      · obtain ⟨-, hlen, -⟩ := c.resolved.key he r (List.mem_filter.2 ⟨hmem, howning⟩)
        exact .linkTo hname hr howning hlen
    · rw [if_neg howning, if_neg howning]
      exact .pure hT ⟨hsound, .other hname hr howning⟩

theorem goes_resolveParent {T : Tables} (hT : c.Writing T) {r : Relation} (howning : r.isOwning = true)
    {owner : String} : ∀ write : NestedWrite, write.disconnect ≠ some (.flag true) →
      c.Flows ⟨owner, r, write⟩ → (∀ p ∈ c.schema.nestedParts r write, c.Flows p) →
        c.Goes T (c.schema.ownerCreations r write) (resolveParent c.schema r write)
          fun parent T' => ∃ t, c.schema.entity? t.name = some t ∧ t.name = r.target ∧
            c.Known T' t parent ∧ ∀ selector, write.create = [] → write.connect = [selector] →
              ∃ tx, View.findUnique ⟨c.schema, T, tx⟩ t selector = .ok (some parent)
  | ⟨[data], [], _, _, _⟩, hkept, hflows, hparts => by
    rw [resolveParent]
    refine .after hT (still_ofExcept _) fun target htarget => ?_
    have ht := Option.elim_ok_eq_ok.1 htarget
    have hname := c.resolved.name ht
    rw [Schema.nestedParts_of_entity ht, Schema.rowsParts] at hparts
    rw [Schema.ownerCreations_of_kept ht hkept, Schema.allCreations, Schema.allCreations,
      List.append_nil]
    refine .mono (goes_create (by rw [hname, ht]) hT .empty data (fun p hp => hparts p ?_)
      fun o ho => ?_) fun parent T' hparent => ⟨target, by rw [hname, ht], hname, hparent, by simp⟩
    · exact List.mem_append_left _ (List.mem_append_left _ hp)
    · have hvouches := hflows.rows (by rw [hname, ht]) hname (.inl (List.mem_singleton_self data)) o ho
      rwa [PayloadPart.link, if_pos howning] at hvouches
  | ⟨[], [selector], _, _, _⟩, hkept, _, _ => by
    rw [resolveParent]
    refine .after hT (still_ofExcept _) fun target htarget => ?_
    have ht := Option.elim_ok_eq_ok.1 htarget
    have hname := c.resolved.name ht
    rw [Schema.ownerCreations_of_kept ht hkept, Schema.allCreations]
    refine .still hT (still_findToConnect c.schema r target selector) fun parent hparent => ?_
    refine ⟨target, by rw [hname, ht], hname, hT.known (by rw [hname, ht]) hparent.1, ?_⟩
    intro selector' _ hselector
    cases hselector
    exact hparent.2
  | ⟨[], [], _, _, _⟩, _, _, _ | ⟨[], _ :: _ :: _, _, _, _⟩, _, _, _
  | ⟨[_], _ :: _, _, _, _⟩, _, _, _ | ⟨_ :: _ :: _, _, _, _, _⟩, _, _, _ => by
    rw [resolveParent] <;> try simp
    refine .after hT (Keeps.discard (still_ofExcept _)) fun _ _ => ?_
    exact .throw hT

theorem goes_createChildren {e : Entity} (he : c.schema.entity? e.name = some e) {T : Tables}
    (hT : c.Writing T) {parent : Row} (hparent : c.Known T e parent) :
    ∀ fields : List (String × FieldWrite), (∀ p ∈ c.schema.fieldsParts e fields, c.Flows p) →
      c.Goes T (c.schema.childCreations e fields) (createChildren c.schema e parent fields)
        fun _ _ => True
  | [], _ => by
    rw [createChildren, Schema.childCreations]
    exact .pure hT trivial
  | (name, write) :: rest, hparts => by
    rw [Schema.fieldsParts] at hparts
    rw [createChildren, Schema.childCreations]
    refine .bind hT (goes_createChild he hT hparent name write fun p hp =>
      hparts p (List.mem_append_left _ hp)) fun _ T₁ hT₁ hTT₁ _ => ?_
    exact goes_createChildren he hT₁ (hparent.later c.resolved c.kinds he hT.holds hT₁.holds hTT₁) rest
      fun p hp => hparts p (List.mem_append_right _ hp)

theorem goes_createChild {e : Entity} (he : c.schema.entity? e.name = some e) {T : Tables}
    (hT : c.Writing T) {parent : Row} (hparent : c.Known T e parent) (name : String) :
    ∀ write : FieldWrite, (∀ p ∈ c.schema.fieldParts e name write, c.Flows p) →
      c.Goes T (c.schema.childCreation e name write) (createChild c.schema e parent name write)
        fun _ _ => True
  | .literal _, _ => by
    rw [createChild, Schema.childCreation]
    exact .pure hT trivial
  | .update _, _ => by
    rw [createChild, Schema.childCreation]
    exact .pure hT trivial
  | .relation write, hparts => by
    rw [createChild]
    refine .after hT (still_relationToWrite e name) fun r hr => ?_
    rw [Schema.childCreation_relation hr.2]
    rw [Schema.fieldParts_relation hr.2, List.forall_mem_cons] at hparts
    cases howning : r.isOwning with
    | true => exact .pure hT trivial
    | false =>
      exact goes_writeChildren he hT (List.mem_of_find?_eq_some hr.2) howning hparent write hparts.1
        hparts.2

theorem goes_writeChildren {e : Entity} (he : c.schema.entity? e.name = some e) {T : Tables}
    (hT : c.Writing T) {r : Relation} (hr : r ∈ e.relations) (howning : r.isOwning = false)
    {parent : Row} (hparent : c.Known T e parent) : ∀ write : NestedWrite, c.Flows ⟨e.name, r, write⟩ →
    (∀ p ∈ c.schema.nestedParts r write, c.Flows p) →
      c.Goes T (c.schema.nestedCreations r write) (writeChildren c.schema e r parent write)
        fun _ _ => True
  | ⟨created, connected, _, batch, released⟩, hflows, hparts => by
    rw [writeChildren]
    refine .after hT (still_ofExcept _) fun target htarget => ?_
    have htarget := Option.elim_ok_eq_ok.1 htarget
    have hname := c.resolved.name htarget
    have ht : c.schema.entity? target.name = some target := by rw [hname, htarget]
    rw [Schema.nestedParts_of_entity htarget] at hparts
    rw [Schema.nestedCreations_of_entity htarget]
    have hV := c.schema.admits_within c.resolved c.kinds hT.holds.classes
    have hlink := Relation.lists_childLink c.resolved hV he hr howning hparent.within
    rw [← hname] at hlink
    refine .ite (fun _ => .throw hT) fun _ => ?_
    -- Rows that are there are written to only where some are connected or released.
    have hfluid (h : connected.isEmpty = false ∨ released.isSome = true) (f : String)
        (hf : f ∈ r.far ∨ c.schema.Stamps target.name f) : c.fluid target.name f :=
      hflows.relinks target.name f ⟨howning, h, hname, hf⟩
    have hvouched {data : WriteData} (hdata : data ∈ created ∨ data ∈ batch.elim [] CreateMany.data)
        (o : Relation) (ho : c.vouched target.name o) :
        target.Vouches (r.childLink parent).keys data o := by
      have hheld : c.schema.Held r target := ⟨ht, hname, howning, e, he, hr⟩
      refine (hflows.rows ht hname hdata o ho).congr fun f => ?_
      rw [PayloadPart.link, if_neg (by simp [howning])]
      exact (ordered_ofList _).mem_keys_iff.trans
        (Relation.isSome_get?_childLink (hheld.length_far c.resolved))
    have hrest {T₁ : Tables} (hT₁ : c.Writing T₁) (hTT₁ : c.Retains T T₁) :
        c.Goes T₁ (c.schema.allCreations target created ++ c.schema.batchCreations target batch) (do
          createAll c.schema target (r.childLink parent) created
          connected.forM (connect c.schema r target parent)
          writeBatch c.schema e r target parent batch) fun _ _ => True := by
      refine .bind hT₁ (goes_createAll ht hT₁ hlink created (fun p hp =>
        hparts p (List.mem_append_left _ hp)) fun data hdata => hvouched (.inl hdata))
        fun _ T₂ hT₂ hT₁T₂ _ => ?_
      have hTT₂ := hTT₁.trans hT.holds hT₁.holds hT₂.holds hT₁T₂
      refine .begin hT₂ (R := fun _ _ => True) (.forM (I := fun _ => True) hT₂ trivial
        fun selector hselector T₃ hT₃ hT₂T₃ _ => ?_) fun _ T₄ hT₄ _ _ => ?_
      · have hconnected : connected.isEmpty = false := by
          cases connected with
          | nil => cases hselector
          | cons _ _ => rfl
        have hTT₃ := hTT₂.trans hT.holds hT₂.holds hT₃.holds hT₂T₃
        exact goes_connect hT₃ ht hname (hfluid (.inl hconnected)) he hr howning
          (fun o hguarded => (hflows.vouches target.name o hguarded.vouched hname.symm).2 howning
            hconnected)
          (hparent.later c.resolved c.kinds he hT.holds hT₃.holds hTT₃) selector
      · exact goes_writeBatch ht hT₄ hlink e batch
          (fun p hp => hparts p (List.mem_append_right _ hp)) fun data hdata => hvouched (.inr hdata)
    cases released with
    | none => exact hrest hT (.refl _ _ T)
    | some released =>
      exact .begin hT (goes_disconnect hT ht hname (hfluid (.inr rfl)) e parent released)
        fun _ T₁ hT₁ hTT₁ _ => hrest hT₁ hTT₁

theorem goes_createAll {e : Entity} (he : c.schema.entity? e.name = some e) {T : Tables}
    (hT : c.Writing T) {link : Row} (hlink : link.Lists (fun n f v => v.within (c.classes n f)) e.name) :
    ∀ rows : List WriteData, (∀ p ∈ c.schema.rowsParts e rows, c.Flows p) →
      (∀ data ∈ rows, ∀ r, c.vouched e.name r → e.Vouches link.keys data r) →
        c.Goes T (c.schema.allCreations e rows) (createAll c.schema e link rows) fun _ _ => True
  | [], _, _ => by
    rw [createAll, Schema.allCreations]
    exact .pure hT trivial
  | data :: rest, hparts, hvouched => by
    rw [Schema.rowsParts] at hparts
    rw [createAll, Schema.allCreations]
    refine .bind hT (.discard hT (goes_create he hT hlink data (fun p hp =>
      hparts p (List.mem_append_left _ hp)) (hvouched data List.mem_cons_self)))
      fun _ T₁ hT₁ _ _ => ?_
    exact goes_createAll he hT₁ hlink rest (fun p hp => hparts p (List.mem_append_right _ hp))
      fun data' hdata' => hvouched data' (List.mem_cons_of_mem data hdata')

theorem goes_writeBatch {target : Entity} (ht : c.schema.entity? target.name = some target)
    {T : Tables} (hT : c.Writing T) {r : Relation} {parent : Row}
    (hlink : (r.childLink parent).Lists (fun n f v => v.within (c.classes n f)) target.name)
    (e : Entity) : ∀ batch : Option CreateMany,
    (∀ p ∈ c.schema.batchParts target batch, c.Flows p) →
      (∀ data ∈ batch.elim [] CreateMany.data, ∀ o, c.vouched target.name o →
        target.Vouches (r.childLink parent).keys data o) →
        c.Goes T (c.schema.batchCreations target batch)
          (writeBatch c.schema e r target parent batch) fun _ _ => True
  | none, _, _ => by
    rw [writeBatch, Schema.batchCreations]
    exact .pure hT trivial
  | some batch, hparts, hvouched => by
    rw [Schema.batchParts] at hparts
    rw [writeBatch]
    exact goes_writeMany ht hT hlink e batch hparts hvouched

theorem goes_writeMany {target : Entity} (ht : c.schema.entity? target.name = some target)
    {T : Tables} (hT : c.Writing T) {r : Relation} {parent : Row}
    (hlink : (r.childLink parent).Lists (fun n f v => v.within (c.classes n f)) target.name)
    (e : Entity) : ∀ batch : CreateMany,
    (∀ p ∈ c.schema.createManyParts target batch, c.Flows p) →
      (∀ data ∈ batch.data, ∀ o, c.vouched target.name o →
        target.Vouches (r.childLink parent).keys data o) →
        c.Goes T (c.schema.batchCreations target (some batch))
          (writeMany c.schema e r target parent batch) fun _ _ => True
  | ⟨rows, skip⟩, hparts, hvouched => by
    rw [Schema.createManyParts] at hparts
    rw [writeMany, Schema.batchCreations]
    refine .ite (fun _ => .throw hT) fun _ => ?_
    exact goes_createBatch ht hT hlink skip rows hparts hvouched

theorem goes_createBatch {e : Entity} (he : c.schema.entity? e.name = some e) {T : Tables}
    (hT : c.Writing T) {link : Row} (hlink : link.Lists (fun n f v => v.within (c.classes n f)) e.name)
    (skip : Bool) : ∀ rows : List WriteData, (∀ p ∈ c.schema.rowsParts e rows, c.Flows p) →
      (∀ data ∈ rows, ∀ r, c.vouched e.name r → e.Vouches link.keys data r) →
        c.Goes T (rows.map fun _ => (e.name, skip)) (createBatch c.schema e link skip rows)
          fun _ _ => True
  | [], _, _ => by
    rw [createBatch]
    exact .pure hT trivial
  | data :: rest, hparts, hvouched => by
    rw [Schema.rowsParts] at hparts
    rw [createBatch, List.map_cons, ← List.singleton_append]
    refine .ite (fun _ => .throw hT) fun hplain => ?_
    refine .bind hT (.discard hT (goes_skipDuplicate skip (Q := fun _ _ => True) ?_))
      fun _ T₁ hT₁ _ _ => ?_
    · have hcreated := goes_create he hT hlink data
        (fun p hp => hparts p (List.mem_append_left _ hp)) (hvouched data List.mem_cons_self)
      have hplain : data.writesRelations = false := by simpa using hplain
      have hplan := Schema.creations_of_plain (s := c.schema) (e := e) hplain
      obtain ⟨fields⟩ := data
      rw [Schema.creations, hplan.1, hplan.2, List.nil_append] at hcreated
      exact hcreated.mono fun _ _ _ => trivial
    · exact goes_createBatch he hT₁ hlink skip rest
        (fun p hp => hparts p (List.mem_append_right _ hp))
        fun data' hdata' => hvouched data' (List.mem_cons_of_mem data hdata')

end

end Operation

end RelationalStore

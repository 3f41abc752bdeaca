import RelationalStore.Proofs.Cascades
import RelationalStore.Proofs.PayloadParts

/- Tables to which rows are added and in which rows are put in place of others. Each row is
   retained: it stays under its key, and only fields that may change (`fluid`) do
   (`Schema.Retains`). Where no field of a primary key may change, the keys afterwards are those
   before and those of the rows that were made, which are new (`Schema.Makes`). -/
namespace RelationalStore
open SortedMap

/-! ### Rows that change -/

/-- What may have become of a row: it has its key, and only some of its fields have changed. -/
structure Entity.Becomes (e : Entity) (fluid : String → Prop) (x y : Row) : Prop where
  key : compare (e.keyOf x) (e.keyOf y) = .eq
  same : ∀ f, ¬ fluid f → y.value f = x.value f

theorem Entity.Becomes.refl (e : Entity) (fluid : String → Prop) (x : Row) : e.Becomes fluid x x :=
  ⟨Std.ReflOrd.compare_self, fun _ _ => rfl⟩

theorem Key.ofRow_eq {columns : List String} {x y : Row}
    (h : ∀ f ∈ columns, y.value f = x.value f) : Key.ofRow columns y = Key.ofRow columns x :=
  congrArg Key.mk (List.map_congr_left h)

namespace Schema

/-- No field of a primary key may change. -/
def Steady (s : Schema) (fluid : String → String → Prop) : Prop :=
  ∀ e, s.entity? e.name = some e → ∀ f ∈ e.idFields, ¬ fluid e.name f

/-- Every row is there under its key, and in fields that are not fluid it is as it was. -/
def Retains (s : Schema) (fluid : String → String → Prop) (tables tables' : Tables) : Prop :=
  ∀ e, s.entity? e.name = some e → ∀ x, tables.Has e.name x →
    ∃ y, tables'.Has e.name y ∧ e.Becomes (fluid e.name) x y

/-- The tables have the keys that they had, and those that were made, which are new. -/
structure Makes (s : Schema) (tables : Tables) (made : List (String × Key)) (tables' : Tables) :
    Prop where
  /-- Every key was there before or was made. -/
  known : ∀ e, s.entity? e.name = some e → ∀ y, tables'.Has e.name y →
    (∃ x, tables.Has e.name x ∧ e.keyOf x = e.keyOf y) ∨ (e.name, e.keyOf y) ∈ made
  /-- What was made is there. -/
  there : ∀ m ∈ made, ∃ e y, s.entity? e.name = some e ∧ tables'.Has e.name y ∧
    m = (e.name, e.keyOf y)
  /-- What was made was not there before. -/
  fresh : ∀ e, s.entity? e.name = some e → ∀ k, (e.name, k) ∈ made →
    ∀ x, tables.Has e.name x → compare k (e.keyOf x) ≠ .eq
  /-- Nothing was made twice. -/
  distinct : made.Pairwise fun m m' => m.1 = m'.1 → compare m.2 m'.2 ≠ .eq

end Schema

/-- The row is stored in the table of the entity, in place of the one with its key if there is one. -/
def Entity.Stores (e : Entity) (row : Row) (tables tables' : Tables) : Prop :=
  ∀ n z, tables'.Has n z ↔
    n = e.name ∧ z = row ∨ tables.Has n z ∧ (n = e.name → compare (e.keyOf row) (e.keyOf z) ≠ .eq)

namespace Schema
variable {s : Schema} {κ : String → String → NumberClass} {fluid : String → String → Prop}
  {a b c tables tables' : Tables} {made more : List (String × Key)} {e : Entity} {row : Row}

theorem Holds.fits_keyOf (h : s.Holds κ tables) (hrow : tables.Has e.name row) :
    (e.keyOf row).Fits (κ e.name) e.idFields :=
  (h.within hrow).fits.key

theorem Retains.refl (s : Schema) (fluid : String → String → Prop) (tables : Tables) :
    s.Retains fluid tables tables :=
  fun e _ x hx => ⟨x, hx, .refl e _ x⟩

theorem Retains.trans (ha : s.Holds κ a) (hb : s.Holds κ b) (hc : s.Holds κ c)
    (h : s.Retains fluid a b) (h' : s.Retains fluid b c) : s.Retains fluid a c := by
  intro e he x hx
  obtain ⟨y, hy, hkey, hsame⟩ := h e he x hx
  obtain ⟨z, hz, hkey', hsame'⟩ := h' e he y hy
  refine ⟨z, hz, ?_, fun f hf => (hsame' f hf).trans (hsame f hf)⟩
  exact (Key.compare_isLE_trans (κ e.name) e.idFields).eq_trans (ha.fits_keyOf hx)
    (hb.fits_keyOf hy) (hc.fits_keyOf hz) hkey hkey'

theorem Steady.mono {narrow : String → String → Prop} (h : s.Steady fluid)
    (hle : ∀ n f, narrow n f → fluid n f) : s.Steady narrow :=
  fun b hb f hf hnarrow => h b hb f hf (hle b.name f hnarrow)

/-- Where no key may change the keys stay the very same. -/
theorem Steady.keyOf_eq (h : s.Steady fluid) (he : s.entity? e.name = some e) {x y : Row}
    (hsame : ∀ f, ¬ fluid e.name f → y.value f = x.value f) : e.keyOf y = e.keyOf x :=
  Key.ofRow_eq fun f hf => hsame f (h e he f hf)

/-! ### Keys that are made -/

theorem Makes.nil (s : Schema) (tables : Tables) : s.Makes tables [] tables where
  known _ _ y hy := .inl ⟨y, hy, rfl⟩
  there := by simp
  fresh := by simp
  distinct := .nil

/-- What is made first is there when the rest is made. -/
theorem Makes.append (hsteady : s.Steady fluid) (h : s.Makes a made b) (h' : s.Makes b more c)
    (hab : s.Retains fluid a b) (hbc : s.Retains fluid b c) : s.Makes a (made ++ more) c where
  known e he z hz := by
    rcases h'.known e he z hz with ⟨y, hy, hkey⟩ | hmore
    · rw [← hkey]
      rcases h.known e he y hy with hx | hmade
      · exact .inl hx
      · exact .inr (List.mem_append_left more hmade)
    · exact .inr (List.mem_append_right made hmore)
  there m hm := by
    rcases List.mem_append.1 hm with hm | hm
    · obtain ⟨e, y, he, hy, rfl⟩ := h.there m hm
      obtain ⟨z, hz, -, hsame⟩ := hbc e he y hy
      exact ⟨e, z, he, hz, by rw [hsteady.keyOf_eq he hsame]⟩
    · exact h'.there m hm
  fresh e he k hk x hx := by
    rcases List.mem_append.1 hk with hk | hk
    · exact h.fresh e he k hk x hx
    · obtain ⟨y, hy, -, hsame⟩ := hab e he x hx
      rw [← hsteady.keyOf_eq he hsame]
      exact h'.fresh e he k hk y hy
  distinct := by
    refine List.pairwise_append.2 ⟨h.distinct, h'.distinct, fun m hm m' hm' hname => ?_⟩
    obtain ⟨e, y, he, hy, rfl⟩ := h.there m hm
    have hne := h'.fresh e he m'.2 (by rw [show e.name = m'.1 from hname]; exact hm') y hy
    exact fun heq => hne (Std.OrientedCmp.eq_symm heq)

end Schema

/-! ### Storing a row -/

namespace Entity.Stores
variable {s : Schema} {κ : String → String → NumberClass} {fluid : String → String → Prop}
  {tables tables' : Tables} {e : Entity} {row : Row}

theorem has (h : e.Stores row tables tables') : tables'.Has e.name row := (h _ _).2 (.inl ⟨rfl, rfl⟩)

/-- The row that was replaced, if any, is retained if the new one has its lasting fields. -/
theorem retains (h : e.Stores row tables tables') (he : s.entity? e.name = some e)
    (hsame : ∀ x, tables.Has e.name x → compare (e.keyOf row) (e.keyOf x) = .eq →
      ∀ f, ¬ fluid e.name f → row.value f = x.value f) : s.Retains fluid tables tables' := by
  intro c hc x hx
  by_cases hreplaced : c.name = e.name ∧ compare (e.keyOf row) (e.keyOf x) = .eq
  · obtain ⟨hname, hkey⟩ := hreplaced
    obtain rfl := Schema.entity_inj hc he hname
    exact ⟨row, h.has, Std.OrientedCmp.eq_symm hkey, hsame x hx hkey⟩
  · refine ⟨x, (h c.name x).2 (.inr ⟨hx, fun hname hkey => hreplaced ⟨hname, hkey⟩⟩), ?_⟩
    exact .refl c _ x

theorem makes_nil (h : e.Stores row tables tables') (he : s.entity? e.name = some e)
    (hthere : ∃ x, tables.Has e.name x ∧ e.keyOf x = e.keyOf row) :
    s.Makes tables [] tables' where
  known := by
    intro c hc y hy
    refine .inl ?_
    rcases (h c.name y).1 hy with ⟨hname, rfl⟩ | ⟨hy, -⟩
    · obtain rfl := Schema.entity_inj hc he hname
      exact hthere
    · exact ⟨y, hy, rfl⟩
  there := by simp
  fresh := by simp
  distinct := .nil

theorem makes_one (h : e.Stores row tables tables') (he : s.entity? e.name = some e)
    (hnew : ∀ x, tables.Has e.name x → compare (e.keyOf row) (e.keyOf x) ≠ .eq) :
    s.Makes tables [(e.name, e.keyOf row)] tables' where
  known := by
    intro c hc y hy
    rcases (h c.name y).1 hy with ⟨hname, rfl⟩ | ⟨hy, -⟩
    · obtain rfl := Schema.entity_inj hc he hname
      exact .inr (List.mem_singleton_self _)
    · exact .inl ⟨y, hy, rfl⟩
  there m hm := ⟨e, row, he, h.has, List.mem_singleton.1 hm⟩
  fresh := by
    intro c hc k hk x hx
    obtain ⟨hname, rfl⟩ := Prod.mk.inj (List.mem_singleton.1 hk)
    obtain rfl := Schema.entity_inj hc he hname
    exact hnew x hx
  distinct := List.pairwise_singleton _ _

end Entity.Stores

namespace Schema.Holds
variable {s : Schema} {κ : String → String → NumberClass} {tx tx' : Transaction}
  {tables tables' : Tables} {e : Entity} {key : Key} {row : Row}

/-- What a row that is written under its own key does to the tables. -/
theorem stores (h : s.Holds κ tables) (he : s.entity? e.name = some e) (hrow : row.Within (κ e.name))
    {t : Table} (hw : tx.Wrote tables e.name t (t.keyOf row) (some row) tx' tables')
    (hnull : (t.keyOf row).hasNull = false) :
    s.Holds κ tables' ∧ e.Stores row tables tables' := by
  have hkey (z : Row) : t.keyOf z = e.keyOf z := h.tableDef he hw.found z
  refine ⟨h.wrote hw (TableDef.suits_own hrow hnull), fun n z => ?_⟩
  rw [hw.has_iff (h.proper.proper hw.found).sorted (Table.keyOf_fits hrow.fits)]
  simp only [Option.mem_some_iff, hkey, eq_comm]

theorem put (h : s.Holds κ tables) (he : s.entity? e.name = some e) (hrow : row.Within (κ e.name))
    (hput : tx.put tables e.name row = .ok (key, tx', tables')) :
    s.Holds κ tables' ∧ e.Stores row tables tables' := by
  obtain ⟨t, hw, rfl, hnull⟩ := Transaction.put_ok hput
  exact h.stores he hrow hw hnull

theorem add (h : s.Holds κ tables) (he : s.entity? e.name = some e) (hrow : row.Within (κ e.name))
    (hadd : tx.add tables e.name row = .ok (key, tx', tables')) :
    s.Holds κ tables' ∧ e.Stores row tables tables' ∧ key = e.keyOf row ∧
      ∀ x, tables.Has e.name x → compare (e.keyOf row) (e.keyOf x) ≠ .eq := by
  obtain ⟨t, hw, hkey, hnull⟩ := Transaction.add_ok hadd
  obtain ⟨t', ht', hadd⟩ := Except.bind_eq_ok.1 hadd
  obtain ⟨⟨k, next⟩, hadd, -⟩ := Except.bind_eq_ok.1 hadd
  obtain ⟨rfl, -, hfree, -, -⟩ := Table.add_ok hadd
  obtain rfl : t' = t := Option.some.inj ((Transaction.tableToWrite_ok ht').2.symm.trans hw.found)
  subst hkey
  obtain ⟨hholds, hstores⟩ := h.stores he hrow hw hnull
  have hown (z : Row) : t'.keyOf z = e.keyOf z := h.tableDef he hw.found z
  refine ⟨hholds, hstores, hown row, fun x hx heq => ?_⟩
  obtain ⟨u, hu, hx⟩ := hx
  cases hw.found.symm.trans hu
  rw [← hown, ← hown] at heq
  have hgot := ((h.proper.proper hw.found).sorted.get?_eq_some (Table.keyOf_fits hrow.fits)).2 ⟨hx, heq⟩
  rw [hfree] at hgot
  cases hgot

theorem delete {old : Option Row} (h : s.Holds κ tables) (he : s.entity? e.name = some e)
    (hrow : row.Within (κ e.name))
    (hdelete : tx.delete tables e.name (e.keyOf row) = .ok (old, tx', tables')) :
    s.Holds κ tables' := by
  obtain ⟨t, ht, rfl, ⟨-, -, rfl⟩ | ⟨-, hw⟩⟩ := Transaction.delete_ok hdelete
  · exact h
  · refine h.wrote hw (TableDef.suits_none ?_)
    rw [h.definition e t he ht]
    exact hrow.fits.key

end Schema.Holds

/-- Writes keep the tables of a schema what they are. -/
theorem Schema.upholds_holds (s : Schema) (κ : String → String → NumberClass) :
    s.Upholds (fun n f v => v.within (κ n f)) fun tables _ => s.Holds κ tables where
  stored h _ t ht _ hrow := h.within ⟨t, (Transaction.table_ok ht).2.2, hrow⟩
  add h _ he _ hrow _ _ _ hadd := (h.add he hrow hadd).1
  put h _ he _ hrow _ _ _ hput := (h.put he hrow hput).1
  delete h _ he _ hrow _ _ _ hdelete := h.delete he hrow hdelete

end RelationalStore

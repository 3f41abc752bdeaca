import RelationalStore.Proofs.Cascades
import RelationalStore.Proofs.WriteInvariants

/- The tables in the course of a deletion. Deletions are nested: those that have begun and not yet
   ended are open. `Schema.Underway` says how the tables come from those at first: each row has only
   had keys cleared that reference a row that is to go, each row that is missing had its deletion
   begun, and nothing is left to be done for the rows whose deletion is not open any more. A row
   that references one of these can still be there if its own deletion is open, as on a cycle. When
   nothing is open, the deletion is done (`Underway.deletion`). -/
namespace RelationalStore
open SortedMap

namespace Schema

/-! ### Later states -/

/-- Rows have only gone or lost references since, and the deletions that had begun have begun. -/
structure Later (s : Schema) (tables : Tables) (begun : List (String × Key)) (tables' : Tables)
    (begun' : List (String × Key)) : Prop where
  begun : ∀ p ∈ begun, p ∈ begun'
  rows : ∀ e, s.entity? e.name = some e → ∀ y', tables'.Has e.name y' →
    ∃ y, tables.Has e.name y ∧ e.keyOf y = e.keyOf y' ∧
      ∀ r ∈ e.owningRelations, (Key.ofRow r.near y').hasNull = false →
        Key.ofRow r.near y = Key.ofRow r.near y'

/-- Nothing is left to be done through a relation for the deletion of the row with a key: of the
rows that reference it, there are only such that are being deleted themselves. -/
def Handled (c : Entity) (r : Relation) (key : Key) (tables : Tables) (begun : List (String × Key)) :
    Prop :=
  r.onDelete ≠ .noAction → ∀ y, tables.Has c.name y → compare (Key.ofRow r.near y) key = .eq →
    r.onDelete = .cascade ∧ (c.name, c.keyOf y) ∈ begun

/-- Nothing is left to be done for the deletion of a row. -/
structure Settled (s : Schema) (n : String) (key : Key) (tables : Tables)
    (begun : List (String × Key)) : Prop where
  gone : ∀ e, s.entity? e.name = some e → e.name = n →
    ∀ y, tables.Has e.name y → compare key (e.keyOf y) ≠ .eq
  handled : ∀ c, s.entity? c.name = some c → ∀ r ∈ c.owningRelations, r.target = n →
    Handled c r key tables begun

section Later
variable {s : Schema} {tables tables' tables'' : Tables} {begun begun' begun'' : List (String × Key)}
  {key : Key}

theorem Later.refl (h : ∀ p ∈ begun, p ∈ begun') : s.Later tables begun tables begun' where
  begun := h
  rows _ _ y hy := ⟨y, hy, rfl, fun _ _ _ => rfl⟩

theorem Later.trans (h : s.Later tables begun tables' begun')
    (h' : s.Later tables' begun' tables'' begun'') : s.Later tables begun tables'' begun'' where
  begun p hp := h'.begun p (h.begun p hp)
  rows := by
    intro e he y'' hy''
    obtain ⟨y', hy', hkey', hlinks'⟩ := h'.rows e he y'' hy''
    obtain ⟨y, hy, hkey, hlinks⟩ := h.rows e he y' hy'
    refine ⟨y, hy, hkey.trans hkey', fun r hr hnull => ?_⟩
    have hlink := hlinks' r hr hnull
    rw [← hlink] at hnull ⊢
    exact hlinks r hr hnull

/-- A row that references a key has done so before. -/
theorem Later.referred (h : s.Later tables begun tables' begun') {c : Entity}
    (hc : s.entity? c.name = some c) {r : Relation} (hr : r ∈ c.owningRelations)
    (hkey : key.hasNull = false) {y' : Row} (hy' : tables'.Has c.name y')
    (href : compare (Key.ofRow r.near y') key = .eq) :
    ∃ y, tables.Has c.name y ∧ c.keyOf y = c.keyOf y' ∧ compare (Key.ofRow r.near y) key = .eq := by
  obtain ⟨y, hy, hsame, hlinks⟩ := h.rows c hc y' hy'
  refine ⟨y, hy, hsame, ?_⟩
  rw [hlinks r hr (by rw [Key.hasNull_eq_of_compare href, hkey])]
  exact href

theorem Handled.later {c : Entity} {r : Relation} (h : Handled c r key tables begun)
    (hl : s.Later tables begun tables' begun') (hc : s.entity? c.name = some c)
    (hr : r ∈ c.owningRelations) (hkey : key.hasNull = false) :
    Handled c r key tables' begun' := by
  intro hact y' hy' href
  obtain ⟨y, hy, hsame, href⟩ := hl.referred hc hr hkey hy' href
  obtain ⟨hcascade, hbegun⟩ := h hact y hy href
  rw [← hsame]
  exact ⟨hcascade, hl.begun _ hbegun⟩

/-- What is done through a relation depends on what its dependents are like only. -/
theorem Handled.congr {c : Entity} {r r' : Relation} (h : Handled c r key tables begun)
    (hsame : c.dependentOf r = c.dependentOf r') : Handled c r' key tables begun := by
  simp only [Entity.dependentOf, Dependent.mk.injEq] at hsame
  rw [Handled, ← hsame.2.2.1, ← hsame.2.2.2.2.1]
  exact h

theorem Settled.later {n : String} (h : s.Settled n key tables begun)
    (hl : s.Later tables begun tables' begun') (hkey : key.hasNull = false) :
    s.Settled n key tables' begun' where
  gone := by
    intro e he hn y' hy'
    obtain ⟨y, hy, hsame, -⟩ := hl.rows e he y' hy'
    rw [← hsame]
    exact h.gone e he hn y hy
  handled c hc r hr hn := (h.handled c hc r hr hn).later hl hc hr hkey

end Later

/-! ### States -/

/-- The tables while rows of the first ones are deleted, where the deletions of some rows have begun
and some of these are open. -/
structure Underway (s : Schema) (κ : String → String → NumberClass) (first : Tables) (n : String)
    (rows : List Row) (opened : List (String × Key)) (tables : Tables)
    (begun : List (String × Key)) : Prop where
  holds : s.Holds κ tables
  others : ∀ m, s.entity? m = none → tables.get? m = first.get? m
  origin : ∀ e, s.entity? e.name = some e → ∀ y, tables.Has e.name y →
    ∃ x, first.Has e.name x ∧ ∃ cut : Relation → Prop,
      (∀ r ∈ e.owningRelations, cut r → s.Severed first n rows x r) ∧ e.Cleared cut x y
  there : ∀ e, s.entity? e.name = some e → ∀ x, first.Has e.name x →
    (e.name, e.keyOf x) ∉ begun → ∃ y, tables.Has e.name y ∧ e.keyOf y = e.keyOf x
  known : ∀ p ∈ begun, ∃ e x, s.entity? e.name = some e ∧ first.Has e.name x ∧
    s.Doomed first n rows e.name x ∧ p = (e.name, e.keyOf x)
  settled : ∀ p ∈ begun, p ∉ opened → s.Settled p.1 p.2 tables begun

variable {s : Schema} {κ : String → String → NumberClass} {first tables tables' : Tables}
  {n : String} {rows : List Row} {opened begun : List (String × Key)} {e : Entity} {x y : Row}

theorem Underway.start (hfirst : s.Holds κ first) : s.Underway κ first n rows [] first [] where
  holds := hfirst
  others _ _ := rfl
  origin e _ y hy := ⟨y, hy, fun _ => False, nofun, .refl e (fun _ _ h => h) y⟩
  there _ _ x hx _ := ⟨x, hx, rfl⟩
  known _ hp := absurd hp List.not_mem_nil
  settled _ hp := absurd hp List.not_mem_nil

section
variable (hs : s.Resolved) (hsep : s.Separate) (hfirst : s.Holds κ first)

include hs hsep in
/-- A row has the key that it had at first, and it may reference what it referenced then. -/
theorem Underway.source (h : s.Underway κ first n rows opened tables begun)
    (he : s.entity? e.name = some e) (hy : tables.Has e.name y) :
    ∃ x, first.Has e.name x ∧ e.keyOf y = e.keyOf x ∧
      ∃ cut : Relation → Prop, (∀ r ∈ e.owningRelations, cut r → s.Severed first n rows x r) ∧
        e.Cleared cut x y := by
  obtain ⟨x, hx, cut, hcut, hcleared⟩ := h.origin e he y hy
  exact ⟨x, hx, hcleared.keyOf_eq hs hsep he fun r hr hc => (hcut r hr hc).1, cut, hcut, hcleared⟩

include hs hsep in
/-- A row that references a key has done so at first. -/
theorem Underway.source_refers (h : s.Underway κ first n rows opened tables begun)
    (he : s.entity? e.name = some e) {r : Relation} (hr : r ∈ e.owningRelations) {key : Key}
    (hkey : key.hasNull = false) (hy : tables.Has e.name y)
    (href : compare (Key.ofRow r.near y) key = .eq) :
    ∃ x, first.Has e.name x ∧ e.keyOf y = e.keyOf x ∧ compare (Key.ofRow r.near x) key = .eq := by
  obtain ⟨x, hx, hsame, cut, -, hcleared⟩ := h.source hs hsep he hy
  refine ⟨x, hx, hsame, ?_⟩
  rw [← hcleared.near_eq hs hsep he hr]
  · exact href
  · intro hcut
    have hnull := Key.hasNull_eq_of_compare href
    rw [hcleared.near_null hs he hr hcut, hkey] at hnull
    cases hnull

include hfirst in
theorem Underway.keyOf_nonnull (h : s.Underway κ first n rows opened tables begun)
    {p : String × Key} (hp : p ∈ begun) : p.2.hasNull = false := by
  obtain ⟨e, x, he, hx, -, rfl⟩ := h.known p hp
  exact hfirst.keyOf_nonnull he hx

include hfirst in
/-- A row whose key is equal to that of a deletion is the row of that deletion. -/
theorem Underway.mem_begun (h : s.Underway κ first n rows opened tables begun)
    (he : s.entity? e.name = some e) (hx : first.Has e.name x) {key : Key}
    (hp : (e.name, key) ∈ begun) (hc : compare key (e.keyOf x) = .eq) :
    (e.name, e.keyOf x) ∈ begun := by
  obtain ⟨e', x', he', hx', -, heq⟩ := h.known _ hp
  obtain ⟨hname, rfl⟩ := Prod.mk.inj heq
  rw [← hname, he] at he'
  cases he'
  rw [hfirst.eq_of_keyOf he hx' hx hc] at hp
  exact hp

/-! ### Steps -/

include hfirst in
/-- The deletion of a row begins. -/
theorem Underway.begin (h : s.Underway κ first n rows opened tables begun)
    (he : s.entity? e.name = some e) (hx : first.Has e.name x)
    (hdoomed : s.Doomed first n rows e.name x) :
    s.Underway κ first n rows ((e.name, e.keyOf x) :: opened) tables
      ((e.name, e.keyOf x) :: begun) where
  holds := h.holds
  others := h.others
  origin := h.origin
  there e' he' x' hx' hnew := h.there e' he' x' hx' fun hp => hnew (List.mem_cons_of_mem _ hp)
  known := by
    intro p hp
    rcases List.mem_cons.1 hp with rfl | hp
    · exact ⟨e, x, he, hx, hdoomed, rfl⟩
    · exact h.known p hp
  settled := by
    intro p hp hclosed
    rcases List.mem_cons.1 hp with rfl | hp
    · exact absurd List.mem_cons_self hclosed
    · have hclosed := fun hmem => hclosed (List.mem_cons_of_mem _ hmem)
      refine (h.settled p hp hclosed).later (.refl fun q hq => ?_) (h.keyOf_nonnull hfirst hp)
      exact List.mem_cons_of_mem _ hq

/-- The deletion of a row ends when nothing is left to be done for it. -/
theorem Underway.finish {p : String × Key}
    (h : s.Underway κ first n rows (p :: opened) tables begun)
    (hp : s.Settled p.1 p.2 tables begun) : s.Underway κ first n rows opened tables begun where
  holds := h.holds
  others := h.others
  origin := h.origin
  there := h.there
  known := h.known
  settled := by
    intro q hq hclosed
    by_cases heq : q = p
    · subst heq
      exact hp
    · exact h.settled q hq fun hmem => (List.mem_cons.1 hmem).elim heq hclosed

end

/-! ### Writes -/

section
variable {tx tx' : Transaction} {t : Table} {key : Key} {new : Option Row}
variable (h : s.Underway κ first n rows opened tables begun) (he : s.entity? e.name = some e)
  (hw : tx.Wrote tables e.name t key new tx' tables')
include h he hw

theorem Underway.others_wrote : ∀ m, s.entity? m = none → tables'.get? m = first.get? m := by
  intro m hm
  rw [← h.others m hm, hw.tables]
  refine get?_insert_of_ne fun hname => ?_
  rw [← hname, he] at hm
  cases hm

theorem Underway.keyPath_wrote : t.definition.keyPath = e.idFields := by
  rw [h.holds.definition e t he hw.found]
  rfl

/-- Among the rows of an entity, a write concerns those with the key. -/
theorem Underway.has_wrote (hkey : key.Fits (κ e.name) e.idFields) {m : String} {z : Row} :
    tables'.Has m z ↔
      m = e.name ∧ z ∈ new ∨ tables.Has m z ∧ (m = e.name → compare key (e.keyOf z) ≠ .eq) := by
  have hpath := h.keyPath_wrote he hw
  rw [hw.has_iff (h.holds.proper.proper hw.found).sorted (by rwa [hpath]), h.holds.tableDef he hw.found]

end

section
variable {tx tx' : Transaction} {t : Table}
variable (hs : s.Resolved) (hsep : s.Separate) (hfirst : s.Holds κ first)
  (h : s.Underway κ first n rows opened tables begun) (he : s.entity? e.name = some e)
include hs hsep hfirst h he

omit hs hsep in
/-- The row of a deletion that has begun is removed. -/
theorem Underway.remove (hx : first.Has e.name x) (hbegun : (e.name, e.keyOf x) ∈ begun)
    {old : Option Row} (hdelete : tx.delete tables e.name (e.keyOf x) = .ok (old, tx', tables')) :
    s.Underway κ first n rows opened tables' begun ∧ s.Later tables begun tables' begun ∧
      ∀ z, tables'.Has e.name z → compare (e.keyOf x) (e.keyOf z) ≠ .eq := by
  have hkey : (e.keyOf x).Fits (κ e.name) e.idFields := (hfirst.within hx).fits.key
  obtain ⟨t, ht, hold, ⟨hnone, -, rfl⟩ | ⟨-, hw⟩⟩ := Transaction.delete_ok hdelete
  · -- The row had gone already.
    refine ⟨h, .refl fun _ hp => hp, fun z hz heq => ?_⟩
    obtain ⟨t', ht', hrow⟩ := hz
    rw [ht] at ht'
    cases ht'
    have hfits : (e.keyOf x).Fits (κ e.name) t.definition.keyPath := by
      rw [h.holds.definition e t he ht]
      exact hkey
    rw [← h.holds.tableDef he ht z] at heq
    rw [((h.holds.proper.proper ht).sorted.get?_eq_some hfits).2 ⟨hrow, heq⟩, hnone] at hold
    cases hold
  have hpath := h.keyPath_wrote he hw
  have hhas {m : String} {z : Row} : tables'.Has m z ↔
      tables.Has m z ∧ (m = e.name → compare (e.keyOf x) (e.keyOf z) ≠ .eq) := by
    rw [h.has_wrote he hw hkey]
    simp
  have hlater : s.Later tables begun tables' begun :=
    ⟨fun _ hp => hp, fun c _ z hz => ⟨z, (hhas.1 hz).1, rfl, fun _ _ _ => rfl⟩⟩
  refine ⟨?_, hlater, fun z hz => (hhas.1 hz).2 rfl⟩
  constructor
  · exact h.holds.wrote hw (TableDef.suits_none (by rwa [hpath]))
  · exact h.others_wrote he hw
  · exact fun c hc z hz => h.origin c hc z (hhas.1 hz).1
  · intro c hc x' hx' hnew
    obtain ⟨z, hz, hsame⟩ := h.there c hc x' hx' hnew
    refine ⟨z, hhas.2 ⟨hz, fun hname heq => hnew ?_⟩, hsame⟩
    -- The row that is removed is the one whose deletion has begun.
    cases entity_inj hc he hname
    rw [hsame] at heq
    exact h.mem_begun hfirst hc hx' hbegun heq
  · exact h.known
  · intro p hp hclosed
    exact (h.settled p hp hclosed).later hlater (h.keyOf_nonnull hfirst hp)

/-- A row that is found under the key of a row at first is what is left of that one. -/
theorem Underway.keyOf_eq (hx : first.Has e.name x) (hy : tables.Has e.name y)
    (heq : compare (e.keyOf x) (e.keyOf y) = .eq) : e.keyOf y = e.keyOf x := by
  obtain ⟨x', hx', hsame, -⟩ := h.source hs hsep he hy
  rw [hsame] at heq ⊢
  cases hfirst.eq_of_keyOf he hx hx' heq
  rfl

end

section
variable {tx tx' : Transaction} {t : Table} {z : Row}
variable (h : s.Underway κ first n rows opened tables begun) (he : s.entity? e.name = some e)
  (hy : tables.Has e.name y) (hkeyz : e.keyOf z = e.keyOf y)
  (hw : tx.Wrote tables e.name t (e.keyOf y) (some z) tx' tables')
include h he hy hw

/-- Where a row was, there is the one that it is replaced with. -/
theorem Underway.has_replaced {m : String} {z' : Row} :
    tables'.Has m z' ↔ m = e.name ∧ z' ∈ some z ∨
      tables.Has m z' ∧ (m = e.name → compare (e.keyOf y) (e.keyOf z') ≠ .eq) :=
  h.has_wrote he hw (h.holds.within hy).fits.key

include hkeyz

theorem Underway.later_replaced
    (hlinks : ∀ r ∈ e.owningRelations, (Key.ofRow r.near z).hasNull = false →
      Key.ofRow r.near y = Key.ofRow r.near z) : s.Later tables begun tables' begun := by
  refine ⟨fun _ hp => hp, fun c hc z' hz' => ?_⟩
  rcases (h.has_replaced he hy hw).1 hz' with ⟨hname, hnew⟩ | ⟨hold, -⟩
  · cases hnew
    cases entity_inj hc he hname
    exact ⟨y, hy, hkeyz.symm, hlinks⟩
  · exact ⟨z', hold, rfl, fun _ _ _ => rfl⟩

/-- Only the row itself is new when one is replaced under its key. -/
theorem Underway.holds_replaced (hwithin : Row.Obeys (fun m c v => v.within (κ m c)) e.name z) :
    s.Holds κ tables' := by
  have hown : Key.ofRow t.definition.keyPath z = e.keyOf y := by
    rw [h.keyPath_wrote he hw]
    exact hkeyz
  refine h.holds.wrote hw ?_
  rw [← hown]
  refine TableDef.suits_own hwithin ?_
  rw [hown]
  exact h.holds.keyOf_nonnull he hy

/-- A row that was there at first and has not gone is there after one is replaced. -/
theorem Underway.there_replaced {c : Entity} (hc : s.entity? c.name = some c)
    (hx : first.Has c.name x) (hnew : (c.name, c.keyOf x) ∉ begun) :
    ∃ z', tables'.Has c.name z' ∧ c.keyOf z' = c.keyOf x := by
  obtain ⟨z', hz', hsame⟩ := h.there c hc x hx hnew
  by_cases hconcerned : c.name = e.name ∧ compare (e.keyOf y) (e.keyOf z') = .eq
  · obtain ⟨hname, heq⟩ := hconcerned
    cases entity_inj hc he hname
    cases h.holds.eq_of_keyOf hc hy hz' heq
    exact ⟨z, (h.has_replaced he hy hw).2 (.inl ⟨rfl, rfl⟩), hkeyz.trans hsame⟩
  · refine ⟨z', (h.has_replaced he hy hw).2 (.inr ⟨hz', fun hname heq => ?_⟩), hsame⟩
    exact hconcerned ⟨hname, heq⟩

end

section
variable {tx tx' : Transaction} {t : Table}
variable (hs : s.Resolved) (hsep : s.Separate) (hfirst : s.Holds κ first)
  (h : s.Underway κ first n rows opened tables begun) (he : s.entity? e.name = some e)
include hs hsep hfirst h he

/-- A row is put back with the key of one more relation cleared. -/
theorem Underway.clear {r : Relation} (hr : r ∈ e.owningRelations) (hy : tables.Has e.name y)
    (hcut : ∀ x, first.Has e.name x → e.keyOf y = e.keyOf x → s.Severed first n rows x r)
    {time : DateTime} {z : Row}
    (hz : z = (e.fields.filter (·.updatedAt)).foldl (fun row f => row.insert f.name (.datetime time))
      (r.near.foldl (fun row f => row.insert f .null) y))
    (hw : tx.Wrote tables e.name t (t.keyOf z) (some z) tx' tables') :
    s.Underway κ first n rows opened tables' begun ∧ s.Later tables begun tables' begun ∧
      ∀ z', tables'.Has e.name z' → compare (e.keyOf z') (e.keyOf y) = .eq →
        (Key.ofRow r.near z').hasNull = true := by
  obtain ⟨x, hx, hsame, cut, hsevered, hcleared⟩ := h.source hs hsep he hy
  have hagain : e.Cleared (fun r' => cut r' ∨ r' = r) x z := by
    rw [hz]
    exact hcleared.clear hs hsep he hr time
  have hsevered' : ∀ r' ∈ e.owningRelations, cut r' ∨ r' = r → s.Severed first n rows x r' := by
    intro r' hr' hc
    rcases hc with hc | rfl
    · exact hsevered r' hr' hc
    · exact hcut x hx hsame
  have hkeyz : e.keyOf z = e.keyOf y :=
    calc e.keyOf z = e.keyOf x := hagain.keyOf_eq hs hsep he fun r' hr' hc => (hsevered' r' hr' hc).1
      _ = e.keyOf y := hsame.symm
  have hlinks : ∀ r' ∈ e.owningRelations, (Key.ofRow r'.near z).hasNull = false →
      Key.ofRow r'.near y = Key.ofRow r'.near z := by
    intro r' hr' hnull
    -- A key without nulls is none that is cleared.
    have hc : ¬ (cut r' ∨ r' = r) := by
      intro hc
      rw [hagain.near_null hs he hr' hc] at hnull
      cases hnull
    calc Key.ofRow r'.near y = Key.ofRow r'.near x :=
          hcleared.near_eq hs hsep he hr' fun hc' => hc (.inl hc')
      _ = Key.ofRow r'.near z := (hagain.near_eq hs hsep he hr' hc).symm
  have hwithin : Row.Obeys (fun m c v => v.within (κ m c)) e.name z := by
    rw [hz]
    have hobeys : Row.Obeys (fun m c v => v.within (κ m c)) e.name y := h.holds.within hy
    refine Row.Obeys.foldl (hobeys.foldl fun row hrow f _ => hrow.insert rfl) ?_
    exact fun row hrow f _ => hrow.insert rfl
  rw [h.holds.tableDef he hw.found, hkeyz] at hw
  have hlater := h.later_replaced he hy hkeyz hw hlinks
  refine ⟨?_, hlater, fun z' hz' heq => ?_⟩
  · constructor
    · exact h.holds_replaced he hy hkeyz hw hwithin
    · exact h.others_wrote he hw
    · intro c hc z' hz'
      rcases (h.has_replaced he hy hw).1 hz' with ⟨hname, hnew⟩ | ⟨hold, -⟩
      · cases hnew
        cases entity_inj hc he hname
        exact ⟨x, hx, _, hsevered', hagain⟩
      · exact h.origin c hc z' hold
    · exact fun c hc x' hx' hnew => h.there_replaced he hy hkeyz hw hc hx' hnew
    · exact h.known
    · intro p hp hclosed
      exact (h.settled p hp hclosed).later hlater (h.keyOf_nonnull hfirst hp)
  · rcases (h.has_replaced he hy hw).1 hz' with ⟨-, hnew⟩ | ⟨-, hne⟩
    · cases hnew
      exact hagain.near_null hs he hr (.inr rfl)
    · exact absurd (Std.OrientedCmp.eq_symm heq) (hne rfl)

end

/-! ### The end -/

section
variable {c : Entity} (hs : s.Resolved) (hsep : s.Separate) (hfirst : s.Holds κ first)
  (h : s.Underway κ first n rows [] tables begun) (hc : s.entity? c.name = some c)
include h hc

/-- A row whose deletion has begun has gone. -/
theorem Underway.not_begun (hy : tables.Has c.name y) : (c.name, c.keyOf y) ∉ begun := by
  intro hmem
  exact (h.settled _ hmem List.not_mem_nil).gone c hc rfl y hy Std.ReflOrd.compare_self

include hs hsep

/-- A row that is left references no row that has gone. -/
theorem Underway.not_refers {r : Relation} (hr : r ∈ c.owningRelations)
    (hact : r.onDelete ≠ .noAction) {t : Entity} (ht : s.entity? r.target = some t) {parent : Row}
    (hparent : (t.name, t.keyOf parent) ∈ begun) (hy : tables.Has c.name y) :
    ¬ r.Refers y parent := by
  have hfar := hsep.references c (hs.mem_values hc) r hr t ht
  have hsettled := h.settled _ hparent List.not_mem_nil
  intro href
  rw [Relation.Refers, hfar] at href
  exact h.not_begun hc hy (hsettled.handled c hc r hr (hs.name ht).symm hact y hy href).2

include hfirst

/-- The row that there was at first under the key of a row that is left. -/
theorem Underway.source_eq (hx : first.Has c.name x) (hy : tables.Has c.name y)
    (hsame : c.keyOf y = c.keyOf x) : ∃ cut : Relation → Prop,
      (∀ r ∈ c.owningRelations, cut r → s.Severed first n rows x r) ∧ c.Cleared cut x y := by
  obtain ⟨x', hx', hkey, hcleared⟩ := h.source hs hsep hc hy
  rw [hsame] at hkey
  cases hfirst.eq_of_keyOf hc hx hx' (by rw [hkey]; exact Std.ReflOrd.compare_self)
  exact hcleared

end

section
variable (hs : s.Resolved) (hsep : s.Separate) (hfirst : s.Holds κ first)
  (h : s.Underway κ first e.name rows [] tables begun) (he : s.entity? e.name = some e)
  (hbegun : ∀ row ∈ rows, (e.name, e.keyOf row) ∈ begun)
include hs hsep hfirst h he hbegun

/-- By induction on why a row is to go: its deletion has begun. -/
theorem Underway.begun_of_doomed {m : String} (hx : s.Doomed first e.name rows m x) :
    ∀ c, s.entity? c.name = some c → c.name = m → (c.name, c.keyOf x) ∈ begun := by
  induction hx with
  | root hrow =>
    intro c hc hname
    cases entity_inj hc he hname
    exact hbegun _ hrow
  | @cascade c r row parent hparent hc hr hcascade hrow hrefers ih =>
    intro c' hc' hname
    cases entity_inj hc' hc hname
    obtain ⟨t, ht⟩ := hs.target hc r (List.mem_filter.1 hr).1
    have hgone := ih t (by rw [hs.name ht, ht]) (hs.name ht)
    by_contra hnew
    obtain ⟨y, hy, hsame⟩ := h.there c hc row hrow hnew
    obtain ⟨cut, hcut, hcleared⟩ := h.source_eq hs hsep hfirst hc hrow hy hsame
    -- The key of a relation that cascades is not cleared, so the row still references its parent.
    have hnot : ¬ cut r := fun hcut' => nomatch hcascade.symm.trans (hcut r hr hcut').1
    refine h.not_refers hs hsep hc hr (by rw [hcascade]; nofun) ht hgone hy ?_
    rw [Relation.Refers, hcleared.near_eq hs hsep hc hr hnot]
    exact hrefers

theorem Underway.doomed_iff {c : Entity} (hc : s.entity? c.name = some c)
    (hx : first.Has c.name x) :
    s.Doomed first e.name rows c.name x ↔ (c.name, c.keyOf x) ∈ begun := by
  constructor
  · exact fun hd => h.begun_of_doomed hs hsep hfirst he hbegun hd c hc rfl
  · intro hmem
    obtain ⟨c', x', hc', hx', hd, heq⟩ := h.known _ hmem
    obtain ⟨hname, hkey⟩ := Prod.mk.inj heq
    cases entity_inj hc' hc hname.symm
    cases hfirst.eq_of_keyOf hc hx hx' (by rw [hkey]; exact Std.ReflOrd.compare_self)
    exact hd

/-- When nothing is open and the deletions of the given rows have begun, the deletion is done. -/
theorem Underway.deletion : s.Deletion first e.name rows tables := by
  have hiff {c : Entity} (hc : s.entity? c.name = some c) {x : Row} (hx : first.Has c.name x) :=
    h.doomed_iff hs hsep hfirst he hbegun hc hx
  have hunlinked {c : Entity} (hc : s.entity? c.name = some c) {r : Relation}
      (hr : r ∈ c.owningRelations) (hact : r.onDelete ≠ .noAction) {y parent : Row}
      (hy : tables.Has c.name y) (hd : s.Doomed first e.name rows r.target parent) :
      ¬ r.Refers y parent := by
    obtain ⟨t, ht⟩ := hs.target hc r (List.mem_filter.1 hr).1
    have hgone := h.begun_of_doomed hs hsep hfirst he hbegun hd t (by rw [hs.name ht, ht])
      (hs.name ht)
    exact h.not_refers hs hsep hc hr hact ht hgone hy
  constructor
  · intro c hc x hx
    rw [hiff hc hx]
    constructor
    · exact fun hmem => (h.settled _ hmem List.not_mem_nil).gone c hc rfl
    · intro hnone
      by_contra hnew
      obtain ⟨y, hy, hsame⟩ := h.there c hc x hx hnew
      apply hnone y hy
      rw [hsame]
      exact Std.ReflOrd.compare_self
  · intro c hc x hx hstays
    rw [hiff hc hx] at hstays
    obtain ⟨y, hy, hsame⟩ := h.there c hc x hx hstays
    obtain ⟨cut, hcut, hcleared⟩ := h.source_eq hs hsep hfirst hc hx hy hsame
    refine ⟨y, hy, hsame, hcleared.congr fun r hr => ⟨hcut r hr, fun hsevered => ?_⟩⟩
    obtain ⟨hnull, parent, hd, hrefers⟩ := hsevered
    -- A key that is not cleared would still reference its parent.
    by_contra hnot
    refine hunlinked hc hr (by rw [hnull]; nofun) hy hd ?_
    rw [Relation.Refers, hcleared.near_eq hs hsep hc hr hnot]
    exact hrefers
  · intro c hc y hy
    obtain ⟨x, hx, hsame, -⟩ := h.source hs hsep hc hy
    refine ⟨x, hx, ?_, hsame⟩
    rw [hiff hc hx, ← hsame]
    exact h.not_begun hc hy
  · intro c hc r hr hrestrict y hy parent hd
    exact hunlinked hc hr (by rw [hrestrict]; nofun) hy hd
  · exact h.others

end

end Schema

end RelationalStore

import RelationalStore.Proofs.DeletionRequests
import RelationalStore.Proofs.RenewedRows
import RelationalStore.Proofs.UniqueGroups
import RelationalStore.Proofs.UniqueRows
import RelationalStore.Proofs.RetainedRows

/- Whether a deletion succeeds, said without how it is done. It does if and only if each table is at
   hand that the deletion of a row that goes comes to, and no row references one that goes through a
   relation that forbids it (`Schema.Permits`). That is so where a row that goes never forbids
   another one to go: there the one is found or not, depending on which is settled first. -/
namespace RelationalStore
open SortedMap Read

/-! ### Transactions -/

namespace Transaction

/-- The table of that name is there, and the transaction may read it. -/
def Reads (tx : Transaction) (tables : Tables) (n : String) : Prop :=
  tx.active = true ∧ n ∈ tx.scope ∧ (tables.get? n).isSome

/-- The transaction may write to the table too. -/
def Opens (tx : Transaction) (tables : Tables) (n : String) : Prop :=
  tx.Reads tables n ∧ tx.mode = .readWrite

variable {tx : Transaction} {tables : Tables} {n : String} {t : Table} {e : Error}

theorem Reads.of_table (h : tx.table tables n = .ok t) : tx.Reads tables n := by
  obtain ⟨hactive, hscope, hfound⟩ := table_ok h
  exact ⟨hactive, hscope, by rw [hfound]; rfl⟩

theorem Opens.of_tableToWrite (h : tx.tableToWrite tables n = .ok t) : tx.Opens tables n := by
  obtain ⟨⟨hactive, hmode, hscope⟩, hfound⟩ := tableToWrite_ok h
  exact ⟨⟨hactive, hscope, by rw [hfound]; rfl⟩, hmode⟩

theorem Reads.table (h : tx.Reads tables n) : ∃ t, tables.get? n = some t ∧ tx.table tables n = .ok t := by
  obtain ⟨hactive, hscope, hfound⟩ := h
  obtain ⟨t, ht⟩ := Option.isSome_iff_exists.1 hfound
  refine ⟨t, ht, ?_⟩
  simp [Transaction.table, hactive, hscope, ht]

theorem Opens.tableToWrite (h : tx.Opens tables n) :
    ∃ t, tables.get? n = some t ∧ tx.tableToWrite tables n = .ok t := by
  obtain ⟨t, ht, htable⟩ := h.1.table
  refine ⟨t, ht, ?_⟩
  rw [Transaction.tableToWrite, htable]
  show (if tx.mode = .readWrite then _ else _) = _
  rw [if_pos h.2]
  rfl

/-- In such a table a row can be deleted. -/
theorem Opens.delete (h : tx.Opens tables n) (key : Key) :
    ∃ r, tx.delete tables n key = .ok r := by
  obtain ⟨t, -, ht⟩ := h.tableToWrite
  unfold Transaction.delete
  rw [ht]
  generalize hdelete : t.delete key = outcome
  obtain ⟨old, next⟩ := outcome
  simp only [Except.bind_eq_ok, Except.ok.injEq, exists_eq_left', hdelete]
  cases old with
  | none => exact ⟨_, rfl⟩
  | some row => exact ⟨_, rfl⟩

/-- A row can be put there if it has a key and no unique index has what it holds. -/
theorem Opens.put (h : tx.Opens tables n) {row : Row} (hfree : ∀ t, tables.get? n = some t →
    (t.keyOf row).hasNull = false ∧ t.checkUnique (t.keyOf row) row = .ok ()) :
    ∃ r, tx.put tables n row = .ok r := by
  obtain ⟨t, hfound, ht⟩ := h.tableToWrite
  obtain ⟨hnull, hunique⟩ := hfree t hfound
  have hkey : t.requireKey row = .ok (t.keyOf row) := by
    rw [Table.requireKey, if_neg (by rw [hnull]; exact Bool.false_ne_true)]
  have hput : t.put row = .ok (t.keyOf row, (t.remove (t.keyOf row)).store (t.keyOf row) row) :=
    Except.bind_eq_ok.2 ⟨_, hkey, Except.bind_eq_ok.2 ⟨(), hunique, rfl⟩⟩
  exact ⟨_, Except.bind_eq_ok.2 ⟨t, ht, Except.bind_eq_ok.2 ⟨_, hput, rfl⟩⟩⟩

end Transaction

/-! ### States in the course of a deletion -/

/-- The tables and the transaction have what they had at first, but for rows and what is noted. -/
structure Schema.Ongoing (s : Schema) (κ : String → String → NumberClass) (first : Tables)
    (began : Transaction) (tables : Tables) (tx : Transaction) : Prop where
  holds : s.Holds κ tables
  unique : tables.Unique
  active : tx.active = began.active
  mode : tx.mode = began.mode
  scope : tx.scope = began.scope
  there : ∀ n, (tables.get? n).isSome = (first.get? n).isSome

namespace Schema.Ongoing
variable {s : Schema} {κ : String → String → NumberClass} {first tables : Tables} {began tx : Transaction}
  {n : String}

theorem refl (hholds : s.Holds κ first) (hunique : first.Unique) : s.Ongoing κ first began first began :=
  ⟨hholds, hunique, rfl, rfl, rfl, fun _ => rfl⟩

theorem reads_iff (h : s.Ongoing κ first began tables tx) (n : String) :
    tx.Reads tables n ↔ began.Reads first n := by
  rw [Transaction.Reads, Transaction.Reads, h.active, h.scope, h.there]

theorem opens_iff (h : s.Ongoing κ first began tables tx) (n : String) :
    tx.Opens tables n ↔ began.Opens first n := by
  rw [Transaction.Opens, Transaction.Opens, h.reads_iff, h.mode]

theorem wrote (h : s.Ongoing κ first began tables tx) {t : Table} {key : Key} {new : Option Row}
    {tx' : Transaction} {tables' : Tables} (hw : tx.Wrote tables n t key new tx' tables')
    (hholds : s.Holds κ tables') (hunique : tables'.Unique) : s.Ongoing κ first began tables' tx' := by
  refine ⟨hholds, hunique, ?_, ?_, ?_, fun m => ?_⟩
  · rw [hw.log]
    exact h.active
  · rw [hw.log]
    exact h.mode
  · rw [hw.log]
    exact h.scope
  · rw [← h.there m, hw.tables, get?_insert_eq]
    split
    · next hm =>
      rw [← hm, hw.found]
      rfl
    · rfl

end Schema.Ongoing

theorem Schema.upholds_ongoing (s : Schema) (κ : String → String → NumberClass) (first : Tables)
    (began : Transaction) :
    s.Upholds (fun n c v => v.within (κ n c)) fun tables tx => s.Ongoing κ first began tables tx where
  stored h := (s.upholds_holds κ).stored h.holds
  add h _ he _ hrow _ _ _ hadd := by
    obtain ⟨t, hw, -, -⟩ := Transaction.add_ok hadd
    exact h.wrote hw ((s.upholds_holds κ).add h.holds he hrow hadd) (h.unique.add h.holds.proper hrow hadd)
  put h _ he _ hrow _ _ _ hput := by
    obtain ⟨t, hw, -, -⟩ := Transaction.put_ok hput
    exact h.wrote hw ((s.upholds_holds κ).put h.holds he hrow hput) (h.unique.put h.holds.proper hrow hput)
  delete h _ he _ hrow _ _ _ hdelete := by
    have hholds := (s.upholds_holds κ).delete h.holds he hrow hdelete
    have hunique := h.unique.delete hdelete
    obtain ⟨t, -, -, ⟨-, rfl, rfl⟩ | ⟨-, hw⟩⟩ := Transaction.delete_ok hdelete
    · exact h
    · exact h.wrote hw hholds hunique

/-- No time of the last write is in a unique group. -/
def Schema.Unstamped (s : Schema) : Prop :=
  ∀ e ∈ s.entities.values, ∀ group ∈ e.uniqueGroups, ∀ f ∈ e.fields, f.updatedAt = true → f.name ∉ group

instance (s : Schema) : Decidable s.Unstamped :=
  inferInstanceAs (Decidable (∀ e ∈ s.entities.values, ∀ group ∈ e.uniqueGroups, ∀ f ∈ e.fields,
    f.updatedAt = true → f.name ∉ group))

namespace Schema
variable {s : Schema} {κ : String → String → NumberClass} {first tables : Tables} {began tx : Transaction}
  {e : Entity} {r : Relation} {y z : Row} {n : String} {rows : List Row}

theorem Separate.key_unstamped (hs : s.Resolved) (hsep : s.Separate) (he : s.entity? e.name = some e)
    {c : String} (hc : c ∈ e.idFields) : c ∉ e.stamps := by
  intro hstamp
  obtain ⟨g, hg, rfl⟩ := List.mem_map.1 hstamp
  obtain ⟨hg, hupdated⟩ := List.mem_filter.1 hg
  have hid := (hsep.stamps e (hs.mem_values he) g hg hupdated).1
  rw [hs.id_of_mem_idFields he hg hc] at hid
  cases hid

/-- A value that an index holds stays when a key is cleared, or has a null then. -/
theorem Separate.index_eq (hs : s.Resolved) (hsep : s.Separate) (hplain : s.Unstamped)
    (he : s.entity? e.name = some e) {fields : List String} {time : DateTime}
    (hz : e.Renews fields time y z) {i : IndexDef} (hi : i ∈ e.tableDef.indexes)
    (hnull : (Key.ofRow i.fields z).hasNull = false) : Key.ofRow i.fields y = Key.ofRow i.fields z := by
  have hstamps : ∀ c ∈ i.fields, c ∉ e.stamps := by
    intro c hc hstamp
    obtain ⟨g, hg, rfl⟩ := List.mem_map.1 hstamp
    obtain ⟨hg, hupdated⟩ := List.mem_filter.1 hg
    rcases Entity.fields_of_mem_indexes hi with hgroup | ⟨r, hr, hnear⟩
    · exact hplain e (hs.mem_values he) _ hgroup g hg hupdated hc
    · rw [hnear] at hc
      exact (hsep.stamps e (hs.mem_values he) g hg hupdated).2 r hr hc
  refine (hz.ofRow_eq hstamps fun c hc hcleared => ?_).symm
  have hany : (Key.ofRow i.fields z).hasNull = true := by
    refine List.any_eq_true.2 ⟨z.value c, List.mem_map_of_mem hc, ?_⟩
    rw [hz c, if_neg (hstamps c hc), if_pos hcleared]
    rfl
  rw [hnull] at hany
  cases hany

/-- A row whose key is cleared can be put back. -/
theorem Ongoing.put (h : s.Ongoing κ first began tables tx) (hs : s.Resolved) (hsep : s.Separate)
    (hplain : s.Unstamped) (he : s.entity? e.name = some e) (hy : tables.Has e.name y)
    {fields : List String} {time : DateTime} (hz : e.Renews fields time y z)
    (hkey : e.keyOf z = e.keyOf y) (hopens : began.Opens first e.name) :
    ∃ r, tx.put tables e.name z = .ok r := by
  refine ((h.opens_iff e.name).2 hopens).put fun t ht => ?_
  obtain ⟨t', ht', hrow⟩ := hy
  cases ht'.symm.trans ht
  obtain ⟨k, hk⟩ := Table.mem_toList_iff.1 hrow
  have hproper := h.holds.proper.proper ht
  have hdefinition := h.holds.definition e t he ht
  have hown : t.keyOf z = t.keyOf y := by
    rw [h.holds.tableDef he ht, h.holds.tableDef he ht, hkey]
  have hwithin : z.Within (κ e.name) := by
    intro c
    rw [hz c]
    split
    · rfl
    · split
      · rfl
      · exact hproper.within _ hk c
  refine ⟨?_, (hproper.toSound.checkUnique_iff hwithin.fits).2 fun i hi hu hn f hf hshare => ?_⟩
  · rw [hown]
    exact hproper.keyOf_nonnull hrow
  · rw [hdefinition] at hi
    have hsame := hsep.index_eq hs hplain he hz hi hn
    rw [← hsame] at hn hshare
    rw [← hdefinition] at hi
    cases h.unique e.name t ht i hi hu _ hk f hf hn hshare
    rw [hown]
    exact hproper.stored _ hk

end Schema

/-! ### What a deletion comes to -/

/-- No row that goes references one that goes through a relation that forbids that. -/
def Schema.Quiet (s : Schema) (tables : Tables) (n : String) (rows : List Row) : Prop :=
  ∀ c, s.entity? c.name = some c → ∀ r ∈ c.owningRelations, r.onDelete = .restrict →
    ∀ y, s.Doomed tables n rows c.name y → ∀ parent, s.Doomed tables n rows r.target parent →
      ¬ r.Refers y parent

/-- The tables are at hand that the deletion of a row of the entity comes to. -/
structure Schema.WithinReach (s : Schema) (first : Tables) (began : Transaction) (n : String) : Prop where
  own : began.Opens first n
  dependents : ∀ c, s.entity? c.name = some c → ∀ r ∈ c.owningRelations, r.target = n →
    r.onDelete ≠ .noAction → began.Opens first c.name

/-- Nothing is in the way of the deletion of some rows. -/
structure Schema.Permits (s : Schema) (first : Tables) (began : Transaction) (n : String)
    (rows : List Row) : Prop where
  reaches : ∀ m z, s.Doomed first n rows m z → s.WithinReach first began m
  free : ∀ c, s.entity? c.name = some c → ∀ r ∈ c.owningRelations, r.onDelete = .restrict →
    ∀ y, first.Has c.name y → ∀ parent, s.Doomed first n rows r.target parent → ¬ r.Refers y parent

namespace Operation
variable {α β : Type} {s : Schema} {κ : String → String → NumberClass} {first : Tables}
  {began : Transaction} {n : String} {rows : List Row} {w w' w'' : Work}

/-- For each deletion that has begun since, the tables were at hand. -/
def Tells (s : Schema) (first : Tables) (began : Transaction) (w w' : Work) : Prop :=
  ∀ p ∈ w'.deleting, p ∈ w.deleting ∨ s.WithinReach first began p.1

theorem Tells.of_eq (h : w'.deleting = w.deleting) : Tells s first began w w' :=
  fun _ hp => .inl (h ▸ hp)

theorem Tells.trans (h : Tells s first began w w') (h' : Tells s first began w' w'') :
    Tells s first began w w'' := by
  intro p hp
  rcases h' p hp with hp | hp
  · exact h p hp
  · exact .inr hp

/-- The operation fails only where something is in the way of the deletion, and if it does not, that was
not so as far as it came. -/
abbrev Judges (s : Schema) (first : Tables) (began : Transaction) (n : String) (rows : List Row)
    (w : Work) (op : Operation α) (D : α → Prop) : Prop :=
  Triple (· = w) op (fun a w' => Tells s first began w w' ∧ D a)
    fun _ _ => ¬ s.Permits first began n rows

namespace Judges
variable {D : α → Prop} {S : β → Prop} {R : β → Work → Prop}

theorem pure {a : α} (h : D a) : Judges s first began n rows w (Pure.pure a) D :=
  Triple.pure fun _ hw => ⟨.of_eq (by rw [hw]), h⟩

theorem bind {x : Operation β} {f : β → Operation α} (hx : Judges s first began n rows w x S)
    (hends : Ends w x R) (hf : ∀ b w', R b w' → S b → Judges s first began n rows w' (f b) D) :
    Judges s first began n rows w (x >>= f) D := by
  refine Triple.bind (Triple.mono (Triple.and hx hends) (fun _ h => ⟨h, h⟩) (fun _ _ h => h)
    fun _ _ h => h.1) fun b => Triple.of_eq fun w' h => ?_
  obtain ⟨⟨htells, hb⟩, hw'⟩ := h
  exact Triple.mono (hf b w' hw' hb) (fun _ h => h) (fun _ _ h => ⟨htells.trans h.1, h.2⟩) fun _ _ h => h

theorem forM {I : Work → Prop} {D : β → Prop} {l : List β} {f : β → Operation Unit}
    (hends : ∀ b ∈ l, ∀ w, I w → Ends w (f b) fun _ => I)
    (hf : ∀ b ∈ l, ∀ w, I w → Judges s first began n rows w (f b) fun _ => D b) (h : I w) :
    Judges s first began n rows w (l.forM f) fun _ => ∀ b ∈ l, D b := by
  induction l generalizing w with
  | nil => exact pure (by simp)
  | cons b l ih =>
    refine bind (hf b List.mem_cons_self w h) (hends b List.mem_cons_self w h) fun _ w' h' hb => ?_
    refine Triple.mono (ih (fun b' hb' => hends b' (List.mem_cons_of_mem b hb'))
      (fun b' hb' => hf b' (List.mem_cons_of_mem b hb')) h') (fun _ h => h) (fun _ _ h => ?_) fun _ _ h => h
    exact ⟨h.1, List.forall_mem_cons.2 ⟨hb, h.2⟩⟩

end Judges

/-! ### Single steps -/

section Steps
variable {e c : Entity} {r : Relation} {key : Key} {x y : Row} {opened : List (String × Key)}

/-- A reading of a table succeeds if and only if the table is at hand. -/
theorem judges_look {reading : View → Read α} {c : Entity}
    (hgoing : s.Ongoing κ first began w.tables w.transaction)
    (hreading : ∀ e, reading ⟨s, w.tables, w.transaction⟩ = .error e →
      ∃ e, w.transaction.table w.tables c.name = .error e)
    (htable : ∀ a, reading ⟨s, w.tables, w.transaction⟩ = .ok a →
      ∃ t, w.transaction.table w.tables c.name = .ok t)
    (hopens : s.Permits first began n rows → began.Opens first c.name) :
    Judges s first began n rows w (look s reading) fun _ => began.Reads first c.name := by
  refine Triple.look fun w' hw => ?_
  subst hw
  refine .of_ok (fun a ha => ⟨.of_eq rfl, ?_⟩) fun e he hpermits => ?_
  · obtain ⟨t, ht⟩ := htable a ha
    exact (hgoing.reads_iff _).1 (.of_table ht)
  · obtain ⟨t, -, ht⟩ := Transaction.Reads.table ((hgoing.reads_iff _).2 (hopens hpermits).1)
    obtain ⟨e, he⟩ := hreading e he
    rw [ht] at he
    cases he

theorem judges_row? (hgoing : s.Ongoing κ first began w.tables w.transaction) (c : Entity) (key : Key)
    (hopens : s.Permits first began n rows → began.Opens first c.name) :
    Judges s first began n rows w (look s fun v => v.row? c key) fun _ => began.Reads first c.name := by
  refine judges_look hgoing (fun e he => ?_) (fun a ha => ?_) hopens
  · cases ht : w.transaction.table w.tables c.name with
    | error e => exact ⟨e, rfl⟩
    | ok t => simp [View.row?, View.table, ht, bind, Except.bind, Pure.pure, Except.pure] at he
  · obtain ⟨t, ht, -⟩ := Except.bind_eq_ok.1 ha
    exact ⟨t, ht⟩

theorem judges_rowsWhere (hgoing : s.Ongoing κ first began w.tables w.transaction)
    (hc : s.entity? c.name = some c) {fields : List String}
    (hnames : fields = c.idFields ∨ (c.tableDef.indexes.map (·.name)).Nodup)
    (hkey : key.Fits (κ c.name) fields) (hnull : key.hasNull = false)
    (hopens : s.Permits first began n rows → began.Opens first c.name) :
    Judges s first began n rows w (look s fun v => v.rowsWhere c fields key)
      fun _ => began.Reads first c.name := by
  refine judges_look hgoing (fun e he => ?_) (fun a ha => ?_) hopens
  · rw [hgoing.holds.rowsWhere_eq hc hnames w.transaction hkey hnull] at he
    have he := Except.map_eq_error.1 he
    cases ht : w.transaction.table w.tables c.name with
    | error e => exact ⟨e, rfl⟩
    | ok t => simp [View.rows, View.table, ht, bind, Except.bind, Pure.pure, Except.pure] at he
  · obtain ⟨t, ht, -⟩ := Except.bind_eq_ok.1 ha
    exact ⟨t, ht⟩

theorem judges_deleteRow (hgoing : s.Ongoing κ first began w.tables w.transaction) (e : Entity) (key : Key)
    (hopens : s.Permits first began n rows → began.Opens first e.name) :
    Judges s first began n rows w (deleteRow e key) fun _ => began.Opens first e.name := by
  refine Triple.get fun w' hw => ?_
  subst hw
  refine Triple.bind (R := fun _ w₁ => w₁.deleting = w'.deleting ∧ began.Opens first e.name)
    (Triple.bind (R := fun _ w₁ => w₁.deleting = w'.deleting ∧ began.Opens first e.name)
      (Triple.settle (.of_ok (fun r hr => ⟨rfl, ?_⟩) fun err herr hpermits => ?_))
      fun _ => Triple.pure fun _ h => h) fun _ => Triple.modify fun _ h => ⟨.of_eq h.1, h.2⟩
  · obtain ⟨t, ht, -⟩ := Except.bind_eq_ok.1 hr
    exact (hgoing.opens_iff _).1 (.of_tableToWrite ht)
  · obtain ⟨r, hr⟩ := ((hgoing.opens_iff _).2 (hopens hpermits)).delete key
    rw [hr] at herr
    cases herr

variable (hs : s.Resolved) (hsep : s.Separate) (hplain : s.Unstamped)
include hs hsep hplain

theorem judges_clearKey (hgoing : s.Ongoing κ first began w.tables w.transaction)
    (hc : s.entity? c.name = some c) (hr : r ∈ c.owningRelations) (hdo : r.onDelete = .setNull)
    (hy : w.tables.Has c.name y) (hopens : s.Permits first began n rows → began.Opens first c.name) :
    Judges s first began n rows w (clearKey (c.dependentOf r) c y) fun _ => True := by
  let z := (c.fields.filter (·.updatedAt)).foldl
    (fun row f => row.insert f.name (.datetime ⟨w.supply.time, 0⟩))
    (r.near.foldl (fun row f => row.insert f .null) y)
  have hz : c.Renews r.near ⟨w.supply.time, 0⟩ y z := c.renews_touched r.near _ y
  have hkey : c.keyOf z = c.keyOf y :=
    hz.ofRow_eq (fun f hf => hsep.key_unstamped hs hc hf) fun f hf hnear =>
      hs.near_of_setNull hc hr hdo hnear hf
  refine Triple.bind (ends_touch c _) fun row => Triple.of_eq fun w₁ h => ?_
  obtain ⟨rfl, rfl⟩ := h
  refine Triple.bind (R := fun _ w₂ => w₂.deleting = w.deleting) ?_ fun _ =>
    Triple.modify fun _ h => ⟨.of_eq h, trivial⟩
  refine Triple.bind (R := fun _ w₂ => w₂.deleting = w.deleting) (Triple.get fun w₂ hw₂ => ?_) fun _ =>
    Triple.pure fun _ h => h
  subst hw₂
  refine Triple.settle (.of_ok (fun _ _ => rfl) fun err herr hpermits => ?_)
  obtain ⟨r', hr'⟩ := hgoing.put hs hsep hplain hc hy hz hkey (hopens hpermits)
  cases hr'.symm.trans herr

end Steps

/-! ### Dependents -/

/-- The tables are underway, and the transaction is what it was. -/
structure Midway (s : Schema) (κ : String → String → NumberClass) (first : Tables) (began : Transaction)
    (n : String) (rows : List Row) (opened : List (String × Key)) (w w' : Work) : Prop where
  during : During s κ first n rows opened w'
  onward : Onward s w w'
  going : s.Ongoing κ first began w'.tables w'.transaction

/-- Each of the rows is what is left of one that referenced the row `x`. -/
def Referring (first : Tables) (c : Entity) (r : Relation) (x : Row) (present : List Row) : Prop :=
  ∀ z ∈ present, ∃ x', first.Has c.name x' ∧ c.keyOf z = c.keyOf x' ∧ r.Refers x' x

theorem ends_ongoing {op : Operation α} {Q : α → Prop}
    (h : Upholds (fun tables tx => s.Ongoing κ first began tables tx) op Q)
    (hgoing : s.Ongoing κ first began w.tables w.transaction) :
    Ends w op fun _ w' => s.Ongoing κ first began w'.tables w'.transaction :=
  Triple.mono h (fun _ hw => hw ▸ hgoing) (fun _ _ h => h.1) fun _ _ _ => trivial

theorem Ends.and {op : Operation α} {Q Q' : α → Work → Prop} (h : Ends w op Q) (h' : Ends w op Q') :
    Ends w op fun a w' => Q a w' ∧ Q' a w' :=
  Triple.mono (Triple.and h h') (fun _ h => ⟨h, h⟩) (fun _ _ h => h) fun _ _ _ => trivial

section
variable {opened : List (String × Key)} {e c : Entity} {r : Relation} {key : Key} {x y : Row}
variable (hs : s.Resolved) (hsep : s.Separate) (hfirst : s.Holds κ first) (hkinds : s.KeysOfKinds)
  (hplain : s.Unstamped)

/-- Each of the rows is read again, and then something is done to what is left of it. -/
theorem judges_forEachPresent {I : Work → Prop}
    (hI : ∀ w, I w → s.Ongoing κ first began w.tables w.transaction) (hc : s.entity? c.name = some c)
    (hopens : s.Permits first began n rows → began.Opens first c.name) {present : List Row}
    (hkey : ∀ row ∈ present, (c.keyOf row).Fits (κ c.name) c.idFields) {f : Row → Operation Unit}
    (hends : ∀ row ∈ present, ∀ w₁, I w₁ → ∀ z, w₁.tables.Has c.name z →
      compare (c.keyOf row) (c.keyOf z) = .eq → Ends w₁ (f z) fun _ => I)
    (hf : ∀ row ∈ present, ∀ w₁, I w₁ → ∀ z, w₁.tables.Has c.name z →
      compare (c.keyOf row) (c.keyOf z) = .eq → Judges s first began n rows w₁ (f z) fun _ => True)
    (h : I w) : Judges s first began n rows w (forEachPresent s c present f) fun _ => True := by
  refine Triple.mono (Judges.forM (D := fun _ => True) (fun row hrow w₁ h₁ => ?_)
    (fun row hrow w₁ h₁ => ?_) h) (fun _ h => h) (fun _ _ h => ⟨h.1, trivial⟩) fun _ _ h => h
  · refine Ends.bind (ends_look s _) fun found w₂ hfound => ?_
    obtain ⟨rfl, hfound⟩ := hfound
    cases found with
    | none => exact Ends.pure h₁
    | some z =>
      obtain ⟨hz, heq⟩ := ((hI w₂ h₁).holds.row?_iff hc hfound (hkey row hrow)).1 rfl
      exact hends row hrow w₂ h₁ z hz heq
  · refine Judges.bind (judges_row? (hI w₁ h₁) c _ hopens) (ends_look s _) fun found w₂ hfound _ => ?_
    obtain ⟨rfl, hfound⟩ := hfound
    cases found with
    | none => exact Judges.pure trivial
    | some z =>
      obtain ⟨hz, heq⟩ := ((hI w₂ h₁).holds.row?_iff hc hfound (hkey row hrow)).1 rfl
      exact hf row hrow w₂ h₁ z hz heq

/-- A relation that forbids the deletion fails it if any row is found. -/
theorem judges_restrict (hc : s.entity? c.name = some c) (hr : r ∈ c.owningRelations)
    (hdo : r.onDelete = .restrict) (hparent : s.Doomed first n rows r.target x) {present : List Row}
    (hreferring : Referring first c r x present) (err : Error) :
    Judges s first began n rows w (if !present.isEmpty then throw err else Pure.pure ())
      fun _ => True := by
  refine Triple.ite (fun hsome => Triple.throw fun _ _ hpermits => ?_) fun _ => Judges.pure trivial
  obtain ⟨z, hz⟩ : ∃ z, z ∈ present := List.exists_mem_of_ne_nil _ (by simpa using hsome)
  obtain ⟨x', hx', -, href⟩ := hreferring z hz
  exact hpermits.free c hc r hr hdo x' hx' x hparent href

include hs hsep hfirst

/-- What is left of a row that was found is left of one that referenced the row that goes. -/
theorem Referring.again {present : List Row} (hreferring : Referring first c r x present)
    (hc : s.entity? c.name = some c) {w₁ : Work} (h : Midway s κ first began n rows opened w w₁)
    {z z' : Row} (hz : z ∈ present) (hz' : w₁.tables.Has c.name z')
    (heq : compare (c.keyOf z) (c.keyOf z') = .eq) :
    ∃ x', first.Has c.name x' ∧ c.keyOf z' = c.keyOf x' ∧ r.Refers x' x := by
  obtain ⟨x', hx', hsame, href⟩ := hreferring z hz
  rw [hsame] at heq
  exact ⟨x', hx', h.during.keyOf_eq hs hsep hfirst hc hx' hz' heq, href⟩

/-- A relation that deletes in turn deletes what is left of each row. -/
theorem judges_cascade (h : Midway s κ first began n rows opened w w)
    (hc : s.entity? c.name = some c) (hr : r ∈ c.owningRelations) (hdo : r.onDelete = .cascade)
    (hparent : s.Doomed first n rows r.target x)
    (hopens : s.Permits first began n rows → began.Opens first c.name) {present : List Row}
    (hreferring : Referring first c r x present)
    (hkey : ∀ z ∈ present, (c.keyOf z).Fits (κ c.name) c.idFields)
    {deleteChild : Entity → Row → Operation Unit}
    (hholds : ∀ row : Row, row.Obeys (fun n c v => v.within (κ n c)) c.name →
      Upholds (fun tables tx => s.Ongoing κ first began tables tx) (deleteChild c row) fun _ => True)
    (hends : ∀ w₁, During s κ first n rows opened w₁ → Onward s w w₁ →
      ∀ z x', w₁.tables.Has c.name z → first.Has c.name x' → c.keyOf z = c.keyOf x' →
        s.Doomed first n rows c.name x' →
          Ends w₁ (deleteChild c z) fun _ w₂ => During s κ first n rows opened w₂ ∧
            Onward s w₁ w₂ ∧ (c.name, c.keyOf x') ∈ w₂.deleting)
    (hdelete : ∀ w₁, Midway s κ first began n rows opened w w₁ → ∀ z x', w₁.tables.Has c.name z →
      first.Has c.name x' → c.keyOf z = c.keyOf x' → s.Doomed first n rows c.name x' →
        Judges s first began n rows w₁ (deleteChild c z) fun _ => True) :
    Judges s first began n rows w (forEachPresent s c present (deleteChild c)) fun _ => True := by
  have hgoes {x' : Row} (hx' : first.Has c.name x') (href : r.Refers x' x) :
      s.Doomed first n rows c.name x' := .cascade hparent hc hr hdo hx' href
  refine judges_forEachPresent (fun _ h => h.going) hc hopens hkey ?_ ?_ h
  · intro z hz w₁ h₁ z' hz' heq
    obtain ⟨x', hx', hsame, href⟩ := hreferring.again hs hsep hfirst hc h₁ hz hz' heq
    have hended := hends w₁ h₁.during h₁.onward z' x' hz' hx' hsame (hgoes hx' href)
    have hgoing := ends_ongoing (hholds z' (h₁.going.holds.within hz')) h₁.going
    refine Ends.mono (hended.and hgoing) fun _ _ h₂ => ?_
    exact ⟨h₂.1.1, h₁.onward.trans h₂.1.2.1, h₂.2⟩
  · intro z hz w₁ h₁ z' hz' heq
    obtain ⟨x', hx', hsame, href⟩ := hreferring.again hs hsep hfirst hc h₁ hz hz' heq
    exact hdelete w₁ h₁ z' x' hz' hx' hsame (hgoes hx' href)

include hkinds hplain

/-- A relation that clears keys clears that of what is left of each row. -/
theorem judges_setNull (h : Midway s κ first began n rows opened w w)
    (hc : s.entity? c.name = some c) (hr : r ∈ c.owningRelations) (hdo : r.onDelete = .setNull)
    (hparent : s.Doomed first n rows r.target x)
    (hopens : s.Permits first began n rows → began.Opens first c.name) {present : List Row}
    (hreferring : Referring first c r x present)
    (hkey : ∀ z ∈ present, (c.keyOf z).Fits (κ c.name) c.idFields) :
    Judges s first began n rows w (forEachPresent s c present (clearKey (c.dependentOf r) c))
      fun _ => True := by
  have hV := Schema.admits_within hs hkinds hfirst.classes
  refine judges_forEachPresent (fun _ h => h.going) hc hopens hkey ?_ ?_ h
  · intro z hz w₁ h₁ z' hz' heq
    obtain ⟨x', hx', hsame, href⟩ := hreferring.again hs hsep hfirst hc h₁ hz hz' heq
    have hcleared := ends_clearKey hs hsep hfirst h₁.during hc hr hz' fun x₁ hx₁ hkey₁ => ?_
    · have hgoing := ends_ongoing (upholds_clearKey hV (s.upholds_ongoing κ first began) hc
        (c.dependentOf r) (h₁.going.holds.within hz')) h₁.going
      refine Ends.mono (hcleared.and hgoing) fun _ _ h₂ => ?_
      exact ⟨h₂.1.1, h₁.onward.trans h₂.1.2.1, h₂.2⟩
    · rw [hsame] at hkey₁
      cases hfirst.eq_of_keyOf hc hx' hx₁ (by rw [hkey₁]; exact Std.ReflOrd.compare_self)
      exact ⟨hdo, x, hparent, href⟩
  · intro z hz w₁ h₁ z' hz' heq
    exact judges_clearKey hs hsep hplain h₁.going hc hr hdo hz' hopens

/-- What the deletion of a row does to those that depend on it through one relation. -/
theorem judges_settleDependents (h : Midway s κ first began n rows opened w w)
    (he : s.entity? e.name = some e) (hx : first.Has e.name x)
    (hdoomed : s.Doomed first n rows e.name x) (hsame : e.keyOf y = e.keyOf x)
    (hc : s.entity? c.name = some c) (hr : r ∈ c.owningRelations) (htarget : r.target = e.name)
    {deleteChild : Entity → Row → Operation Unit}
    (hholds : ∀ row : Row, row.Obeys (fun n c v => v.within (κ n c)) c.name →
      Upholds (fun tables tx => s.Ongoing κ first began tables tx) (deleteChild c row) fun _ => True)
    (hends : ∀ w₁, During s κ first n rows opened w₁ → Onward s w w₁ →
      ∀ z x', w₁.tables.Has c.name z → first.Has c.name x' → c.keyOf z = c.keyOf x' →
        s.Doomed first n rows c.name x' →
          Ends w₁ (deleteChild c z) fun _ w₂ => During s κ first n rows opened w₂ ∧
            Onward s w₁ w₂ ∧ (c.name, c.keyOf x') ∈ w₂.deleting)
    (hdelete : ∀ w₁, Midway s κ first began n rows opened w w₁ → ∀ z x', w₁.tables.Has c.name z →
      first.Has c.name x' → c.keyOf z = c.keyOf x' → s.Doomed first n rows c.name x' →
        Judges s first began n rows w₁ (deleteChild c z) fun _ => True) :
    Judges s first began n rows w (settleDependents s e y deleteChild (c.dependentOf r))
      fun _ => r.onDelete ≠ .noAction → began.Reads first c.name := by
  have hlink := hsep.references_eq hs he hc hr htarget hsame
  have hnull := hfirst.keyOf_nonnull he hx
  have hparent : s.Doomed first n rows r.target x := by rwa [htarget]
  have haction : (c.dependentOf r).onDelete = r.onDelete := rfl
  unfold settleDependents
  simp only [hlink, hnull, Bool.or_false, decide_eq_true_eq, haction]
  refine Triple.ite (fun hact => Judges.pure fun hne => absurd hact hne) fun hact => ?_
  have hopens (hpermits : s.Permits first began n rows) : began.Opens first c.name :=
    (hpermits.reaches _ x hdoomed).dependents c hc r hr htarget hact
  have hrequire : s.require (c.dependentOf r).entity = .ok c := by
    show s.require c.name = .ok c
    rw [Schema.require, hc]
    rfl
  rw [hrequire]
  refine Judges.bind (S := fun child => child = c) (R := fun _ w' => w' = w) (Judges.pure rfl)
    (Ends.pure rfl) fun child w₁ hw₁ hchild => ?_
  subst hw₁ hchild
  have hlinked := hsep.fits_key hs he hc hr htarget hkinds h.during.holds (hfirst.within hx)
  have hnames := Or.inr (a := r.near = child.idFields) (hsep.indexes child (hs.mem_values hc))
  refine Judges.bind (judges_rowsWhere h.going hc hnames hlinked hnull hopens) (ends_look s _)
    fun present w₂ hpresent hreads => ?_
  obtain ⟨rfl, hpresent⟩ := hpresent
  have hmem (z : Row) := h.during.holds.mem_rowsWhere hc (x := z) hnames hpresent hlinked hnull
  -- Keys are only cleared on the way, so a row that is found referenced the other one at first.
  have hreferring : Referring first child r x present := by
    intro z hz
    obtain ⟨hhas, href⟩ := (hmem z).1 hz
    obtain ⟨x', hx', hsame', href⟩ := h.during.source_refers hs hsep hc hr hnull hhas href
    exact ⟨x', hx', hsame', (hsep.refers_iff hs he hc hr htarget).2 href⟩
  have hkey : ∀ z ∈ present, (child.keyOf z).Fits (κ child.name) child.idFields := fun z hz =>
    (h.during.holds.within ((hmem z).1 hz).1).fits.key
  have hdone {op : Operation Unit} (hop : Judges s first began n rows w₂ op fun _ => True) :
      Judges s first began n rows w₂ op fun _ => r.onDelete ≠ .noAction → began.Reads first child.name :=
    Triple.mono hop (fun _ h => h) (fun _ _ h => ⟨h.1, fun _ => hreads⟩) fun _ _ h => h
  cases hdo : r.onDelete with
  | noAction => exact absurd hdo hact
  | restrict =>
    rw [hdo] at hdone
    exact hdone (judges_restrict hc hr hdo hparent hreferring _)
  | cascade =>
    rw [hdo] at hdone
    exact hdone (judges_cascade hs hsep hfirst h hc hr hdo hparent hopens hreferring hkey hholds hends
      hdelete)
  | setNull =>
    rw [hdo] at hdone
    exact hdone (judges_setNull hs hsep hfirst hkinds hplain h hc hr hdo hparent hopens hreferring hkey)

/-- What the deletion of a row does to all that depend on it. -/
theorem judges_settleAll (h : Midway s κ first began n rows opened w w) (he : s.entity? e.name = some e)
    (hx : first.Has e.name x) (hdoomed : s.Doomed first n rows e.name x) (hsame : e.keyOf y = e.keyOf x)
    {deleteChild : Entity → Row → Operation Unit}
    (hholds : ∀ c : Entity, s.entity? c.name = some c → ∀ row : Row,
      row.Obeys (fun n c v => v.within (κ n c)) c.name →
        Upholds (fun tables tx => s.Ongoing κ first began tables tx) (deleteChild c row) fun _ => True)
    (hends : ∀ w₁, During s κ first n rows opened w₁ → Onward s w w₁ →
      ∀ c, s.entity? c.name = some c → ∀ z x', w₁.tables.Has c.name z → first.Has c.name x' →
        c.keyOf z = c.keyOf x' → s.Doomed first n rows c.name x' →
          Ends w₁ (deleteChild c z) fun _ w₂ => During s κ first n rows opened w₂ ∧
            Onward s w₁ w₂ ∧ (c.name, c.keyOf x') ∈ w₂.deleting)
    (hdelete : ∀ w₁, Midway s κ first began n rows opened w w₁ → ∀ c, s.entity? c.name = some c →
      ∀ z x', w₁.tables.Has c.name z → first.Has c.name x' → c.keyOf z = c.keyOf x' →
        s.Doomed first n rows c.name x' → Judges s first began n rows w₁ (deleteChild c z) fun _ => True) :
    Judges s first began n rows w (e.dependents.forM (settleDependents s e y deleteChild))
      fun _ => ∀ d ∈ e.dependents, d.onDelete ≠ .noAction → began.Reads first d.entity := by
  refine Judges.forM (I := Midway s κ first began n rows opened w) (fun d hd w₁ h₁ => ?_)
    (fun d hd w₁ h₁ => ?_) h
  · obtain ⟨c, hc, r, hr, htarget, rfl⟩ := (hs.dependents he d).1 hd
    have hsettled := ends_settleDependents hs hsep hfirst hkinds h₁.during he hx hdoomed hsame hc hr
      htarget fun w₂ h₂ hon₂ => hends w₂ h₂ (h₁.onward.trans hon₂) c hc
    refine Ends.mono (hsettled.and (ends_ongoing (upholds_settleDependents hs (Schema.admits_within hs
      hkinds hfirst.classes) (s.upholds_ongoing κ first began) e y hholds _) h₁.going)) fun _ _ h₂ => ?_
    exact ⟨h₂.1.1, h₁.onward.trans h₂.1.2.1, h₂.2⟩
  · obtain ⟨c, hc, r, hr, htarget, rfl⟩ := (hs.dependents he d).1 hd
    refine judges_settleDependents hs hsep hfirst hkinds hplain ⟨h₁.during, Onward.refl w₁, h₁.going⟩ he hx
      hdoomed hsame hc hr htarget (hholds c hc) (fun w₂ h₂ hon₂ => hends w₂ h₂ (h₁.onward.trans hon₂) c hc)
      fun w₂ h₂ => hdelete w₂ ⟨h₂.during, h₁.onward.trans h₂.onward, h₂.going⟩ c hc

/-! ### Nested deletions -/

/-- By induction on how deep deletions may still be nested, as `ends_deleteWithin`. -/
theorem judges_deleteWithin {all : List (String × Key)} (depth : Nat) :
    ∀ {opened : List (String × Key)} {w : Work} {e : Entity} {x y : Row},
      Midway s κ first began n rows opened w w → Covers s all w.tables → waiting all w.deleting < depth →
        s.entity? e.name = some e → w.tables.Has e.name y → first.Has e.name x →
          e.keyOf y = e.keyOf x → s.Doomed first n rows e.name x →
            Judges s first began n rows w (deleteWithin s depth e y) fun _ => True := by
  have hV := Schema.admits_within hs hkinds hfirst.classes
  have hJ := s.upholds_ongoing κ first began
  induction depth with
  | zero =>
    intro _ _ _ _ _ _ _ hdepth
    exact absurd hdepth (Nat.not_lt_zero _)
  | succ depth ih =>
    intro opened w e x y h hcovers hdepth he hy hx hsame hdoomed
    unfold deleteWithin
    simp only [hsame]
    refine Triple.bind (Triple.mono (Triple.and (ends_beginDelete e (e.keyOf x))
      (ends_begin hfirst h.during he hx hdoomed)) (fun _ h => ⟨h, h⟩) (fun _ _ h => h) fun _ _ h => h.1)
      fun fresh => Triple.of_eq fun w₁ hbegin => ?_
    obtain ⟨⟨-, hw₁⟩, hon₁, -, hbegin⟩ := hbegin
    cases fresh with
    | false => exact Triple.pure fun w' hw' => ⟨.of_eq (by rw [hw', hw₁]; rfl), trivial⟩
    | true =>
      simp only [if_true] at hbegin hw₁ ⊢
      obtain ⟨hduring, hnew, hdeleting⟩ := hbegin
      have h₁ : Midway s κ first began n rows ((e.name, e.keyOf x) :: opened) w₁ w₁ :=
        ⟨hduring, Onward.refl w₁, by rw [hw₁]; exact h.going⟩
      have hdepth₁ : waiting all w₁.deleting < depth := by
        have hmem : (e.name, e.keyOf x) ∈ all := by
          rw [← hsame]
          exact hcovers e he y hy
        rw [hdeleting]
        exact Nat.lt_of_lt_of_le (waiting_cons hmem hnew) (Nat.le_of_lt_succ hdepth)
      have hroom {w₂ : Work} (hon : Onward s w₁ w₂) :
          Covers s all w₂.tables ∧ waiting all w₂.deleting < depth :=
        ⟨hcovers.later (hon₁.trans hon), Nat.lt_of_le_of_lt (waiting_mono hon.begun) hdepth₁⟩
      have hsettled := judges_settleAll hs hsep hfirst hkinds hplain h₁ he hx hdoomed hsame
        (fun c hc row hrow => upholds_deleteWithin hs hV hJ depth hc hrow)
        (fun w₂ h₂ hon₂ c hc z x' hz hx' hkey hgoes => by
          obtain ⟨hcovers₂, hdepth₂⟩ := hroom hon₂
          exact ends_deleteWithin hs hsep hfirst hkinds depth h₂ hcovers₂ hdepth₂ hc hz hx' hkey hgoes)
        fun w₂ h₂ c hc z x' hz hx' hkey hgoes => by
          obtain ⟨hcovers₂, hdepth₂⟩ := hroom h₂.onward
          exact ih ⟨h₂.during, Onward.refl w₂, h₂.going⟩ hcovers₂ hdepth₂ hc hz hx' hkey hgoes
      have hgoing : Ends w₁ (e.dependents.forM (settleDependents s e y (deleteWithin s depth)))
          fun _ w' => s.Ongoing κ first began w'.tables w'.transaction :=
        ends_ongoing (Keeps.forM fun d _ => upholds_settleDependents hs hV hJ e y
          (fun c hc row hrow => upholds_deleteWithin hs hV hJ depth hc hrow) d) h₁.going
      have hpassed : Judges s first began n rows w₁
          (e.dependents.forM (settleDependents s e y (deleteWithin s depth)) >>= fun _ =>
            deleteRow e (e.keyOf x)) fun _ => s.WithinReach first began e.name := by
        refine Judges.bind hsettled hgoing fun _ w₂ h₂ hreads => ?_
        refine Triple.mono (judges_deleteRow h₂ e (e.keyOf x) fun hpermits =>
          (hpermits.reaches _ x hdoomed).own) (fun _ h => h) (fun _ _ h => ⟨h.1, h.2, ?_⟩) fun _ _ h => h
        intro c hc r hr htarget hact
        exact ⟨hreads _ ((hs.dependents he _).2 ⟨c, hc, r, hr, htarget, rfl⟩) hact, h.2.2⟩
      refine Triple.mono hpassed (fun _ h => h) (fun _ w₂ h₂ => ⟨fun p hp => ?_, trivial⟩) fun _ _ h => h
      rcases h₂.1 p hp with hp | hp
      · rw [hdeleting] at hp
        rcases List.mem_cons.1 hp with rfl | hp
        · exact .inr h₂.2
        · exact .inl hp
      · exact .inr hp

theorem judges_delete (h : Midway s κ first began n rows opened w w) (he : s.entity? e.name = some e)
    (hy : w.tables.Has e.name y) (hx : first.Has e.name x) (hsame : e.keyOf y = e.keyOf x)
    (hdoomed : s.Doomed first n rows e.name x) :
    Judges s first began n rows w (delete s e y) fun _ => True := by
  refine Triple.get fun w' hw => ?_
  subst hw
  refine judges_deleteWithin hs hsep hfirst hkinds hplain _ h (covers_rowKeys h.during.holds) ?_ he hy hx
    hsame hdoomed
  have hroom := extent_eq w'.tables
  have hle : waiting (rowKeys w'.tables) w'.deleting ≤ (rowKeys w'.tables).length :=
    List.countP_le_length
  omega

end

/-! ### Deletions -/

section
variable {e : Entity} {x : Row} (hs : s.Resolved) (hsep : s.Separate) (hkinds : s.KeysOfKinds)
  (hholds : s.Holds κ w.tables) (hfresh : w.deleting = []) (he : s.entity? e.name = some e)
  (hx : w.tables.Has e.name x)
include hs hsep hkinds hholds hfresh he hx

/-- What a deletion leads to; and the deletion of each row that goes has begun in the end. -/
theorem ends_deletion : Ends w (delete s e x) fun _ w' => s.Deletion w.tables e.name [x] w'.tables ∧
    s.Holds κ w'.tables ∧
      ∀ m z, s.Doomed w.tables e.name [x] m z → ∃ key, (m, key) ∈ w'.deleting := by
  have hroot : s.Doomed w.tables e.name [x] e.name x := .root List.mem_cons_self
  refine Ends.mono (ends_delete hs hsep hholds hkinds (during_start hholds hfresh [x]) he hx hx rfl hroot)
    fun _ w' h => ?_
  obtain ⟨hduring, -, hbegun⟩ := h
  have hdeletion : s.Deletion w.tables e.name [x] w'.tables :=
    hduring.deletion hs hsep hholds he (by simpa using hbegun)
  have hgone {c : Entity} (hc : s.entity? c.name = some c) {z : Row} (hz : w.tables.Has c.name z)
      (hdoomed : s.Doomed w.tables e.name [x] c.name z) : ∃ key, (c.name, key) ∈ w'.deleting := by
    refine ⟨c.keyOf z, ?_⟩
    by_contra hnew
    obtain ⟨y, hy, hsame⟩ := hduring.there c hc z hz hnew
    refine (hdeletion.gone c hc z hz).1 hdoomed y hy ?_
    rw [hsame]
    exact Std.ReflOrd.compare_self
  refine ⟨hdeletion, hduring.holds, fun m z hdoomed => ?_⟩
  cases hdoomed with
  | root hmem =>
    cases List.mem_singleton.1 hmem
    exact hgone he hx hroot
  | cascade hparent hc hr hcascade hrow hrefers =>
    exact hgone hc hrow (.cascade hparent hc hr hcascade hrow hrefers)

/-- A deletion in which no row that goes forbids another one to go succeeds if and only if nothing is
in its way. -/
theorem delete_ok_iff (hplain : s.Unstamped) (hunique : w.tables.Unique)
    (hquiet : s.Quiet w.tables e.name [x]) :
    (∃ w', (delete s e x).run w = .ok () w') ↔ s.Permits w.tables w.transaction e.name [x] := by
  have hmidway : Midway s κ w.tables w.transaction e.name [x] [] w w :=
    ⟨during_start hholds hfresh [x], Onward.refl w, .refl hholds hunique⟩
  have hjudges := judges_delete hs hsep hholds hkinds hplain hmidway he hx hx rfl (.root List.mem_cons_self)
    w rfl
  have hends := ends_deletion hs hsep hkinds hholds hfresh he hx w rfl
  cases hrun : (delete s e x).run w with
  | error err w' =>
    rw [hrun] at hjudges
    refine ⟨fun h => ?_, fun h => absurd h hjudges⟩
    obtain ⟨_, h⟩ := h
    cases h
  | ok a w' =>
    rw [hrun] at hjudges hends
    obtain ⟨hdeletion, -, hbegun⟩ := hends
    refine ⟨fun _ => ⟨fun m z hdoomed => ?_, fun c hc r hr hdo y hy parent hparent href => ?_⟩,
      fun _ => ⟨w', rfl⟩⟩
    · obtain ⟨key, hkey⟩ := hbegun m z hdoomed
      refine (hjudges.1 _ hkey).resolve_left fun hold => ?_
      rw [hfresh] at hold
      cases hold
    · by_cases hgoes : s.Doomed w.tables e.name [x] c.name y
      · exact hquiet c hc r hr hdo y hgoes parent hparent href
      · -- A row that stays references what it did, through such a relation.
        obtain ⟨y', hy', -, hcleared⟩ := hdeletion.kept c hc y hy hgoes
        refine hdeletion.unrestricted c hc r hr hdo y' hy' parent hparent ?_
        rw [Relation.Refers, hcleared.near_eq hs hsep hc hr fun hcut => ?_]
        · exact href
        · cases hdo.symm.trans hcut.1

end

end Operation

end RelationalStore

import RelationalStore.Client
import RelationalStore.Proofs.DeclaredKinds
import RelationalStore.Proofs.UndoLog

/- The tables of a schema. Each entity has the table that is declared for it, and the numbers in its
   columns are of the declared kinds (`Schema.Holds`). A store that is opened in memory starts with
   such tables, and what the engine writes into them can be taken back (`Schema.upholds_leads`). -/
namespace RelationalStore
open SortedMap Read Operation

/-- The tables belong to the schema: each entity has the table that is declared for it, and the
numbers in its columns are of the declared kinds. -/
structure Schema.Holds (s : Schema) (κ : String → String → NumberClass) (tables : Tables) :
    Prop where
  classes : ∀ e, s.entity? e.name = some e → κ e.name = s.classes e.name
  proper : Tables.Proper κ tables
  definition : ∀ e t, s.entity? e.name = some e → tables.get? e.name = some t →
    t.definition = e.tableDef

namespace Schema
variable {s : Schema} {κ : String → String → NumberClass} {first tables : Tables} {tx : Transaction}

/-- What writes lead to is kept by one more write. -/
theorem upholds_leads (hfirst : s.Holds κ first)
    (hd : ∀ n, (tables.get? n).map (·.definition) = (first.get? n).map (·.definition)) :
    s.Upholds (fun n c v => v.within (κ n c)) fun tables' tx' =>
      tx.Leads (.within ∘ κ) tables tx' tables' where
  stored {tables' tx'} h := by
    intro n t ht row hrow
    obtain ⟨-, -, hfound⟩ := Transaction.table_ok ht
    obtain ⟨e, he, rfl⟩ := List.mem_map.1 hrow
    exact (h.under.good hfound).within e he
  add h _ _ _ hrow _ _ _ hadd := h.trans
    (Transaction.leads_add h.under h.logged (fun _ _ => TableDef.suits_own hrow) hadd)
  put h _ _ _ hrow _ _ _ hput := h.trans
    (Transaction.leads_put h.under h.logged (fun _ _ => TableDef.suits_own hrow) hput)
  delete {tables' tx'} h {e} he {row} hrow {old _ _} hdelete := by
    refine h.trans (Transaction.leads_delete h.under h.logged (fun t ht hlen => ?_) hdelete)
    refine TableDef.suits_none (Key.fits_of_zip hlen fun p hp => ?_)
    -- The key of an entity's row has the columns of its table's key.
    have hdefinition : t.definition = e.tableDef := by
      obtain ⟨t₀, ht₀, heq⟩ := exists_of_map_eq ((h.definition e.name).trans (hd e.name)) ht
      rw [← heq]
      exact hfirst.definition e t₀ he ht₀
    rw [hdefinition] at hp
    obtain ⟨i, hi⟩ := List.mem_iff_getElem?.1 hp
    obtain ⟨hcolumn, hpart⟩ := List.getElem?_zip_eq_some.1 hi
    have hcolumn : e.idFields[i]? = some p.1 := hcolumn
    have hvalue : p.2 = row.value p.1 := by
      simpa [Entity.keyOf, Key.ofRow, hcolumn, eq_comm] using hpart
    rw [hvalue]
    exact hrow p.1

end Schema

/-! ### Stores in memory -/

/-- Each table is the empty one of an entity. -/
def Upgrade.Fresh (s : Schema) (u : Upgrade) : Prop :=
  ∀ n t, u.tables.get? n = some t →
    ∃ e, s.entity? e.name = some e ∧ n = e.name ∧ t = Table.ofDef e.tableDef

theorem Upgrade.fresh_createTable {s : Schema} {e : Entity} (he : s.entity? e.name = some e) :
    Keeps (Upgrade.Fresh s) (createTable e.tableDef) (fun _ => True) fun _ => True := by
  unfold createTable
  split
  -- A refused name ends it there, and what would follow is the same.
  case' h_2 => refine Keeps.andThen (Keeps.throw (Q := fun _ : Unit => True) trivial) fun _ => ?_
  all_goals
    refine Triple.get fun u hu => ?_
    split
    · refine fun _ hw => ⟨fun n t ht => ?_, trivial⟩
      subst hw
      rw [get?_insert_eq] at ht
      split at ht
      · next hn =>
        cases ht
        exact ⟨e, he, hn.symm, rfl⟩
      · exact hu n t ht
    · next existing hexisting =>
      -- A table of that name is the entity's own, because entities have names of their own.
      obtain ⟨e', he', hname, rfl⟩ := hu _ existing hexisting
      have hname : e.name = e'.name := hname
      rw [hname, he'] at he
      cases he
      exact Triple.ite (fun _ => Triple.pure fun _ hw => ⟨hw ▸ hu, trivial⟩) fun hne => absurd rfl hne

/-- An upgrade ends where each of its steps leads to, or at the first that fails. -/
theorem UpgradeStep.runAll_yields {I : Upgrade → Prop} {steps : List UpgradeStep}
    (hsteps : ∀ step ∈ steps, Triple I step.run (fun _ => I) fun _ _ => True) {u : Upgrade}
    (hu : I u) (reports : List UpgradeReport) :
    Yields (runAll u reports steps).1 I fun _ => True := by
  induction steps generalizing u reports with
  | nil => exact .ok hu
  | cons step rest ih =>
    have hstep := hsteps step List.mem_cons_self u hu
    rw [runAll]
    cases hrun : step.run.run u with
    | ok more u' =>
      rw [hrun] at hstep
      exact ih (fun step h => hsteps step (List.mem_cons_of_mem _ h)) hstep _
    | error e _ => exact .error trivial

theorem UpgradeStep.runAll_keeps {I : Upgrade → Prop} {steps : List UpgradeStep}
    (hsteps : ∀ step ∈ steps, Keeps I step.run (fun _ => True) fun _ => True) {u : Upgrade}
    (hu : I u) (reports : List UpgradeReport) :
    Yields (runAll u reports steps).1 I fun _ => True :=
  runAll_yields (fun step hstep => Triple.mono (hsteps step hstep) (fun _ h => h) (fun _ _ h => h.1)
    fun _ _ _ => trivial) hu reports

section
variable {s : Schema} (hs : s.Resolved) {config : Config} {supply : Supply} {d : Directory}
  {c : Client} (hmemory : config.storage = .memory)
  (hc : (Client.openWith s config supply d).result = .ok c)
include hs hmemory hc

/-- A client that was opened in memory has the empty tables of its schema. -/
theorem Client.fresh_openMemory {n : String} {t : Table} (ht : c.store.tables.get? n = some t) :
    ∃ e, s.entity? e.name = some e ∧ n = e.name ∧ t = Table.ofDef e.tableDef := by
  obtain ⟨store, hstore, rfl⟩ := Except.map_eq_ok.1 hc
  unfold Store.openWith at hstore
  split at hstore
  · cases hstore
  · simp only [hmemory] at hstore
    obtain ⟨u, hu, rfl⟩ := Except.map_eq_ok.1 hstore
    have hsteps : ∀ step ∈ s.entities.values.map fun e => UpgradeStep.createTable e.tableDef,
        Keeps (Upgrade.Fresh s) step.run (fun _ => True) fun _ => True := by
      intro step hstep
      obtain ⟨e, he, rfl⟩ := List.mem_map.1 hstep
      obtain ⟨n, hn⟩ := hs.ordered.mem_values_iff.1 he
      refine Keeps.andThen (Upgrade.fresh_createTable ?_) fun _ => Keeps.pure trivial
      rw [hs.name hn]
      exact hn
    have hfresh := UpgradeStep.runAll_keeps hsteps (u := {}) (fun _ _ ht => nomatch ht) [.started 0]
    rw [hu] at hfresh
    exact hfresh n t ht

theorem Client.holds_openMemory : s.Holds s.classes c.store.tables where
  classes _ _ := rfl
  proper := by
    refine ⟨fun {n t} ht => ?_, fun {n t} ht => ?_⟩ <;>
      obtain ⟨e, -, rfl, rfl⟩ := fresh_openMemory hs hmemory hc ht
    · rfl
    · exact ⟨.ofDef _, by simp [Table.ofDef]⟩
  definition e t he ht := by
    obtain ⟨e', he', hname, rfl⟩ := fresh_openMemory hs hmemory hc ht
    rw [hname, he'] at he
    cases he
    rfl

end

end RelationalStore

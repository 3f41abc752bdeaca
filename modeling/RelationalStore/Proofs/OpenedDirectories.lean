import RelationalStore.Proofs.DirectoryFiles
import RelationalStore.Proofs.ReloadedTables
import RelationalStore.Proofs.UniqueRows

/- The first time a store is opened in an empty directory it has the tables that it would have in
   memory, and the directory keeps them (`Store.openDirectory_fresh`). A directory that keeps some
   tables (`Directory.Retains`) can be opened at the same version, as long as no two rows of a table
   share a value of a unique index: every table is made of its rows again and agrees with the one
   that is kept (`Store.openDirectory_kept`). -/
namespace RelationalStore
open SortedMap Operation

/-- The name of a table is that of a file. -/
def Identifier.Plain (n : String) : Prop := n ≠ "" ∧ '/' ∉ n.toList

instance Identifier.decidablePlain (n : String) : Decidable (Plain n) :=
  inferInstanceAs (Decidable (n ≠ "" ∧ '/' ∉ n.toList))

theorem Identifier.plain_of_checkEntity {n : String} (h : checkEntity n = .ok ()) : Plain n := by
  have hform : checkForm n = .ok () := by
    obtain ⟨⟨⟩, hform, -⟩ := Except.bind_eq_ok.1 h
    exact hform
  unfold checkForm at hform
  split at hform
  · cases hform
  · split at hform
    · cases hform
    · next first rest hn =>
      have hall : ∀ c ∈ n.toList, isNameChar c = true := by
        rw [hn]
        split at hform
        · cases hform
        · next hfirst =>
          split at hform
          · next hrest =>
            refine List.forall_mem_cons.2 ⟨?_, by simpa using hrest⟩
            simp only [Bool.not_eq_true', Bool.not_eq_false] at hfirst
            simp [isNameChar, Char.isAlphanum, hfirst]
          · cases hform
      refine ⟨fun hempty => ?_, fun hslash => absurd (hall _ hslash) (by decide)⟩
      rw [hempty] at hn
      simp at hn

/-- The directory has the description of a store, and a file with the rows of each table. -/
structure Directory.Retains (git : Bool) (m : StoreMeta) (tables : Tables) (d : Directory) : Prop where
  framed : d.Framed git
  describes : d.Describes m
  holds : ∀ n t, tables.get? n = some t → d.Holds n t.toList

theorem Directory.Retains.of_writes {git : Bool} {m : StoreMeta} {tables : Tables} {d d' : Directory}
    (h : d.Retains git m tables) (hw : Writes git [] d d') : d'.Retains git m tables where
  framed := hw.framed
  describes := (hw.same _ (by simp)).trans h.describes
  holds n t ht := (h.holds n t ht).of_writes hw (by simp)

/-- What the directory has to keep depends on the tables of each name. -/
theorem Directory.Retains.congr {git : Bool} {m : StoreMeta} {tables tables' : Tables} {d : Directory}
    (h : d.Retains git m tables) (heq : ∀ n, tables'.get? n = tables.get? n) :
    d.Retains git m tables' where
  framed := h.framed
  describes := h.describes
  holds n t ht := h.holds n t ((heq n).symm.trans ht)

namespace Disk
open Directory
variable {git : Bool} {d d' : Directory} {m : StoreMeta} {tables : Tables} {t u : Table}

/-! ### Loading -/

theorem makeFolder_spec (h : d.Framed git) {path : String} (hpath : path = ".relkv" ∨ path = "tables") :
    Triple (· = d) (makeFolder path) (fun _ d' => Writes git [] d d') fun _ _ => False := by
  have hfolder := (h.folders path).2 hpath
  have hfile : d.isFile path = false := by rw [isFile, hfolder]
  refine Triple.get fun w hw => ?_
  subst hw
  rw [hfile]
  rintro w rfl
  have hsame (other : String) :
      (w.setEntry path .folder).entries.get? other = w.entries.get? other := by
    rw [setEntry, get?_insert_eq]
    split
    · next heq => rw [← heq, hfolder]
    · rfl
  refine ⟨⟨h.ordered.insert, fun other => ?_, h.history⟩, fun other _ => hsame other⟩
  rw [hsame]
  exact h.folders other

theorem prepare_spec (h : d.Framed git) :
    Triple (· = d) (prepare git) (fun _ d' => Writes git [] d d') fun _ _ => False := by
  refine Triple.bind (makeFolder_spec h (.inl rfl)) fun _ => Triple.of_eq fun d₁ hd₁ => ?_
  refine Triple.bind (makeFolder_spec hd₁.framed (.inr rfl)) fun _ => Triple.of_eq fun d₂ hd₂ => ?_
  have hw : Writes git [] d d₂ := hd₁.trans hd₂
  refine Triple.ite (fun hgit => Triple.modify fun w hw' => ?_) fun _ => Triple.pure fun w hw' => hw' ▸ hw
  obtain ⟨history, hhistory⟩ := Option.isSome_iff_exists.1 (hw.framed.history hgit)
  subst hw'
  rw [startHistory, hhistory]
  exact hw

theorem readMeta_spec (h : d.Describes m) (hversion : m.version < Nat.pow 2 32) :
    Triple (· = d) readMeta (fun read d' => d' = d ∧ read = some m) fun _ _ => False := by
  have hhas : d.has metaPath = true := by rw [has, show d.entries.get? metaPath = _ from h]; rfl
  refine Triple.get fun w hw => ?_
  subst hw
  rw [hhas]
  refine Triple.bind (read_spec h) fun text => Triple.of_eq fun w' hw' => ?_
  obtain ⟨rfl, rfl⟩ := hw'
  rw [StoreMeta.read?_pretty hversion]
  exact Triple.pure fun w hw => ⟨hw, rfl⟩

theorem loadTable_spec {definition : TableDef} {rows : List Row} (h : d.Holds definition.name rows)
    (hname : Identifier.Plain definition.name) (ht : Table.ofRows definition rows = .ok t) :
    Triple (· = d) (loadTable definition) (fun loaded d' => d' = d ∧ loaded = t) fun _ _ => False := by
  obtain ⟨text, hfile, hread⟩ := h
  have hhas : hasTable d definition.name = true := by
    simp [hasTable, has, hfile, hname.1, hname.2]
  refine Triple.get fun w hw => ?_
  subst hw
  rw [hhas]
  refine Triple.bind (read_spec hfile) fun text' => Triple.of_eq fun w' hw' => ?_
  obtain ⟨rfl, rfl⟩ := hw'
  rw [hread]
  simp only [ht]
  exact Triple.pure fun w hw => ⟨hw, rfl⟩

/-- Pairs in the order of their keys are the entries of their map. -/
theorem entries_ofList {α : Type} {pairs : List (String × α)}
    (h : (pairs.map (·.1)).Pairwise fun a b => compare a b = .lt) : (ofList pairs).entries = pairs := by
  have hpairs : Ordered ⟨pairs⟩ := ⟨List.pairwise_map.1 h, fun _ _ => trivial⟩
  refine eq_of_increasing (·.1) (ordered_ofList pairs).sorted hpairs.sorted fun e => ?_
  obtain ⟨k, v⟩ := e
  rw [← (ordered_ofList pairs).get?_eq_some_iff]
  exact ⟨mem_of_get?_ofList, get?_ofList_of_mem hpairs.nodup_keys⟩

section
variable {κ : String → String → NumberClass} {V : String → String → Value → Prop}
  (hunder : Tables.Under (fun n => .of (κ n) (V n)) tables) (hordered : Ordered tables)
  (hplain : ∀ n t, tables.get? n = some t → Identifier.Plain n) (hunique : tables.Unique)
  (hkeeps : d.Retains git m tables) (hm : m.tables = tables.values.map (·.definition))
include hunder hordered hplain hunique hkeeps hm

theorem loadTables_spec : Triple (· = d) (loadTables m)
    (fun loaded d' => d' = d ∧ tables.Paired (fun n => .of (κ n) (V n)) loaded) fun _ _ => False := by
  have hfound {e : String × Table} (he : e ∈ tables.entries) : tables.get? e.1 = some e.2 :=
    hordered.get?_eq_some_iff.2 he
  have hsorted : tables.keys.Pairwise fun a b => compare a b = .lt :=
    List.pairwise_map.2 hordered.sorted
  have hdefinitions : (SortedMap.ofList (m.tables.map fun d => (d.name, d))).values =
      tables.entries.map (·.2.definition) := by
    have hnames : (m.tables.map fun d => (d.name, d)).map (·.1) = tables.keys := by
      rw [hm, SortedMap.values, List.map_map, List.map_map, List.map_map]
      exact List.map_congr_left fun e he => hunder.name (hfound he)
    rw [SortedMap.values, entries_ofList (by rwa [hnames]), hm, SortedMap.values, List.map_map,
      List.map_map, List.map_map]
    rfl
  unfold loadTables
  simp only [hdefinitions, List.mapM_map]
  refine Triple.bind (R := fun loaded d' => d' = d ∧ List.Forall₂
    (fun e u => e.1 = u.name ∧ e.2.Agrees (.of (κ e.1) (V e.1)) u) tables.entries loaded) ?_
    fun loaded => Triple.pure fun w hw => ⟨hw.1, ?_⟩
  · refine Triple.mono (Keeps.mapM_each (I := (· = d)) (E := fun _ => False) fun e he => ?_)
      (fun _ hw => hw) (fun _ _ h => h) fun _ _ h => h.2
    have hget := hfound he
    obtain ⟨u, hu, hagrees⟩ := (hunder.good hget).reload (hunique e.1 e.2 hget)
    have hname : e.2.definition.name = e.1 := hunder.name hget
    have hload := loadTable_spec (by rw [hname]; exact hkeeps.holds e.1 e.2 hget)
      (by rw [hname]; exact hplain e.1 e.2 hget) hu
    refine Triple.mono hload (fun _ hw => hw) (fun _ _ h => ?_) fun _ _ h => h.elim
    obtain ⟨hd, rfl⟩ := h
    exact ⟨hd, by rw [Table.name, ← hagrees.definition, ← hname], hagrees⟩
  · have hpairs : List.Forall₂ (fun x y => x.1 = y.1 ∧ x.2.Agrees (.of (κ x.1) (V x.1)) y.2)
        tables.entries (loaded.map fun u => (u.name, u)) :=
      List.forall₂_map_right_iff.2 hw.2
    have hkeys : tables.entries.map (·.1) = (loaded.map fun u => (u.name, u)).map (·.1) := by
      rw [← List.forall₂_eq_eq_eq, List.forall₂_map_left_iff, List.forall₂_map_right_iff]
      exact hpairs.imp fun _ _ h => h.1
    rw [Tables.Paired, entries_ofList (hkeys ▸ hsorted)]
    exact hpairs

theorem loadDirectory_spec (hversion : m.version < Nat.pow 2 32) :
    Triple (· = d) (Store.loadDirectory git) (fun loaded d' => loaded.1 = some m ∧
      tables.Paired (fun n => .of (κ n) (V n)) loaded.2 ∧ d'.Retains git m tables) fun _ _ => False := by
  refine Triple.bind (prepare_spec hkeeps.framed) fun _ => Triple.of_eq fun d₁ hd₁ => ?_
  have hkept := hkeeps.of_writes hd₁
  refine Triple.bind (readMeta_spec hkept.describes hversion) fun read => Triple.of_eq fun d₂ hd₂ => ?_
  obtain ⟨rfl, rfl⟩ := hd₂
  refine Triple.bind (loadTables_spec hunder hordered hplain hunique hkept hm) fun loaded => ?_
  refine Triple.pure fun d' hd' => ?_
  obtain ⟨rfl, hpaired⟩ := hd'
  exact ⟨rfl, hpaired, hkept⟩

end

end Disk

/-- A directory is opened with tables that agree with those that it keeps. -/
theorem Store.openDirectory_kept {κ : String → String → NumberClass}
    {V : String → String → Value → Prop} {git : Bool} {d : Directory} {m : StoreMeta} {tables : Tables}
    (hunder : Tables.Under (fun n => .of (κ n) (V n)) tables) (hordered : Ordered tables)
    (hplain : ∀ n t, tables.get? n = some t → Identifier.Plain n) (hunique : tables.Unique)
    (hkeeps : d.Retains git m tables) (hm : m.tables = tables.values.map (·.definition))
    (hversion : m.version < Nat.pow 2 32) {c : Config} (hc : c.version = m.version)
    (steps : List UpgradeStep) :
    ∃ d' loaded, openDirectory c git steps d =
        ⟨.ok ⟨c.name, c.version, loaded, [], 1, some ⟨d', git⟩⟩, d', []⟩ ∧
      tables.Paired (fun n => .of (κ n) (V n)) loaded ∧ d'.Retains git m tables := by
  obtain ⟨⟨description, loaded⟩, d', hload, hdescription, hpaired, hkept⟩ :=
    (Disk.loadDirectory_spec hunder hordered hplain hunique hkeeps hm hversion).run_ok
  obtain rfl : description = some m := hdescription
  refine ⟨d', loaded, ?_, hpaired, hkept⟩
  rw [openDirectory, hload]
  simp [hc]

/-! ### The first time -/

/-- The tables of an upgrade that has declared some of the tables of a schema, and nothing else. -/
structure Upgrade.Begun (s : Schema) (u : Upgrade) : Prop where
  fresh : u.Fresh s
  ordered : Ordered u.tables
  plain : ∀ n t, u.tables.get? n = some t → Identifier.Plain n
  changed : u.changed = false → u.tables = ∅

theorem Upgrade.Begun.insert {s : Schema} {u : Upgrade} (h : u.Begun s) {e : Entity}
    (he : s.entity? e.name = some e) (hplain : Identifier.Plain e.name) :
    Upgrade.Begun s ⟨u.tables.insert e.name (.ofDef e.tableDef), true⟩ where
  fresh n t ht := by
    rw [get?_insert_eq] at ht
    split at ht
    · next hn =>
      cases ht
      exact ⟨e, he, hn.symm, rfl⟩
    · exact h.fresh n t ht
  ordered := h.ordered.insert
  plain n t ht := by
    rw [get?_insert_eq] at ht
    split at ht
    · next hn => exact hn ▸ hplain
    · exact h.plain n t ht
  changed hfalse := nomatch hfalse

theorem Upgrade.begun_createTable {s : Schema} {e : Entity} (he : s.entity? e.name = some e) :
    Keeps (Upgrade.Begun s) (createTable e.tableDef) (fun _ => True) fun _ => True := by
  unfold createTable
  cases hcheck : Identifier.checkEntity e.tableDef.name with
  | error fault => exact fun u hu => ⟨hu, trivial⟩
  | ok _ =>
    have hplain := Identifier.plain_of_checkEntity hcheck
    refine Triple.get fun u hu => ?_
    split
    · rintro u rfl
      exact ⟨hu.insert he hplain, trivial⟩
    · next existing hexisting =>
      -- A table of that name is the entity's own, because entities have names of their own.
      obtain ⟨e', he', hname, rfl⟩ := hu.fresh _ existing hexisting
      have hname : e.name = e'.name := hname
      rw [hname, he'] at he
      cases he
      exact Triple.ite (fun _ => Triple.pure fun _ hw => ⟨hw ▸ hu, trivial⟩) fun hne => absurd rfl hne

/-- The tables that the upgrade of a schema declares in an empty store. -/
theorem Upgrade.begun_runAll {s : Schema} (hs : s.Resolved) {u : Upgrade} {reports : List UpgradeReport}
    (h : (UpgradeStep.runAll {} reports
      (s.entities.values.map fun e => .createTable e.tableDef)).1 = .ok u) :
    u.Begun s := by
  have hsteps : ∀ step ∈ s.entities.values.map fun e => UpgradeStep.createTable e.tableDef,
      Keeps (Upgrade.Begun s) step.run (fun _ => True) fun _ => True := by
    intro step hstep
    obtain ⟨e, he, rfl⟩ := List.mem_map.1 hstep
    obtain ⟨n, hn⟩ := hs.ordered.mem_values_iff.1 he
    have he : s.entity? e.name = some e := by
      rw [hs.name hn]
      exact hn
    exact Keeps.andThen (begun_createTable he) fun _ => Keeps.pure trivial
  have hempty : Upgrade.Begun s {} :=
    ⟨fun _ _ ht => (nomatch ht), .nil, fun _ _ ht => (nomatch ht), fun _ => rfl⟩
  have hbegun := UpgradeStep.runAll_keeps hsteps hempty reports
  rw [h] at hbegun
  exact hbegun

namespace Disk
open Directory
variable {git : Bool} {d d' : Directory} {m : StoreMeta} {c : Config} {u : Upgrade} {s : Schema}

theorem makeFolder_free {path : String} (h : d.entries.get? path = none) :
    Triple (· = d) (makeFolder path) (fun _ d' => d' = d.setEntry path .folder) fun _ _ => False := by
  have hfile : d.isFile path = false := by rw [isFile, h]
  refine Triple.get fun w hw => ?_
  subst hw
  rw [hfile]
  exact fun w hw => hw ▸ rfl

/-- An empty directory gets the folders of a store. -/
theorem prepare_empty (git : Bool) :
    Triple (· = {}) (prepare git) (fun _ d' => d'.Framed git ∧ d'.has metaPath = false)
      fun _ _ => False := by
  have hget (path : String) :
      ((({} : Directory).setEntry ".relkv" .folder).setEntry "tables" .folder).entries.get? path =
        if path = ".relkv" ∨ path = "tables" then some .folder else none := by
    rw [setEntry, get?_insert_eq, setEntry, get?_insert_eq, get?_empty]
    by_cases htables : path = "tables" <;> by_cases hmeta : path = ".relkv" <;>
      simp [htables, hmeta, eq_comm]
  have hframed (history : Option History) (h : git = true → history.isSome) : Framed git
      { ((({} : Directory).setEntry ".relkv" .folder).setEntry "tables" .folder) with history } := by
    have hempty : Ordered (∅ : SortedMap String DirectoryEntry) := .nil
    refine ⟨hempty.insert.insert, fun path => ?_, h⟩
    rw [hget]
    split <;> simp_all
  have hmeta : (if metaPath = ".relkv" ∨ metaPath = "tables" then some DirectoryEntry.folder
      else none).isSome = false := by decide
  refine Triple.bind (makeFolder_free rfl) fun _ => Triple.of_eq fun d₁ hd₁ => ?_
  subst hd₁
  refine Triple.bind (makeFolder_free ?_) fun _ => Triple.of_eq fun d₂ hd₂ => ?_
  · rw [setEntry, get?_insert_of_ne (by decide)]
    rfl
  subst hd₂
  refine Triple.ite (fun _ => Triple.modify ?_) fun hgit => Triple.pure ?_
  · rintro w rfl
    exact ⟨hframed _ fun _ => rfl, (congrArg Option.isSome (hget metaPath)).trans hmeta⟩
  · rintro w rfl
    exact ⟨hframed _ fun h => absurd h hgit, (congrArg Option.isSome (hget metaPath)).trans hmeta⟩

/-- The names of tables that are kept under their names. -/
theorem names_values {tables : Tables} (h : Ordered tables)
    (hname : ∀ {n t}, tables.get? n = some t → t.name = n) :
    tables.values.map Table.name = tables.keys := by
  rw [SortedMap.values, List.map_map]
  exact List.map_congr_left fun e he => hname (h.get?_eq_some_iff.2 he)

theorem upgradeDirectory_spec (h : d.Framed git) (hu : u.Begun s) :
    Triple (· = d) (Store.upgradeDirectory c git u)
      (fun tables d' => tables = u.tables ∧
        d'.Retains git ⟨c.name, c.version, u.tables.values.map (·.definition)⟩ u.tables)
      fun _ _ => False := by
  have hmeta : OfStore metaPath := ⟨by decide, by decide⟩
  have hempty {t : Table} (ht : t ∈ u.tables.values) :
      t.toList = [] ∧ '/' ∉ t.name.toList := by
    obtain ⟨n, hn⟩ := hu.ordered.mem_values_iff.1 ht
    obtain ⟨e, he, rfl, rfl⟩ := hu.fresh n t hn
    exact ⟨rfl, (hu.plain _ _ hn).2⟩
  have hstorable : ∀ t ∈ u.tables.values, Storable t := fun t ht => by
    refine ⟨(hempty ht).2, ?_⟩
    rw [(hempty ht).1]
    rfl
  have hnodup : (u.tables.values.map Table.name).Nodup := by
    rw [names_values hu.ordered fun hn => ?_]
    · exact hu.ordered.nodup_keys
    · obtain ⟨e, he, rfl, rfl⟩ := hu.fresh _ _ hn
      rfl
  refine Triple.bind (h.write hmeta _) fun _ => Triple.of_eq fun d₁ hd₁ => ?_
  have hdescribes : d₁.Describes ⟨c.name, c.version, u.tables.values.map (·.definition)⟩ := hd₁.2
  have hrecorded : Triple (fun d₂ => Writes git (u.tables.values.flatMap paths) d₁ d₂ ∧
      ∀ t ∈ u.tables.values, d₂.Holds t.name t.toList)
      (do
        record git s!"Upgrade store '{c.name}' to version {c.version}"
        return u.tables)
      (fun tables d' => tables = u.tables ∧
        d'.Retains git ⟨c.name, c.version, u.tables.values.map (·.definition)⟩ u.tables)
      fun _ _ => False := by
    refine Triple.of_eq fun d₂ hd₂ => ?_
    refine Triple.bind (record_spec hd₂.1.framed _) fun _ => Triple.pure fun d' hd' => ⟨rfl, ?_⟩
    refine ⟨hd'.framed, ?_, fun n t ht => ?_⟩
    · have hnot := metaPath_notMem_paths fun t ht => (hempty ht).2
      exact ((hd'.same _ (by simp)).trans (hd₂.1.same _ hnot)).trans hdescribes
    · have hn : t.name = n := by
        obtain ⟨e, -, rfl, rfl⟩ := hu.fresh _ _ ht
        rfl
      exact hn ▸ (hd₂.2 t (mem_values_of_get? ht)).of_writes hd' (by simp)
  refine Triple.ite (fun _ => ?_) fun hchanged => ?_
  · exact Triple.bind (forM_writeTable_spec hstorable hnodup hd₁.1.framed) fun _ => hrecorded
  · have hnone := hu.changed (by simpa using hchanged)
    refine Triple.mono hrecorded (fun w hw => ?_) (fun _ _ h => h) fun _ _ h => h
    exact ⟨.of_eq hd₁.1.framed hw, by simp [hnone, SortedMap.values]⟩

end Disk

namespace Store
variable {s : Schema} (c : Config) (git : Bool)

/-- An empty directory has no description. -/
theorem loadDirectory_empty :
    ∃ d, (loadDirectory git).run {} = .ok (none, ∅) d ∧ d.Framed git := by
  have hload : Operation.Triple (· = {}) (loadDirectory git)
      (fun loaded d' => loaded = (none, ∅) ∧ d'.Framed git) fun _ _ => False := by
    refine Triple.bind (Disk.prepare_empty git) fun _ => Triple.of_eq fun d₁ hd₁ => ?_
    refine Triple.bind (R := fun read d' => d' = d₁ ∧ read = none) ?_ fun read =>
      Triple.of_eq fun d₂ hd₂ => ?_
    · refine Triple.get fun w hw => ?_
      subst hw
      rw [hd₁.2]
      exact Triple.pure fun _ hw => ⟨hw, rfl⟩
    · obtain ⟨rfl, rfl⟩ := hd₂
      exact Triple.pure fun w hw => ⟨rfl, hw ▸ hd₁.1⟩
  obtain ⟨loaded, d, hrun, rfl, hframed⟩ := hload.run_ok
  exact ⟨d, hrun, hframed⟩

/-- Nothing is opened in an empty directory if the upgrade fails. -/
theorem openDirectory_refused {steps : List UpgradeStep} {e : Error}
    (he : (UpgradeStep.runAll {} [.started 0] steps).1 = .error e) :
    (openDirectory c git steps {}).result = .error e := by
  obtain ⟨d, hrun, -⟩ := loadDirectory_empty git
  cases hall : UpgradeStep.runAll {} [.started 0] steps with
  | mk upgraded reports =>
    rw [hall] at he
    obtain rfl : upgraded = .error e := he
    have hall' : UpgradeStep.runAll { tables := ∅ } [.started 0] steps = (.error e, reports) := hall
    rw [openDirectory, hrun]
    simp only [Option.elim_none, Nat.not_lt_zero, if_false, Option.isSome_none, Bool.false_and,
      Bool.false_eq_true, hall']

/-- The first opening in an empty directory: the store has the tables that are declared, and the
directory keeps them. -/
theorem openDirectory_fresh (hs : s.Resolved) {u : Upgrade}
    (hu : (UpgradeStep.runAll {} [.started 0]
      (s.entities.values.map fun e => .createTable e.tableDef)).1 = .ok u) :
    ∃ d' reports, openDirectory c git (s.entities.values.map fun e => .createTable e.tableDef) {} =
        ⟨.ok ⟨c.name, c.version, u.tables, [], 1, some ⟨d', git⟩⟩, d', reports⟩ ∧
      d'.Retains git ⟨c.name, c.version, u.tables.values.map (·.definition)⟩ u.tables := by
  obtain ⟨d₁, hrun, hframed⟩ := loadDirectory_empty git
  obtain ⟨tables, d', hupgrade, rfl, hretains⟩ :=
    (Disk.upgradeDirectory_spec (c := c) hframed (Upgrade.begun_runAll hs hu)).run_ok
  generalize hsteps : s.entities.values.map (fun e => UpgradeStep.createTable e.tableDef) = steps at hu ⊢
  cases hall : UpgradeStep.runAll {} [.started 0] steps with
  | mk upgraded reports =>
    rw [hall] at hu
    obtain rfl : upgraded = .ok u := hu
    refine ⟨d', reports, ?_, hretains⟩
    have hall' : UpgradeStep.runAll { tables := ∅ } [.started 0] steps = (.ok u, reports) := hall
    rw [openDirectory, hrun]
    simp only [Option.elim_none, Nat.not_lt_zero, if_false, Option.isSome_none, Bool.false_and,
      Bool.false_eq_true, hall', hupgrade]

end Store

end RelationalStore

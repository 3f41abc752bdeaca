import RelationalStore.Proofs.OpenedDirectories
import RelationalStore.Proofs.StagedFiles

/- Stores that are opened in a directory. Whatever a directory holds, opening a store in it goes
   through three steps, and each has one lemma that says all it can do. Loading gives for each
   description the table that is made of its file, and changes no more than the two folders
   (`Disk.loadDirectory_cases`). Declaring a table again makes it of its rows under the new
   definition (`Upgrade.Redeclares`), and as long as nothing was declared anew the tables are the
   ones that were loaded. Writing the tables puts their documents into place
   (`Store.upgradeDirectory_cases`). So each table of a store that was opened is the one that is
   made of its file, or its document is its file (`Store.openDirectory_rests`). -/
namespace RelationalStore
open SortedMap Operation

/-! ### Loading -/

namespace Table
variable {d : TableDef} {t : Table} {rows : List Row}

theorem definition_ofRows (h : ofRows d rows = .ok t) : t.definition = d := by
  have hfold : ∀ u : Table, u.definition = d →
      rows.foldlM (fun t row => (t.add row).map (·.2)) u = .ok t → t.definition = d := by
    clear h
    induction rows with
    | nil =>
      intro u hu h
      cases h
      exact hu
    | cons row rest ih =>
      intro u hu h
      rw [List.foldlM_cons] at h
      obtain ⟨u', hu', h⟩ := Except.bind_eq_ok.1 h
      obtain ⟨⟨key, u'⟩, hadd, rfl⟩ := Except.map_eq_ok.1 hu'
      obtain ⟨-, -, -, -, rfl⟩ := add_ok hadd
      exact ih (u.store key row) hu h
  exact hfold _ rfl h

end Table

namespace Disk
open Directory
variable {git : Bool} {d d' : Directory} {m : StoreMeta} {t : Table} {ts : List Table}

/-- The folders that every store has. -/
def folders : List String := [".relkv", "tables"]

theorem makeFolder_cases (h : Ordered d.entries) (path : String) :
    Triple (· = d) (makeFolder path)
      (fun _ d' => Alters [path] d d' ∧ d'.entries.get? path = some .folder) fun _ d' => d' = d := by
  refine Triple.get fun w hw => ?_
  subst hw
  refine Triple.ite (fun _ => Triple.throw fun _ hw => hw) fun _ => ?_
  rintro w rfl
  exact ⟨alters_setEntry h path .folder, get?_insert_self _ _ _⟩

/-- A directory with the folders of a store, and a history if one is kept. -/
structure Prepared (git : Bool) (d : Directory) : Prop where
  ordered : Ordered d.entries
  home : d.entries.get? ".relkv" = some .folder
  folder : d.entries.get? "tables" = some .folder
  history : git = true → d.history.isSome

theorem prepare_cases (h : Ordered d.entries) :
    Triple (· = d) (prepare git) (fun _ d' => Alters folders d d' ∧ Prepared git d')
      fun _ d' => Alters folders d d' := by
  refine Triple.bind (R := fun _ d' => Alters [".relkv"] d d' ∧
      d'.entries.get? ".relkv" = some .folder)
    (Triple.mono (makeFolder_cases h _) (fun _ h => h) (fun _ _ h => h) fun _ _ heq => .of_eq h heq)
    fun _ => Triple.of_eq fun d₁ hd₁ => ?_
  obtain ⟨ha₁, hhome⟩ := hd₁
  refine Triple.bind (R := fun _ d' => Alters ["tables"] d₁ d' ∧
      d'.entries.get? "tables" = some .folder)
    (Triple.mono (makeFolder_cases ha₁.ordered _) (fun _ h => h) (fun _ _ h => h) fun _ _ heq =>
      heq ▸ ha₁.mono (by decide)) fun _ => Triple.of_eq fun d₂ hd₂ => ?_
  obtain ⟨ha₂, hfolder⟩ := hd₂
  have ha : Alters folders d d₂ := ha₁.trans ha₂
  have hhome : d₂.entries.get? ".relkv" = some .folder := by
    rw [ha₂.same _ (by decide)]
    exact hhome
  refine Triple.ite (fun _ => Triple.modify fun w hw => ?_) fun hgit => Triple.pure fun w hw => ?_
  · subst hw
    rw [startHistory]
    split
    · next hsome => exact ⟨ha, ha.ordered, hhome, hfolder, fun _ => by rw [hsome]; rfl⟩
    · exact ⟨⟨ha.ordered, ha.same, fun _ => rfl⟩, ha.ordered, hhome, hfolder, fun _ => rfl⟩
  · subst hw
    exact ⟨ha, ha.ordered, hhome, hfolder, fun h => absurd h hgit⟩

theorem readMeta_cases (d : Directory) :
    Triple (· = d) readMeta (fun description d' => d' = d ∧
        (d.entries.get? metaPath = none ∧ description = none ∨
          ∃ text m, d.entries.get? metaPath = some (.file text) ∧ description = some m))
      fun _ d' => d' = d := by
  refine Triple.get fun w hw => ?_
  subst hw
  refine Triple.ite (fun _ => ?_) fun hnot => Triple.pure fun _ hw => ⟨hw, .inl ⟨?_, rfl⟩⟩
  · refine Triple.bind (Triple.mono (read_cases metaPath) (fun _ h => h) (fun _ _ h => h)
      fun _ _ h => h.2) fun text => Triple.of_eq fun w' hw' => ?_
    obtain ⟨htext, rfl⟩ := hw'
    split
    · next m hm => exact Triple.pure fun _ hw => ⟨hw, .inr ⟨text, m, htext, rfl⟩⟩
    · exact Triple.throw fun _ hw => hw
  · simpa [has] using hnot

/-- The table is the one that is made of its file. -/
def Loaded (d : Directory) (t : Table) : Prop := (loadTable t.definition).run d = .ok t d

theorem run_read (d : Directory) (path : String) : (Directory.read path).run d =
    match d.entries.get? path with
    | some (.file text) => .ok text d
    | _ => .error (.storage .unreadable) d := by
  simp only [Directory.read, EStateM.run_bind, EStateM.run_get]
  rcases d.entries.get? path with _ | ⟨text⟩ | _ <;> rfl

theorem run_throw {α : Type} (e : Error) (d : Directory) :
    (throw e : Directory.Action α).run d = .error e d := rfl

/-- A table without a file is empty, and any other is made of the rows in its file. -/
theorem loaded_iff : Loaded d t ↔
    hasTable d t.name = false ∧ t = .ofDef t.definition ∨
      hasTable d t.name = true ∧ ∃ text rows, d.entries.get? (tablePath t.name) = some (.file text) ∧
        Row.ofDocumentText? text = some rows ∧ Table.ofRows t.definition rows = .ok t := by
  simp only [Loaded, loadTable, EStateM.run_bind, EStateM.run_get, Table.name]
  cases hhas : hasTable d t.definition.name with
  | false => simp [eq_comm]
  | true =>
    simp only [if_true, EStateM.run_bind, run_read]
    cases hfile : d.entries.get? (tablePath t.definition.name) with
    | none => simp
    | some e =>
      cases e with
      | folder => simp
      | file text =>
        cases hrows : Row.ofDocumentText? text with
        | none => simp [hrows, run_throw]
        | some rows =>
          cases ht : Table.ofRows t.definition rows <;> simp [hrows, ht, run_throw]

theorem hasTable_eq {n : String} (h : d'.entries.get? (tablePath n) = d.entries.get? (tablePath n)) :
    hasTable d' n = hasTable d n := by
  rw [hasTable, hasTable, has, has, h]

theorem Loaded.of_alters {touched : List String} (h : Loaded d t) (ha : Alters touched d d')
    (hnot : tablePath t.name ∉ touched) : Loaded d' t := by
  rw [loaded_iff] at h ⊢
  rw [hasTable_eq (ha.same _ hnot), ha.same _ hnot]
  exact h

theorem loadTable_cases (d : Directory) (definition : TableDef) :
    Triple (· = d) (loadTable definition)
      (fun t d' => d' = d ∧ t.definition = definition ∧ t.Made ∧ Loaded d t) fun _ d' => d' = d := by
  have hstate : Triple (· = d) (loadTable definition)
      (fun t d' => d' = d ∧ t.definition = definition) fun _ d' => d' = d := by
    refine Triple.get fun w hw => ?_
    subst hw
    refine Triple.ite (fun _ => ?_) fun _ => Triple.pure fun _ hw => ⟨hw, rfl⟩
    refine Triple.bind (Triple.mono (read_cases _) (fun _ h => h) (fun _ _ h => h) fun _ _ h => h.2)
      fun text => Triple.of_eq fun w' hw' => ?_
    obtain ⟨-, rfl⟩ := hw'
    split
    · exact Triple.throw fun _ hw => hw
    · split
      · next t ht => exact Triple.pure fun _ hw => ⟨hw, Table.definition_ofRows ht⟩
      · exact Triple.throw fun _ hw => hw
  rintro w rfl
  have hrun := hstate w rfl
  have hmade := made_loadTable definition w trivial
  unfold Loaded
  cases hload : (loadTable definition).run w with
  | error e w' =>
    rw [hload] at hrun
    exact hrun
  | ok t w' =>
    rw [hload] at hrun hmade
    obtain ⟨rfl, hdefinition⟩ := hrun
    exact ⟨rfl, hdefinition, hmade.2, by rw [hdefinition]; exact hload⟩

/-- In the place of the live file is no folder. -/
theorem Loaded.ne_folder (h : Loaded d t) (hplain : Identifier.Plain t.name) :
    d.entries.get? (tablePath t.name) ≠ some .folder := by
  rcases loaded_iff.1 h with ⟨hnone, -⟩ | ⟨-, text, rows, hfile, -⟩
  · have hhas : d.has (tablePath t.name) = false := by
      simpa [hasTable, hplain.1, hplain.2] using hnone
    intro hfolder
    rw [has, hfolder] at hhas
    cases hhas
  · simp [hfile]

theorem Live.ne_folder (h : Live t d) : d.entries.get? (tablePath t.name) ≠ some .folder := by
  obtain ⟨text, -, hfile⟩ := h
  simp [hfile]

/-- The tables of a directory, each under its name. -/
structure Holding (d : Directory) (tables : Tables) : Prop where
  ordered : Ordered tables
  name : ∀ {n t}, tables.get? n = some t → t.name = n
  made : tables.Made
  loaded : ∀ {n t}, tables.get? n = some t → Loaded d t

theorem loadTables_cases (d : Directory) (m : StoreMeta) :
    Triple (· = d) (loadTables m)
      (fun tables d' => d' = d ∧ Holding d tables ∧
        ∀ n t, tables.get? n = some t → t.definition ∈ m.tables) fun _ d' => d' = d := by
  have hdefinitions {definition : TableDef}
      (h : definition ∈ (SortedMap.ofList (m.tables.map fun d => (d.name, d))).values) :
      definition ∈ m.tables := by
    obtain ⟨n, hn⟩ := (ordered_ofList _).mem_values_iff.1 h
    obtain ⟨_, hmem, heq⟩ := List.mem_map.1 (mem_of_get?_ofList hn)
    cases heq
    exact hmem
  refine Triple.bind (R := fun loaded d' => d' = d ∧
      ∀ t ∈ loaded, t.definition ∈ m.tables ∧ t.Made ∧ Loaded d t)
    (Triple.mono (Keeps.mapM (I := (· = d)) (E := fun _ => True) fun definition hdefinition => ?_)
      (fun _ h => h) (fun _ _ h => h) fun _ _ h => h.1) fun loaded => Triple.pure fun w hw => ?_
  · refine Triple.mono (loadTable_cases d definition) (fun _ h => h) (fun t d' ht => ?_)
      fun _ _ h => ⟨h, trivial⟩
    exact ⟨ht.1, ht.2.1 ▸ hdefinitions hdefinition, ht.2.2⟩
  · obtain ⟨rfl, hall⟩ := hw
    have hmem {n : String} {t : Table}
        (ht : (SortedMap.ofList (loaded.map fun t => (t.name, t))).get? n = some t) :
        t ∈ loaded ∧ t.name = n := by
      obtain ⟨_, hmem, heq⟩ := List.mem_map.1 (mem_of_get?_ofList ht)
      cases heq
      exact ⟨hmem, rfl⟩
    refine ⟨rfl, ⟨ordered_ofList _, fun ht => (hmem ht).2, ?_, fun ht => (hall _ (hmem ht).1).2.2⟩,
      fun n t ht => (hall t (hmem ht).1).1⟩
    refine Tables.made_ofList fun p hp => ?_
    obtain ⟨t, ht, rfl⟩ := List.mem_map.1 hp
    exact (hall t ht).2.1

/-- What was loaded from a directory. -/
structure Found (d : Directory) (description : Option StoreMeta) (tables : Tables) : Prop where
  holding : Holding d tables
  absent : description = none → d.entries.get? metaPath = none ∧ tables = ∅
  present : ∀ m ∈ description, (∃ text, d.entries.get? metaPath = some (.file text)) ∧
    ∀ n t, tables.get? n = some t → t.definition ∈ m.tables

theorem loadDirectory_cases (git : Bool) (h : Ordered d.entries) :
    Triple (· = d) (Store.loadDirectory git)
      (fun loaded d' => Alters folders d d' ∧ Prepared git d' ∧ Found d' loaded.1 loaded.2)
      fun _ d' => Alters folders d d' := by
  refine Triple.bind (prepare_cases h) fun _ => Triple.of_eq fun d₁ hd₁ => ?_
  obtain ⟨ha, hprepared⟩ := hd₁
  refine Triple.bind (Triple.mono (readMeta_cases d₁) (fun _ h => h) (fun _ _ h => h)
    fun _ _ h => h ▸ ha) fun description => Triple.of_eq fun d₂ hd₂ => ?_
  obtain ⟨rfl, hread⟩ := hd₂
  rcases hread with ⟨hnone, rfl⟩ | ⟨text, m, htext, rfl⟩
  · refine Triple.pure fun w hw => ?_
    subst hw
    have hholding : Holding w ∅ := ⟨.nil, nofun, nofun, nofun⟩
    exact ⟨ha, hprepared, hholding, fun _ => ⟨hnone, rfl⟩, nofun⟩
  · refine Triple.bind (Triple.mono (loadTables_cases d₂ m) (fun _ h => h) (fun _ _ h => h)
      fun _ _ h => h ▸ ha) fun tables => Triple.pure fun w hw => ?_
    obtain ⟨rfl, hholding, hdescribed⟩ := hw
    refine ⟨ha, hprepared, hholding, nofun, fun m' hm' => ?_⟩
    cases hm'
    exact ⟨⟨text, htext⟩, hdescribed⟩

end Disk

/-! ### Declaring -/

namespace Upgrade
variable {d : TableDef} {u u' : Upgrade} {old : Option Table} {t : Table} {n : String}

/-- What a table becomes when it is declared: it is new, or as it was, or made of its rows. -/
def Redeclares (d : TableDef) (old : Option Table) (t : Table) : Prop :=
  old = none ∧ t = .ofDef d ∨ old = some t ∧ t.definition = d ∨
    ∃ o, old = some o ∧ o.definition ≠ d ∧ Table.ofRows d o.toList = .ok t

theorem Redeclares.definition (h : Redeclares d old t) : t.definition = d := by
  rcases h with ⟨-, rfl⟩ | ⟨-, h⟩ | ⟨o, -, -, h⟩
  · rfl
  · exact h
  · exact Table.definition_ofRows h

theorem Redeclares.made (h : Redeclares d old t) (hold : ∀ o ∈ old, o.Made) : t.Made := by
  rcases h with ⟨-, rfl⟩ | ⟨rfl, -⟩ | ⟨o, -, -, h⟩
  · exact Table.made_ofDef d
  · exact hold t rfl
  · exact ⟨d, o.toList, h⟩

/-- One table was declared, and the rest is as it was. -/
structure Declared (d : TableDef) (t : Table) (u u' : Upgrade) : Prop where
  plain : Identifier.Plain d.name
  redeclares : Redeclares d (u.tables.get? d.name) t
  get? : ∀ n, u'.tables.get? n = if d.name = n then some t else u.tables.get? n
  ordered : Ordered u'.tables
  same : u'.changed = false → u' = u
  changed : u.changed = true → u'.changed = true

theorem createTable_cases (h : Ordered u.tables) :
    Triple (· = u) (createTable d) (fun _ u' => ∃ t, Declared d t u u') fun _ _ => True := by
  unfold createTable
  cases hcheck : Identifier.checkEntity d.name with
  | error fault =>
    refine Triple.bind (R := fun _ _ => False) (Triple.throw fun _ _ => trivial) fun _ => ?_
    exact fun _ hw => hw.elim
  | ok _ =>
    have hplain := Identifier.plain_of_checkEntity hcheck
    refine Triple.get fun u hu => ?_
    subst hu
    split
    · next hnone =>
      rintro u rfl
      exact ⟨.ofDef d, hplain, .inl ⟨hnone, rfl⟩, fun _ => get?_insert_eq, h.insert, nofun, fun _ => rfl⟩
    · next o ho =>
      refine Triple.ite (fun hd => Triple.pure fun w hw => ?_) fun hne => ?_
      · subst hw
        refine ⟨o, hplain, .inr (.inl ⟨ho, hd⟩), fun n => ?_, h, fun _ => rfl, id⟩
        split
        · next hn => rw [← hn, ho]
        · rfl
      · refine Triple.bind (Triple.modify (Q := fun _ w => w =
            { u with tables := u.tables.erase d.name }) fun w hw => by rw [hw])
          fun _ => Triple.of_eq fun w hw => ?_
        subst hw
        split
        · next t ht =>
          have hname : t.name = d.name := congrArg TableDef.name (Table.definition_ofRows ht)
          have herased : Ordered (u.tables.erase d.name) := h.erase d.name
          rintro w rfl
          refine ⟨t, hplain, .inr (.inr ⟨o, ho, hne, ht⟩), fun n => ?_, herased.insert, nofun,
            fun _ => rfl⟩
          show ((u.tables.erase d.name).insert t.name t).get? n = _
          rw [get?_insert_eq, hname, get?_erase transOn_true h trivial trivial]
          simp only [Std.LawfulEqCmp.compare_eq_iff_eq]
          split <;> rfl
        · exact Triple.throw fun _ _ => trivial

theorem createIndex_cases (h : Ordered u.tables) (table : String) (i : IndexDef) :
    Triple (· = u) (createIndex table i) (fun _ u' => u' = u ∨ ∃ d t, Declared d t u u')
      fun _ _ => True := by
  refine Triple.get fun w hw => ?_
  subst hw
  split
  · exact Triple.throw fun _ _ => trivial
  · refine Triple.ite (fun _ => Triple.pure fun _ hw => .inl hw) fun _ => ?_
    exact Triple.mono (createTable_cases h) (fun _ h => h) (fun _ _ ht => .inr ⟨_, ht⟩)
      fun _ _ h => h

end Upgrade

/-- A step of an upgrade declares a table or changes nothing. -/
theorem UpgradeStep.run_cases {u : Upgrade} (h : Ordered u.tables) (step : UpgradeStep) :
    Triple (· = u) step.run (fun _ u' => u' = u ∨ ∃ d t, Upgrade.Declared d t u u')
      fun _ _ => True := by
  cases step with
  | createTable d =>
    refine Triple.bind (Upgrade.createTable_cases h) fun _ => Triple.pure fun w hw => ?_
    exact .inr ⟨d, hw⟩
  | createIndex table i =>
    exact Triple.bind (Upgrade.createIndex_cases h table i) fun _ => Triple.pure fun w hw => hw
  | hasTable name =>
    refine Triple.get fun w hw => ?_
    subst hw
    exact Triple.pure fun _ hw => .inl hw
  | malformed => exact Triple.throw fun _ _ => trivial

namespace Upgrade
variable {u u' : Upgrade} {old : Tables} {d : TableDef} {t : Table}

/-- The tables of an upgrade that began with some tables. -/
structure Of (old : Tables) (u : Upgrade) : Prop where
  ordered : Ordered u.tables
  name : ∀ {n t}, u.tables.get? n = some t → t.name = n
  made : ∀ {n t}, u.tables.get? n = some t → t.Made
  unchanged : u.changed = false → u.tables = old

theorem Of.nodup_names (h : u.Of old) : (u.tables.values.map Table.name).Nodup := by
  rw [Disk.names_values h.ordered h.name]
  exact h.ordered.nodup_keys

theorem Of.declared (h : u.Of old) (hd : Declared d t u u') : u'.Of old where
  ordered := hd.ordered
  name {n t'} ht := by
    rw [hd.get?] at ht
    split at ht
    · next hn =>
      cases ht
      rw [Table.name, hd.redeclares.definition, hn]
    · exact h.name ht
  made {n t'} ht := by
    rw [hd.get?] at ht
    split at ht
    · cases ht
      exact hd.redeclares.made fun o ho => h.made ho
    · exact h.made ht
  unchanged hfalse := by
    obtain rfl := hd.same hfalse
    exact h.unchanged hfalse

theorem Of.runAll (h : u.Of old) (steps : List UpgradeStep) (reports : List UpgradeReport) :
    Read.Yields (UpgradeStep.runAll u reports steps).1 (Of old) fun _ => True := by
  refine UpgradeStep.runAll_yields (fun step _ => Triple.of_eq fun w hw => ?_) h reports
  refine Triple.mono (step.run_cases hw.ordered) (fun _ h => h) (fun _ w' hw' => ?_) fun _ _ h => h
  rcases hw' with rfl | ⟨d, t, hd⟩
  · exact hw
  · exact hw.declared hd

end Upgrade

/-! ### Writing -/

namespace Disk
open Directory
variable {git : Bool} {d d' : Directory} {t : Table} {ts : List Table}

/-- Nothing keeps the table from being written. -/
structure Writable (d : Directory) (t : Table) : Prop where
  encoded : (Row.documentText? t.toList).isSome = true
  staged : d.Takes (stagedPath t.name)
  live : d.Takes (tablePath t.name)

theorem writable_iff_of_alters {touched : List String} (ha : Alters touched d d')
    (hname : '/' ∉ t.name.toList) (hfolder : "tables" ∉ touched)
    (hstaged : stagedPath t.name ∉ touched) (hlive : tablePath t.name ∉ touched) :
    Writable d' t ↔ Writable d t := by
  have hparents : parent (stagedPath t.name) ∉ touched ∧ parent (tablePath t.name) ∉ touched := by
    rw [(inTables_stagedPath hname).parent_eq, (inTables_tablePath hname).parent_eq]
    exact ⟨hfolder, hfolder⟩
  have hstaged := ha.takes_iff hstaged hparents.1
  have hlive := ha.takes_iff hlive hparents.2
  exact ⟨fun h => ⟨h.encoded, hstaged.1 h.staged, hlive.1 h.live⟩,
    fun h => ⟨h.encoded, hstaged.2 h.staged, hlive.2 h.live⟩⟩

theorem writeTable_cases (h : Ordered d.entries) (hname : '/' ∉ t.name.toList) :
    Triple (· = d) (writeTable t) (fun _ d' => Alters (paths t) d d' ∧ Live t d')
      fun _ _ => ¬ Writable d t := by
  refine Triple.bind (Triple.mono (stage_cases h) (fun _ h => h) (fun _ _ h => h)
    fun _ _ hd' hw => hd'.2 ⟨hw.encoded, hw.staged⟩) fun _ => Triple.of_eq fun d₁ hd₁ => ?_
  obtain ⟨ha, text, htext, hstaged⟩ := hd₁
  refine Triple.mono (rename_cases _ _) (fun _ h => h) (fun _ d' hd' => ?_) fun _ d' hd' hw => ?_
  · obtain ⟨text', hstaged', rfl⟩ := hd'
    rw [hstaged] at hstaged'
    cases hstaged'
    have hset := alters_setEntry ha.ordered (tablePath t.name) (.file text)
    refine ⟨(ha.trans (hset.trans (alters_erase hset.ordered _))).mono ?_, text, htext, ?_⟩
    · simp [paths]
    · rw [get?_eraseEntry hset.ordered, if_neg fun heq => tablePath_ne_stagedPath heq.symm]
      exact get?_insert_self _ _ _
  · rcases hd'.1 with hnone | hnot
    · exact hnone text hstaged
    · refine hnot ((ha.takes_iff ?_ ?_).2 hw.live)
      · simpa using tablePath_ne_stagedPath
      · rw [(inTables_tablePath hname).parent_eq]
        simpa using tables_ne_stagedPath t.name

theorem notMem_paths {u : Table} (h : u.name ≠ t.name) :
    stagedPath u.name ∉ paths t ∧ tablePath u.name ∉ paths t := by
  have hsingle : [t].flatMap paths = paths t := by simp
  rw [← hsingle, stagedPath_mem_paths, tablePath_mem_paths]
  simpa using h

theorem forM_writeTable_cases (h : Ordered d.entries) (hts : ∀ t ∈ ts, '/' ∉ t.name.toList)
    (hnodup : (ts.map Table.name).Nodup) :
    Triple (· = d) (ts.forM writeTable)
      (fun _ d' => Alters (ts.flatMap paths) d d' ∧ ∀ t ∈ ts, Live t d')
      fun _ _ => ¬ ∀ t ∈ ts, Writable d t := by
  induction ts generalizing d with
  | nil => exact Triple.pure fun w hw => ⟨.of_eq h hw, by simp⟩
  | cons t rest ih =>
    rw [List.forall_mem_cons] at hts
    rw [List.map_cons, List.nodup_cons] at hnodup
    refine Triple.bind (Triple.mono (writeTable_cases h hts.1) (fun _ h => h) (fun _ _ h => h)
      fun _ _ hnot hall => hnot (hall t List.mem_cons_self)) fun _ => Triple.of_eq fun d₁ hd₁ => ?_
    obtain ⟨ha, hlive⟩ := hd₁
    refine Triple.mono (ih ha.ordered hts.2 hnodup.2) (fun _ h => h) (fun _ d' hd' => ?_)
      fun _ _ hnot hall => hnot fun u hu => ?_
    · obtain ⟨ha', hlive'⟩ := hd'
      refine ⟨ha.trans ha', List.forall_mem_cons.2 ⟨?_, hlive'⟩⟩
      exact hlive.of_alters ha' fun hmem => hnodup.1 (tablePath_mem_paths.1 hmem)
    · have hne : u.name ≠ t.name := fun heq => hnodup.1 (heq ▸ List.mem_map_of_mem hu)
      have hfolder : "tables" ∉ paths t := by
        have hnotMem : "tables" ∉ [t].flatMap paths :=
          notMem_flatMap_paths (by simp) (by simpa using hts.1)
        simpa using hnotMem
      exact (writable_iff_of_alters ha (hts.2 u hu) hfolder (notMem_paths hne).1
        (notMem_paths hne).2).2 (hall u (List.mem_cons_of_mem t hu))

/-- The description is written, and every table if one of them is new. -/
structure Upgraded (c : Config) (u : Upgrade) (d d' : Directory) : Prop where
  alters : Alters (metaPath :: if u.changed then u.tables.values.flatMap paths else []) d d'
  describes : d'.Describes ⟨c.name, c.version, u.tables.values.map (·.definition)⟩
  live : u.changed = true → ∀ t ∈ u.tables.values, Live t d'

theorem upgradeDirectory_cases {c : Config} {u : Upgrade} (h : Prepared git d)
    (hplain : ∀ t ∈ u.tables.values, '/' ∉ t.name.toList)
    (hnodup : (u.tables.values.map Table.name).Nodup) :
    Triple (· = d) (Store.upgradeDirectory c git u) (fun tables d' => tables = u.tables ∧ Upgraded c u d d')
      fun _ _ => ¬ (d.Takes metaPath ∧ (u.changed = true → ∀ t ∈ u.tables.values, Writable d t)) := by
  refine Triple.bind (Triple.mono (write_cases _ _) (fun _ h => h) (fun _ _ h => h)
    fun _ _ hnot hboth => hnot.1 hboth.1) fun _ => Triple.of_eq fun d₁ hd₁ => ?_
  obtain ⟨-, rfl⟩ := hd₁
  generalize hd₁ : d.setEntry metaPath (.file (StoreMeta.toJson
    ⟨c.name, c.version, u.tables.values.map (·.definition)⟩).pretty) = d₁
  have ha₁ : Alters [metaPath] d d₁ := hd₁ ▸ alters_setEntry h.ordered _ _
  have hdescribes : d₁.Describes ⟨c.name, c.version, u.tables.values.map (·.definition)⟩ := by
    rw [← hd₁]
    exact get?_insert_self _ _ _
  have hmeta := metaPath_notMem_paths hplain
  -- The files are written, and what is left is to record them.
  have hrecorded {touched : List String} (hnot : metaPath ∉ touched) :
      Triple (fun d₂ => Alters touched d₁ d₂ ∧
        (touched = if u.changed then u.tables.values.flatMap paths else []) ∧
        (u.changed = true → ∀ t ∈ u.tables.values, Live t d₂))
      (do
        record git s!"Upgrade store '{c.name}' to version {c.version}"
        return u.tables)
      (fun tables d' => tables = u.tables ∧ Upgraded c u d d')
      fun _ _ => ¬ (d.Takes metaPath ∧ (u.changed = true → ∀ t ∈ u.tables.values, Writable d t)) := by
    refine Triple.of_eq fun d₂ hd₂ => ?_
    obtain ⟨ha₂, htouched, hlive⟩ := hd₂
    refine Triple.bind (Triple.mono (record_cases ha₂.ordered (fun hgit =>
      ha₂.history (ha₁.history (h.history hgit))) _) (fun _ h => h) (fun _ _ h => h)
      fun _ _ h => h.elim) fun _ => Triple.pure fun d' ha₃ => ⟨rfl, ?_, ?_, fun hchanged t ht => ?_⟩
    · rw [← htouched]
      exact ((ha₁.trans ha₂).trans ha₃).mono (by simp)
    · exact ((ha₃.same _ (by simp)).trans (ha₂.same _ hnot)).trans hdescribes
    · exact (hlive hchanged t ht).of_alters ha₃ (by simp)
  refine Triple.ite (fun hchanged => ?_) fun hchanged => ?_
  · refine Triple.bind (Triple.mono (forM_writeTable_cases ha₁.ordered hplain hnodup) (fun _ h => h)
      (fun _ _ h => h) fun _ _ hnot hboth => hnot fun t ht => ?_) fun _ =>
      Triple.mono (hrecorded hmeta) (fun d₂ hd₂ => ?_) (fun _ _ h => h) fun _ _ h => h
    · refine (writable_iff_of_alters ha₁ (hplain t ht) (by decide) ?_ ?_).2 (hboth.2 hchanged t ht)
      · simpa using (inTables_stagedPath (hplain t ht)).ne_metaPath
      · simpa using (inTables_tablePath (hplain t ht)).ne_metaPath
    · exact ⟨hd₂.1, by rw [if_pos hchanged], fun _ => hd₂.2⟩
  · refine Triple.mono (hrecorded List.not_mem_nil) (fun d₂ hd₂ => ?_) (fun _ _ h => h) fun _ _ h => h
    exact ⟨.of_eq ha₁.ordered hd₂, by rw [if_neg hchanged], fun h => absurd h hchanged⟩

end Disk

/-! ### Opening -/

namespace Store
open Disk
variable {c : Config} {git : Bool} {steps : List UpgradeStep} {d : Directory} {s : Store}

/-- A store that was opened in a directory. Each of its tables is the one that is made of its file, or
its document is its file. -/
structure Rests (git : Bool) (d : Directory) (s : Store) : Prop where
  backing : s.backing = some ⟨d, git⟩
  idle : s.transactions = []
  prepared : Prepared git d
  ordered : Ordered s.tables
  name : ∀ {n t}, s.tables.get? n = some t → t.name = n
  made : ∀ {n t}, s.tables.get? n = some t → t.Made
  file : ∀ {n t}, s.tables.get? n = some t → Loaded d t ∨ Live t d

/-- The store after an upgrade whose tables were written. -/
theorem Rests.of_upgraded {old : Tables} {u : Upgrade} {d d' : Directory} (hd : Prepared git d)
    (hold : Holding d old) (hu : u.Of old) (hslash : ∀ t ∈ u.tables.values, '/' ∉ t.name.toList)
    (h : Upgraded c u d d') (version : Nat) (nextId : Nat) :
    Rests git d' ⟨c.name, version, u.tables, [], nextId, some ⟨d', git⟩⟩ where
  backing := rfl
  idle := rfl
  prepared := by
    have hfolder {path : String} (hpath : '/' ∉ path.toList) :
        path ∉ metaPath :: if u.changed then u.tables.values.flatMap paths else [] := by
      rw [List.mem_cons, not_or]
      refine ⟨fun heq => hpath (heq ▸ by decide), ?_⟩
      split
      · exact notMem_flatMap_paths hpath hslash
      · exact List.not_mem_nil
    refine ⟨h.alters.ordered, ?_, ?_, fun hgit => h.alters.history (hd.history hgit)⟩
    · exact (h.alters.same _ (hfolder (by simp))).trans hd.home
    · exact (h.alters.same _ (hfolder (by simp))).trans hd.folder
  ordered := hu.ordered
  name := hu.name
  made := hu.made
  file {n t} ht := by
    have hmem := mem_values_of_get? ht
    by_cases hchanged : u.changed = true
    · exact .inr (h.live hchanged t hmem)
    · have hloaded := hold.loaded (hu.unchanged (by simpa using hchanged) ▸ ht)
      refine .inl (hloaded.of_alters h.alters ?_)
      rw [if_neg hchanged, List.mem_singleton]
      exact (inTables_tablePath (hslash t hmem)).ne_metaPath

theorem openDirectory_rests (hd : Ordered d.entries)
    (hplain : ∀ n t, s.tables.get? n = some t → Identifier.Plain n)
    (h : (openDirectory c git steps d).result = .ok s) : ∃ d', s.Rests git d' := by
  have hload := loadDirectory_cases git hd d rfl
  unfold openDirectory at h
  simp only at h
  split at h
  · cases h
  next description tables d₁ hrun =>
  rw [hrun] at hload
  obtain ⟨-, hprepared, hfound⟩ := hload
  have hholding := hfound.holding
  have hmade {n : String} {t : Table} (ht : tables.get? n = some t) : t.Made :=
    hholding.made _ (mem_values_of_get? ht)
  split at h
  · cases h
  split at h
  · cases h
    exact ⟨d₁, rfl, rfl, hprepared, hholding.ordered, hholding.name, hmade,
      fun ht => .inl (hholding.loaded ht)⟩
  have hof : Upgrade.Of tables { tables } := ⟨hholding.ordered, hholding.name, hmade, fun _ => rfl⟩
  have hrunAll := hof.runAll steps [.started (description.elim 0 (·.version))]
  split at h
  · cases h
  next u hu =>
  rw [hu] at hrunAll
  have hu : u.Of tables := hrunAll
  split at h
  · cases h
  next written d₂ hwrite =>
  cases h
  obtain rfl : written = u.tables := by
    have hkept := upgradeDirectory_tables c git u d₁ trivial
    rw [hwrite] at hkept
    exact hkept.2
  have hslash : ∀ t ∈ u.tables.values, '/' ∉ t.name.toList := fun t ht => by
    obtain ⟨n, hn⟩ := hu.ordered.mem_values_iff.1 ht
    rw [hu.name hn]
    exact (hplain n t hn).2
  have hwritten := upgradeDirectory_cases (c := c) hprepared hslash hu.nodup_names d₁ rfl
  rw [hwrite] at hwritten
  exact ⟨d₂, .of_upgraded hprepared hholding hu hslash hwritten.2 c.version 1⟩

end Store

end RelationalStore

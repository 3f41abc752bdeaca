import RelationalStore.Proofs.RewrittenRows
import RelationalStore.Proofs.UpgradedStores

/- Opening a directory with another schema. A client that opens a directory at a newer version
   declares the tables of its schema. A table whose definition is another now is made of its rows
   again, each under its new key, and the tables that are not declared stay. Everything is declared
   before anything is written, so if a row has no key under the new definition, or a unique index
   would be violated, the files are as they were. Nothing else can fail as long as files can be
   written, because rows that were read have a document (`Client.openWith_migrates`). -/
namespace RelationalStore
open SortedMap Operation

/-! ### Tables that are made again -/

namespace Table
variable {κ : String → NumberClass} {d : TableDef} {t next : Table} {rows : List Row}

/-- Each row is under its own key, which has no null. -/
def Keyed (t : Table) : Prop := ∀ e ∈ t.rows.entries, e.1 = t.keyOf e.2 ∧ e.1.hasNull = false

theorem Keyed.add (h : t.Keyed) {row : Row} {key : Key} (hadd : t.add row = .ok (key, next)) :
    next.Keyed := by
  obtain ⟨rfl, hnull, hfree, -, rfl⟩ := add_ok hadd
  have hperm := SortedMap.perm_insertEntry (v := row) (entryAt?_of_get?_none hfree)
  intro e he
  rcases List.mem_cons.1 (hperm.subset he) with rfl | he
  · exact ⟨rfl, hnull⟩
  · exact h e he

/-- A table that is made of rows has them all, each under its key. -/
theorem keyed_ofRows (h : ofRows d rows = .ok t) : t.Keyed := by
  have hfold : ∀ u : Table, u.Keyed →
      rows.foldlM (fun t row => (t.add row).map (·.2)) u = .ok t → t.Keyed := by
    clear h
    induction rows with
    | nil =>
      intro u hu h
      cases h
      exact hu
    | cons row rest ih =>
      intro u hu h
      rw [List.foldlM_cons] at h
      obtain ⟨u', hu', h⟩ := Except.bind_eq_ok.1 h
      obtain ⟨⟨key, u'⟩, hadd, rfl⟩ := Except.map_eq_ok.1 hu'
      exact ih u' (hu.add hadd) h
  exact hfold (ofDef d) nofun h

theorem perm_ofRows (h : ofRows d rows = .ok t) : t.toList.Perm rows := by
  have hperm := toList_foldlM h
  rwa [show (ofDef d).toList = [] from rfl, List.append_nil] at hperm

/-- If the columns of its keys hold numbers of one class each, such a table is consistent. -/
theorem Made.consistent (h : t.Made) (hrows : ∀ row ∈ t.toList, row.Fits κ t.definition.columns) :
    Consistent t.definition t := by
  obtain ⟨d, rows, hof⟩ := h
  obtain rfl := definition_ofRows hof
  have hperm := perm_ofRows hof
  exact (kept_foldlM (Call.kept_ofDef t.definition)
    (fun row hrow => hrows row (hperm.symm.subset hrow)) hof).consistent rfl

end Table

/-! ### Declaring the tables of a schema -/

namespace Upgrade
variable {u u' : Upgrade} {old : Option Table} {d : TableDef} {t : Table}

/-- A table that is declared has the rows that it had. -/
theorem Redeclares.rows (h : Redeclares d old t) {row : Row} (hrow : row ∈ t.toList) :
    ∃ o ∈ old, row ∈ o.toList := by
  rcases h with ⟨-, rfl⟩ | ⟨rfl, -⟩ | ⟨o, rfl, -, h⟩
  · cases hrow
  · exact ⟨t, rfl, hrow⟩
  · exact ⟨o, rfl, (Table.perm_ofRows h).subset hrow⟩

/-- Some tables were declared, one after another, and the rest is as it was. -/
structure Redeclared (ds : List TableDef) (u u' : Upgrade) : Prop where
  ordered : Ordered u'.tables
  plain : ∀ d ∈ ds, Identifier.Plain d.name
  declared : ∀ d ∈ ds, ∃ t, u'.tables.get? d.name = some t ∧ Redeclares d (u.tables.get? d.name) t
  others : ∀ n, n ∉ ds.map TableDef.name → u'.tables.get? n = u.tables.get? n

theorem runAll_declares (u : Upgrade) {ds : List TableDef} (hnodup : (ds.map TableDef.name).Nodup)
    (h : Ordered u.tables) (reports : List UpgradeReport) :
    Read.Yields (UpgradeStep.runAll u reports (ds.map .createTable)).1 (Redeclared ds u)
      fun _ => True := by
  induction ds generalizing u reports with
  | nil => exact .ok ⟨h, nofun, nofun, fun _ _ => rfl⟩
  | cons d rest ih =>
    rw [List.map_cons, List.nodup_cons] at hnodup
    have hstep : Triple (· = u) (UpgradeStep.createTable d).run
        (fun _ u' => ∃ t, Declared d t u u') fun _ _ => True :=
      Triple.bind (createTable_cases h) fun _ => Triple.pure fun _ hw => hw
    rw [List.map_cons, UpgradeStep.runAll]
    cases hrun : (UpgradeStep.createTable d).run.run u with
    | error e _ => exact .error trivial
    | ok more u₁ =>
      obtain ⟨t, hd⟩ : ∃ t, Declared d t u u₁ := by
        have hdeclared := hstep u rfl
        rw [hrun] at hdeclared
        exact hdeclared
      refine (ih u₁ hnodup.2 hd.ordered _).mono (fun u₂ hu₂ => ?_) fun _ h => h
      have hsame : ∀ n, n ≠ d.name → u₁.tables.get? n = u.tables.get? n := by
        intro n hn
        rw [hd.get?, if_neg fun heq => hn heq.symm]
      refine ⟨hu₂.ordered, List.forall_mem_cons.2 ⟨hd.plain, hu₂.plain⟩,
        List.forall_mem_cons.2 ⟨⟨t, ?_, hd.redeclares⟩, fun d' hd' => ?_⟩, fun n hn => ?_⟩
      · rw [hu₂.others d.name hnodup.1, hd.get?, if_pos rfl]
      · obtain ⟨t', ht', hredeclares⟩ := hu₂.declared d' hd'
        rw [hsame d'.name fun heq => hnodup.1 (heq ▸ List.mem_map_of_mem hd')] at hredeclares
        exact ⟨t', ht', hredeclares⟩
      · rw [List.map_cons, List.mem_cons, not_or] at hn
        rw [hu₂.others n hn.2, hsame n hn.1]

end Upgrade

/-! ### Directories that files can be written to -/

/-- No folder is where a store with tables of some names writes a file. -/
structure Directory.Clear (names : String → Prop) (d : Directory) : Prop where
  description : d.entries.get? Disk.metaPath ≠ some .folder
  staged : ∀ n, names n → d.entries.get? (Disk.stagedPath n) ≠ some .folder
  live : ∀ n, names n → d.entries.get? (Disk.tablePath n) ≠ some .folder

/-- A table of that name can be loaded from the directory. -/
def Directory.Names (git : Bool) (d : Directory) (n : String) : Prop :=
  ∃ description old d', (Store.loadDirectory git).run d = .ok (description, old) d' ∧
    (old.get? n).isSome

theorem Directory.Clear.mono {names more : String → Prop} {d : Directory} (h : d.Clear more)
    (himp : ∀ n, names n → more n) : d.Clear names :=
  ⟨h.description, fun n hn => h.staged n (himp n hn), fun n hn => h.live n (himp n hn)⟩

namespace Disk
open Directory
variable {git : Bool} {d d' : Directory} {old : Tables} {t : Table} {path : String}
  {names : String → Prop}

theorem notMem_folders (h : '/' ∈ path.toList) : path ∉ folders := by
  intro hmem
  simp only [folders, List.mem_cons, List.not_mem_nil, or_false] at hmem
  rcases hmem with rfl | rfl <;> simp at h

theorem clear_of_alters (h : d.Clear names) (ha : Alters folders d d') : d'.Clear names where
  description := by
    rw [ha.same _ (by decide)]
    exact h.description
  staged n hn := by
    rw [ha.same _ (notMem_folders (by simp [stagedPath]))]
    exact h.staged n hn
  live n hn := by
    rw [ha.same _ (notMem_folders (by simp [tablePath]))]
    exact h.live n hn

theorem takes_metaPath (h : d.Clear names) (hd : Prepared git d) : d.Takes metaPath := by
  have hparent : parent metaPath = ".relkv" := by decide +kernel
  refine ⟨?_, ?_⟩
  · simp [isFolder, hparent, hd.home]
  · simpa [isFolder, metaPath] using h.description

theorem takes_of_inTables (hpath : InTables path) (hd : Prepared git d)
    (h : d.entries.get? path ≠ some .folder) : d.Takes path := by
  have hempty : path ≠ "" := hpath.ne_of_notMem (by simp)
  refine ⟨?_, ?_⟩
  · simp [isFolder, hpath.parent_eq, hd.folder]
  · simpa [isFolder, hempty] using h

/-- A table whose rows have been read can be written. -/
theorem writable_of_clear (h : d.Clear names) (hd : Prepared git d) (hname : names t.name)
    (hplain : Identifier.Plain t.name) (hrows : ∀ row ∈ t.toList, row.Writable) : Writable d t where
  encoded := Row.isSome_documentText? hrows
  staged := takes_of_inTables (inTables_stagedPath hplain.2) hd (h.staged _ hname)
  live := takes_of_inTables (inTables_tablePath hplain.2) hd (h.live _ hname)

theorem Loaded.rows (h : Loaded d t) : ∀ row ∈ t.toList, row.Writable := by
  intro row hrow
  rcases loaded_iff.1 h with ⟨-, heq⟩ | ⟨-, text, rows, -, hread, hof⟩
  · rw [heq] at hrow
    cases hrow
  · exact Row.writable_of_ofDocumentText? hread row ((Table.perm_ofRows hof).subset hrow)

end Disk

/-! ### Opening at a newer version -/

namespace Store
open Disk
variable {c : Config} {git : Bool} {d : Directory}

/-- The tables of a schema in a directory that held some tables before. -/
structure Migrated (schema : Schema) (c : Config) (git : Bool) (old : Tables) (s : Store)
    (d : Directory) : Prop where
  /-- Each table is the one that is made of its file, or its document is its file. -/
  rests : s.Rests git d
  describes : d.Describes ⟨c.name, c.version, s.tables.values.map (·.definition)⟩
  /-- A table that was not there is empty. -/
  fresh : ∀ e, schema.entity? e.name = some e → old.get? e.name = none →
    s.tables.get? e.name = some (.ofDef e.tableDef)
  /-- A table with the same definition is as it was. -/
  same : ∀ e o, schema.entity? e.name = some e → old.get? e.name = some o →
    o.definition = e.tableDef → s.tables.get? e.name = some o
  /-- A table with another definition has the same rows, each under its new key. -/
  rekeyed : ∀ e o, schema.entity? e.name = some e → old.get? e.name = some o →
    o.definition ≠ e.tableDef → ∃ t, s.tables.get? e.name = some t ∧ t.definition = e.tableDef ∧
      t.toList.Perm o.toList ∧ t.Keyed
  /-- A table that is not declared is as it was. -/
  others : ∀ n, schema.entity? n = none → s.tables.get? n = old.get? n
  /-- If the columns of its keys hold numbers of one class each, a table is consistent. -/
  consistent : ∀ n t κ, s.tables.get? n = some t →
    (∀ row ∈ t.toList, row.Fits κ t.definition.columns) → t.Consistent t.definition

section
variable {schema : Schema} (hs : schema.Resolved)
include hs

theorem entity_of_mem_values {e : Entity} (he : e ∈ schema.entities.values) :
    schema.entity? e.name = some e := by
  obtain ⟨n, hn⟩ := hs.ordered.mem_values_iff.1 he
  rw [hs.name hn]
  exact hn

theorem nodup_tableDefs : ((schema.entities.values.map (·.tableDef)).map TableDef.name).Nodup := by
  have hnames : (schema.entities.values.map (·.tableDef)).map TableDef.name = schema.entities.keys := by
    rw [SortedMap.values, List.map_map, List.map_map]
    exact List.map_congr_left fun e he => hs.name (hs.ordered.get?_eq_some_iff.2 he)
  rw [hnames]
  exact hs.ordered.nodup_keys

theorem Migrated.of_redeclared {old : Tables} {u : Upgrade} {s : Store}
    (hu : Upgrade.Redeclared (schema.entities.values.map (·.tableDef)) { tables := old } u)
    (htables : s.tables = u.tables) (hrests : s.Rests git d)
    (hdescribes : d.Describes ⟨c.name, c.version, s.tables.values.map (·.definition)⟩) :
    Migrated schema c git old s d := by
  have hdeclared {e : Entity} (he : schema.entity? e.name = some e) :
      ∃ t, s.tables.get? e.name = some t ∧ Upgrade.Redeclares e.tableDef (old.get? e.name) t := by
    rw [htables]
    exact hu.declared e.tableDef (List.mem_map_of_mem (mem_values_of_get? he))
  refine ⟨hrests, hdescribes, fun e he hnone => ?_, fun e o he ho heq => ?_, fun e o he ho hne => ?_,
    fun n hn => ?_, fun n t κ ht => (hrests.made ht).consistent⟩
  · obtain ⟨t, ht, ⟨-, rfl⟩ | ⟨hsome, -⟩ | ⟨o, hsome, -⟩⟩ := hdeclared he
    · exact ht
    · rw [hnone] at hsome; cases hsome
    · rw [hnone] at hsome; cases hsome
  · obtain ⟨t, ht, ⟨hnone, -⟩ | ⟨hsome, -⟩ | ⟨o', hsome, hne, -⟩⟩ := hdeclared he
    · rw [ho] at hnone; cases hnone
    · rw [ht, ← hsome, ho]
    · rw [ho] at hsome
      cases hsome
      exact absurd heq hne
  · obtain ⟨t, ht, ⟨hnone, -⟩ | ⟨hsome, heq⟩ | ⟨o', hsome, -, hof⟩⟩ := hdeclared he
    · rw [ho] at hnone; cases hnone
    · rw [ho] at hsome
      cases hsome
      exact absurd heq hne
    · rw [ho] at hsome
      cases hsome
      exact ⟨t, ht, Table.definition_ofRows hof, Table.perm_ofRows hof, Table.keyed_ofRows hof⟩
  · rw [htables]
    refine hu.others n fun hmem => ?_
    obtain ⟨d, hd, rfl⟩ := List.mem_map.1 hmem
    obtain ⟨e, he, rfl⟩ := List.mem_map.1 hd
    have he : schema.entity? e.tableDef.name = some e := entity_of_mem_values hs he
    rw [hn] at he
    cases he

/-- An upgrade whose tables are declared can be written. -/
theorem upgradeDirectory_declared (c : Config) {old : Tables} {u : Upgrade}
    (hclear : d.Clear fun n => (schema.entity? n).isSome ∨ (old.get? n).isSome)
    (hd : Prepared git d) (hold : Holding d old)
    (hplain : ∀ n, (old.get? n).isSome → Identifier.Plain n) (hof : u.Of old)
    (hu : Upgrade.Redeclared (schema.entities.values.map (·.tableDef)) { tables := old } u) :
    ∃ d', (upgradeDirectory c git u).run d = .ok u.tables d' ∧
      Migrated schema c git old ⟨c.name, c.version, u.tables, [], 1, some ⟨d', git⟩⟩ d' := by
  have hfrom : ∀ t ∈ u.tables.values, Identifier.Plain t.name ∧ Writable d t := by
    intro t ht
    obtain ⟨n, hn⟩ := hof.ordered.mem_values_iff.1 ht
    obtain rfl := hof.name hn
    by_cases hmem : t.name ∈ (schema.entities.values.map (·.tableDef)).map TableDef.name
    · obtain ⟨definition, hdefinition, hname⟩ := List.mem_map.1 hmem
      obtain ⟨t', ht', hredeclares⟩ := hu.declared definition hdefinition
      rw [hname, hn] at ht'
      cases ht'
      obtain ⟨e, he, rfl⟩ := List.mem_map.1 hdefinition
      have hentity : schema.entity? t.name = some e := hname ▸ entity_of_mem_values hs he
      have hplain := hname ▸ hu.plain _ hdefinition
      refine ⟨hplain, writable_of_clear hclear hd (.inl (by rw [hentity]; rfl)) hplain fun row hrow => ?_⟩
      obtain ⟨o, ho, hrow⟩ := hredeclares.rows hrow
      exact (hold.loaded ho).rows row hrow
    · rw [hu.others _ hmem] at hn
      have hsome : (old.get? t.name).isSome := Option.isSome_iff_exists.2 ⟨t, hn⟩
      exact ⟨hplain _ hsome, writable_of_clear hclear hd (.inr hsome) (hplain _ hsome)
        (hold.loaded hn).rows⟩
  have hslash : ∀ t ∈ u.tables.values, '/' ∉ t.name.toList := fun t ht => (hfrom t ht).1.2
  have hwrite := upgradeDirectory_cases (c := c) hd hslash hof.nodup_names d rfl
  cases hrun : (upgradeDirectory c git u).run d with
  | error e d' =>
    rw [hrun] at hwrite
    exact absurd ⟨takes_metaPath hclear hd, fun _ t ht => (hfrom t ht).2⟩ hwrite
  | ok tables d' =>
    rw [hrun] at hwrite
    obtain ⟨rfl, hupgraded⟩ := hwrite
    exact ⟨d', rfl, .of_redeclared hs hu rfl (.of_upgraded hd hold hof hslash hupgraded c.version 1)
      hupgraded.describes⟩

/-- What comes of opening a directory with the tables of a schema. -/
theorem openDirectory_cases (c : Config) (hd : Ordered d.entries)
    (hclear : d.Clear fun n => (schema.entity? n).isSome ∨ d.Names git n)
    (hplain : ∀ n, d.Names git n → Identifier.Plain n) :
    let opening := openDirectory c git (schema.entities.values.map fun e => .createTable e.tableDef) d
    (∀ e, opening.result = .error e → Directory.Alters folders d opening.directory) ∧
      ∀ s, opening.result = .ok s → ∃ description old d₁,
        (loadDirectory git).run d = .ok (description, old) d₁ ∧
        (∀ m ∈ description, m.version ≤ c.version) ∧
        ((∀ m ∈ description, m.version ≠ c.version) → Migrated schema c git old s opening.directory) := by
  have hload := loadDirectory_cases git hd d rfl
  simp only
  cases hrun : (loadDirectory git).run d with
  | error e d₁ =>
    rw [hrun] at hload
    simp only [openDirectory, hrun]
    refine ⟨fun _ _ => hload, fun s h => ?_⟩
    cases h
  | ok loaded d₁ =>
    obtain ⟨description, old⟩ := loaded
    rw [hrun] at hload
    obtain ⟨ha, hprepared, hfound⟩ := hload
    have hholding : Holding d₁ old := hfound.holding
    have hnames {n : String} (hn : (old.get? n).isSome) : d.Names git n := ⟨_, _, _, hrun, hn⟩
    simp only [openDirectory, hrun]
    split
    · refine ⟨fun _ _ => ha, fun s h => ?_⟩
      cases h
    next hnewer =>
    have hversion : ∀ m ∈ description, m.version ≤ c.version := by
      rintro m rfl
      simpa using hnewer
    split
    · next hequal =>
      obtain ⟨hsome, hversion'⟩ := Bool.and_eq_true_iff.1 hequal
      obtain ⟨m, rfl⟩ := Option.isSome_iff_exists.1 hsome
      constructor
      · intro e h
        cases h
      · intro s h
        refine ⟨_, old, d₁, rfl, hversion, fun hne => ?_⟩
        exact absurd (by simpa using hversion') (hne m rfl)
    have hof : Upgrade.Of old { tables := old } :=
      ⟨hholding.ordered, hholding.name, fun ht => hholding.made _ (mem_values_of_get? ht), fun _ => rfl⟩
    have hrunAll := hof.runAll (schema.entities.values.map fun e => .createTable e.tableDef)
      [.started (description.elim 0 (·.version))]
    have hdeclares : Read.Yields (UpgradeStep.runAll { tables := old }
        [.started (description.elim 0 (·.version))]
        (schema.entities.values.map fun e => .createTable e.tableDef)).1
        (Upgrade.Redeclared (schema.entities.values.map (·.tableDef)) { tables := old })
        fun _ => True := by
      have hall := Upgrade.runAll_declares { tables := old } (nodup_tableDefs hs) hholding.ordered
        [.started (description.elim 0 (·.version))]
      rwa [List.map_map] at hall
    split
    · refine ⟨fun _ _ => ha, fun s h => ?_⟩
      cases h
    next u hu =>
    rw [hu] at hrunAll hdeclares
    obtain ⟨d', hwrite, hmigrated⟩ := upgradeDirectory_declared hs c
      (clear_of_alters (hclear.mono fun n => Or.imp_right hnames) ha) hprepared hholding
      (fun n hn => hplain n (hnames hn)) hrunAll hdeclares
    rw [hwrite]
    constructor
    · intro e h
      cases h
    · intro s h
      cases h
      exact ⟨description, old, d₁, rfl, hversion, fun _ => hmigrated⟩

end

end Store

/-- A client opens a directory. If that fails, the files are as they were. If the directory was
described at an older version, or not at all, each table that it held has the rows that it had: under
new keys if its definition is another, and as it was if it is declared in the same way or not at all.
New tables are empty, tables are consistent if the columns of their keys hold numbers of one class, and
the description and the files are those of the tables. At an older version nothing is opened. -/
theorem Client.openWith_migrates {defs : List EntityDef} {schema : Schema}
    (hschema : Schema.ofDefs defs = .ok schema) {config : Config} {path : String} {git : Bool}
    (hstorage : config.storage = .directory path git) {d : Directory} (hd : Ordered d.entries)
    (hclear : d.Clear fun n => (schema.entity? n).isSome ∨ d.Names git n)
    (hplain : ∀ n, d.Names git n → Identifier.Plain n) (supply : Supply) :
    let opening := openWith schema config supply d
    (∀ e, opening.result = .error e → Directory.Alters Disk.folders d opening.directory) ∧
      ∀ description old d₁, (Store.loadDirectory git).run d = .ok (description, old) d₁ →
        ((∀ m ∈ description, m.version < config.version) → ∀ c, opening.result = .ok c →
          Store.Migrated schema config git old c.store opening.directory) ∧
        ∀ m ∈ description, config.version < m.version → ∃ e, opening.result = .error e := by
  have hs := Schema.Resolved.ofDefs hschema
  simp only [openWith, Store.openWith, hstorage]
  cases hcheck : Identifier.checkEntity config.name with
  | error fault =>
    simp only
    refine ⟨fun _ _ => .refl hd, fun _ _ _ _ => ⟨fun _ c h => ?_, fun _ _ _ => ⟨_, rfl⟩⟩⟩
    cases h
  | ok _ =>
    obtain ⟨herror, hok⟩ := Store.openDirectory_cases hs config hd hclear hplain
    simp only
    refine ⟨fun e he => ?_, fun description old d₁ hload => ⟨fun hlt c hc => ?_, fun m hm hlt => ?_⟩⟩
    · exact herror e (Except.map_eq_error.1 he)
    · obtain ⟨s, hs, rfl⟩ := Except.map_eq_ok.1 hc
      obtain ⟨_, _, _, hload', -, hmigrated⟩ := hok s hs
      rw [hload] at hload'
      cases hload'
      exact hmigrated fun m hm => Nat.ne_of_lt (hlt m hm)
    · cases hresult : (Store.openDirectory config git
          (schema.entities.values.map fun e => .createTable e.tableDef) d).result with
      | error e => exact ⟨e, rfl⟩
      | ok s =>
        obtain ⟨_, _, _, hload', hle, -⟩ := hok s hresult
        rw [hload] at hload'
        cases hload'
        exact absurd (hle m hm) (Nat.not_le.2 hlt)

/-! ### Shelves -/

/-- A directory whose folders are at its top is in the way of no file. -/
theorem Directory.clear_of_folders {d : Directory} {names : String → Prop}
    (h : ∀ e ∈ d.entries.entries, e.2 = .folder → '/' ∉ e.1.toList) : d.Clear names := by
  have hnone {path : String} (hpath : '/' ∈ path.toList) : d.entries.get? path ≠ some .folder :=
    fun hfolder => h _ (mem_entries_of_get? hfolder) rfl hpath
  refine ⟨hnone (by decide), fun n _ => hnone ?_, fun n _ => hnone ?_⟩
  · simp [Disk.stagedPath]
  · simp [Disk.tablePath]

/-- A directory of some tables with their rows. -/
def Directory.ofTables (version : Nat) (tables : List (TableDef × List Row)) : Directory where
  entries := .ofList <|
    [(".relkv", .folder), ("tables", .folder),
      (Disk.metaPath, .file (StoreMeta.toJson ⟨"stock", version, tables.map (·.1)⟩).compact)] ++
    tables.map fun t =>
      (Disk.tablePath t.1.name, .file (Json.array (t.2.filterMap Row.toStored?)).compact)

/-- Two shelves, and no labels. -/
def stock : Directory :=
  let shelf (id code : Int) : Row := .ofList [("id", .int id), ("code", .int code)]
  .ofTables 1 [(⟨"label", ["id"], []⟩, []), (⟨"shelf", ["id"], []⟩, [shelf 1 20, shelf 2 10])]

/-- Shelves are known by their code, and no two have the same number. -/
def EntityDef.shelves : List EntityDef :=
  [{ name := "box", fields := [{ name := "id", kind := .int, id := true }] },
    { name := "shelf",
      fields := [{ name := "code", kind := .int, id := true },
        { name := "id", kind := .int, unique := true }] }]

namespace Table

/-- Two rows under different keys share a value of a unique index. -/
def shares (t : Table) : Bool :=
  t.definition.indexes.any fun i => i.unique &&
    t.rows.entries.any fun a => t.rows.entries.any fun b =>
      decide (compare a.1 b.1 ≠ .eq ∧ (Key.ofRow i.fields a.2).hasNull = false ∧
        (Key.ofRow i.fields b.2).hasNull = false ∧
        compare (Key.ofRow i.fields a.2) (Key.ofRow i.fields b.2) = .eq)

theorem not_unique_of_shares {t : Table} (h : t.shares) : ¬ t.Unique := by
  intro hunique
  obtain ⟨i, hi, h⟩ := List.any_eq_true.1 h
  obtain ⟨hu, h⟩ := Bool.and_eq_true_iff.1 h
  obtain ⟨a, ha, h⟩ := List.any_eq_true.1 h
  obtain ⟨b, hb, h⟩ := List.any_eq_true.1 h
  obtain ⟨hne, hnull, hnull', heq⟩ := of_decide_eq_true h
  have hsame := hunique i hi hu a ha b hb hnull ⟨hnull', heq⟩
  exact hne (by rw [hsame]; exact Std.ReflOrd.compare_self)

end Table

namespace Client

/-- The numbers of the shelves, in the order of their keys. -/
def shelfNumbers (tables : Tables) : Option (List Int) :=
  (tables.get? "shelf").map fun t => t.toList.filterMap fun row => (row.value "id").int?

theorem run_of_run' {α : Type} {x : Directory.Action α} {d : Directory} {a : α}
    (h : x.run' d = some a) : ∃ d', x.run d = .ok a d' := by
  unfold EStateM.run' at h
  split at h
  · next hrun =>
    cases h
    exact ⟨_, hrun⟩
  · cases h

/-- The rows of a table are moved to other keys, one table is added, and one is declared no more. -/
theorem openWith_migrates_stock :
    ∃ schema c m old d₁, Schema.ofDefs EntityDef.shelves = .ok schema ∧
      let config := (Config.directory "stock" "data").withVersion 2
      let opening := openWith schema config ⟨0, 1⟩ stock
      opening.result = .ok c ∧ (Store.loadDirectory true).run stock = .ok (some m, old) d₁ ∧
        m.version = 1 ∧ old.keys = ["label", "shelf"] ∧
        c.store.tables.keys = ["box", "label", "shelf"] ∧
        shelfNumbers c.store.tables = some [2, 1] ∧
        Store.Migrated schema config true old c.store opening.directory ∧
        ∃ e, (openWith schema (config.withVersion 0) ⟨0, 1⟩ stock).result = .error e := by
  have hopens : (Schema.ofDefs EntityDef.shelves).toOption.any fun schema =>
      (openWith schema ((Config.directory "stock" "data").withVersion 2) ⟨0, 1⟩
        stock).result.toOption.any fun c =>
          c.store.tables.keys == ["box", "label", "shelf"] &&
            shelfNumbers c.store.tables == some [2, 1] := by
    decide +kernel
  have hloads : ((Store.loadDirectory true).run' stock).any fun loaded =>
      loaded.1.map (·.version) == some 1 && loaded.2.keys == ["label", "shelf"] := by
    decide +kernel
  obtain ⟨schema, hschema, hc⟩ := (Option.any_eq_true _ _).1 hopens
  obtain ⟨c, hc, htables⟩ := (Option.any_eq_true _ _).1 hc
  obtain ⟨⟨description, old⟩, hload, hold⟩ := (Option.any_eq_true _ _).1 hloads
  simp only [Bool.and_eq_true, beq_iff_eq] at htables hold
  obtain ⟨htables, hshelves⟩ := htables
  obtain ⟨hversion, hkeys⟩ := hold
  obtain ⟨m, rfl, hm⟩ := Option.map_eq_some_iff.1 hversion
  have hschema := Except.toOption_eq_some.1 hschema
  have hc := Except.toOption_eq_some.1 hc
  obtain ⟨d₁, hload⟩ := run_of_run' hload
  have hclear : ∀ e ∈ stock.entries.entries, e.2 = .folder → '/' ∉ e.1.toList := by decide +kernel
  have hplain : ∀ n, stock.Names true n → Identifier.Plain n := by
    rintro n ⟨_, _, _, hload', hn⟩
    rw [hload] at hload'
    cases hload'
    obtain ⟨t, ht⟩ := Option.isSome_iff_exists.1 hn
    have hmem : n ∈ old.keys := List.mem_map_of_mem (mem_entries_of_get? ht)
    rw [hkeys] at hmem
    exact (show ∀ n ∈ ["label", "shelf"], Identifier.Plain n by decide) n hmem
  have hstorage (version : Nat) :
      ((Config.directory "stock" "data").withVersion version).storage = .directory "data" true := rfl
  obtain ⟨-, hopen⟩ := openWith_migrates hschema (hstorage 2) (ordered_ofList _)
    (Directory.clear_of_folders hclear) hplain ⟨0, 1⟩
  obtain ⟨-, holder⟩ := openWith_migrates hschema (hstorage 0) (ordered_ofList _)
    (Directory.clear_of_folders hclear) hplain ⟨0, 1⟩
  have hnewer : ∀ m' ∈ some m, m'.version < 2 := by
    rintro _ ⟨⟩
    omega
  exact ⟨schema, c, m, old, d₁, hschema, hc, hload, hm, hkeys, htables, hshelves,
    (hopen _ _ _ hload).1 hnewer c hc, (holder _ _ _ hload).2 m rfl (by rw [hm]; exact Nat.zero_lt_one)⟩

/-- Three readings: an integer, a big integer and a decimal. -/
def readings : Directory :=
  let reading (id : Int) (x : Value) : Row := .ofList [("id", .int id), ("x", x)]
  .ofTables 1 [(⟨"reading", ["id"], []⟩,
    [reading 1 (.int 18014398509481985), reading 2 (.bigint 18014398509481986),
      reading 3 (.decimal ⟨false, 18014398509481984, 0⟩)])]

/-- No two readings are the same. -/
def EntityDef.readings : List EntityDef :=
  [{ name := "reading",
     fields := [{ name := "id", kind := .int, id := true },
       { name := "x", kind := .decimal, unique := true }] }]

/-- Among numbers of several classes two that are equal need not be found, so a new unique index can be
violated. And opening at an older version starts a history where there is none. -/
theorem openWith_migrates_mixed :
    ∃ schema, Schema.ofDefs EntityDef.readings = .ok schema ∧
      (∃ c t, (openWith schema ((Config.directory "stock" "data").withVersion 2) ⟨0, 1⟩
          readings).result = .ok c ∧ c.store.tables.get? "reading" = some t ∧ ¬ t.Unique) ∧
      let older := openWith schema ((Config.directory "stock" "data").withVersion 0) ⟨0, 1⟩ readings
      older.result.isOk = false ∧ readings.history.isNone ∧ older.directory.history.isSome := by
  have hruns : (Schema.ofDefs EntityDef.readings).toOption.any fun schema =>
      ((openWith schema ((Config.directory "stock" "data").withVersion 2) ⟨0, 1⟩
        readings).result.toOption.any fun c => (c.store.tables.get? "reading").any (·.shares)) &&
      let older := openWith schema ((Config.directory "stock" "data").withVersion 0) ⟨0, 1⟩ readings
      !older.result.isOk && older.directory.history.isSome := by
    decide +kernel
  obtain ⟨schema, hschema, hall⟩ := (Option.any_eq_true _ _).1 hruns
  simp only [Bool.and_eq_true, Bool.not_eq_true'] at hall
  obtain ⟨hnewer, holder, hhistory⟩ := hall
  obtain ⟨c, hc, hreadings⟩ := (Option.any_eq_true _ _).1 hnewer
  obtain ⟨t, ht, hshares⟩ := (Option.any_eq_true _ _).1 hreadings
  exact ⟨schema, Except.toOption_eq_some.1 hschema,
    ⟨c, t, Except.toOption_eq_some.1 hc, ht, Table.not_unique_of_shares hshares⟩, holder, rfl, hhistory⟩

end Client

end RelationalStore

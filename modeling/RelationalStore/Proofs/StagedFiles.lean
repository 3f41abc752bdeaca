import RelationalStore.Proofs.DirectoryFiles

/- Files that cannot be staged. Tables are staged before any of them is published. A table may be
   one that cannot be staged, because its rows have no document or because something else is in the
   place of its staged file. Nothing was published by then, and what was staged before is removed
   again. If every table is staged, nothing keeps them from being published: the folder of the
   tables is there, and no folder is in the place of a live file (`Directory.Serves`). So a flush
   either puts the documents of all its tables into place, or leaves every file but those that were
   to be staged (`Disk.flush_cases`). -/
namespace RelationalStore
open SortedMap Operation

namespace Directory
variable {git : Bool} {d d' d'' : Directory} {path source target text : String}
  {touched more : List String} {names : String → Prop}

/-! ### Changes at some paths -/

/-- The second directory comes of the first one by changes at some paths. -/
structure Alters (touched : List String) (d d' : Directory) : Prop where
  ordered : Ordered d'.entries
  same : ∀ path, path ∉ touched → d'.entries.get? path = d.entries.get? path
  history : d.history.isSome → d'.history.isSome

theorem Alters.refl (h : Ordered d.entries) : Alters touched d d := ⟨h, fun _ _ => rfl, id⟩

theorem Alters.of_eq (h : Ordered d.entries) (heq : d' = d) : Alters touched d d' := by
  subst heq
  exact .refl h

theorem Alters.trans (h : Alters touched d d') (h' : Alters more d' d'') :
    Alters (touched ++ more) d d'' where
  ordered := h'.ordered
  same path hpath := by
    rw [List.mem_append, not_or] at hpath
    rw [h'.same path hpath.2, h.same path hpath.1]
  history hsome := h'.history (h.history hsome)

theorem Alters.mono (h : Alters touched d d') (hsub : touched ⊆ more) : Alters more d d' where
  ordered := h.ordered
  same path hpath := h.same path fun hmem => hpath (hsub hmem)
  history := h.history

theorem alters_setEntry (h : Ordered d.entries) (path : String) (e : DirectoryEntry) :
    Alters [path] d (d.setEntry path e) where
  ordered := h.insert
  same other hother := by
    rw [setEntry, get?_insert_of_ne fun heq => hother (by simp [heq])]
  history := id

theorem get?_eraseEntry (h : Ordered d.entries) (path other : String) :
    (d.entries.erase path).get? other = if path = other then none else d.entries.get? other := by
  rw [get?_erase transOn_true h trivial trivial]
  simp only [Std.LawfulEqCmp.compare_eq_iff_eq]

theorem alters_erase (h : Ordered d.entries) (path : String) :
    Alters [path] d { d with entries := d.entries.erase path } where
  ordered := h.erase path
  same other hother := by
    rw [get?_eraseEntry h, if_neg fun heq => hother (by simp [heq])]
  history := id

theorem isFile_eq_false_iff :
    d.isFile path = false ↔ ∀ text, d.entries.get? path ≠ some (.file text) := by
  unfold isFile
  cases d.entries.get? path with
  | none => simp
  | some e => cases e <;> simp

theorem alters_removeFile (h : Ordered d.entries) (path : String) :
    Alters [path] d (d.removeFile path) ∧ (d.removeFile path).isFile path = false := by
  unfold removeFile
  split
  · refine ⟨alters_erase h path, isFile_eq_false_iff.2 fun text => ?_⟩
    rw [get?_eraseEntry h, if_pos rfl]
    exact nofun
  · next hfile => exact ⟨.refl h, by simpa using hfile⟩

/-- Whether a file can be written: its folder is there, and it is no folder itself. -/
def Takes (d : Directory) (path : String) : Prop :=
  d.isFolder (parent path) = true ∧ d.isFolder path = false

theorem Alters.isFolder_eq (ha : Alters touched d d') (hpath : path ∉ touched) :
    d'.isFolder path = d.isFolder path := by
  rw [isFolder, isFolder, ha.same _ hpath]

theorem Alters.takes_iff (ha : Alters touched d d') (hpath : path ∉ touched)
    (hparent : parent path ∉ touched) : d'.Takes path ↔ d.Takes path := by
  rw [Takes, Takes, ha.isFolder_eq hpath, ha.isFolder_eq hparent]

theorem write_cases (path text : String) :
    Triple (· = d) (write path text) (fun _ d' => d.Takes path ∧ d' = d.setEntry path (.file text))
      fun _ d' => ¬ d.Takes path ∧ d' = d := by
  refine Triple.get fun w hw => ?_
  subst hw
  refine Triple.ite (fun htakes => ?_) fun hnot => ?_
  · rw [Bool.and_eq_true, Bool.not_eq_true'] at htakes
    rintro w rfl
    exact ⟨htakes, rfl⟩
  · rw [Bool.and_eq_true, Bool.not_eq_true'] at hnot
    exact Triple.throw fun _ hw => ⟨hnot, hw⟩

theorem read_cases (path : String) :
    Triple (· = d) (read path) (fun text d' => d.entries.get? path = some (.file text) ∧ d' = d)
      fun _ d' => (∀ text, d.entries.get? path ≠ some (.file text)) ∧ d' = d := by
  refine Triple.get fun w hw => ?_
  subst hw
  split
  · next text htext => exact Triple.pure fun _ hw => ⟨htext, hw⟩
  · next hnone => exact Triple.throw fun _ hw => ⟨hnone, hw⟩

theorem rename_cases (source target : String) :
    Triple (· = d) (rename source target)
      (fun _ d' => ∃ text, d.entries.get? source = some (.file text) ∧ d' =
        { d.setEntry target (.file text) with
          entries := (d.setEntry target (.file text)).entries.erase source })
      fun _ d' => ((∀ text, d.entries.get? source ≠ some (.file text)) ∨ ¬ d.Takes target) ∧ d' = d := by
  refine Triple.bind (R := fun text d' => d.entries.get? source = some (.file text) ∧ d' = d)
    (Triple.mono (read_cases source) (fun _ h => h) (fun _ _ h => h) fun _ _ h => ⟨.inl h.1, h.2⟩)
    fun text => Triple.of_eq fun w hw => ?_
  obtain ⟨hsource, rfl⟩ := hw
  refine Triple.bind (R := fun _ d' => d' = w.setEntry target (.file text))
    (Triple.mono (write_cases target text) (fun _ h => h) (fun _ _ h => h.2)
      fun _ _ h => ⟨.inr h.1, h.2⟩) fun _ => Triple.modify fun d' hd' => ?_
  subst hd'
  exact ⟨text, hsource, rfl⟩

/-! ### Directories that serve a store -/

/-- Nothing but a staged file can be in the way of writing the tables of some names: the folder of the
tables is there, no folder is in the place of a live file, and a history if one is kept. -/
structure Serves (git : Bool) (names : String → Prop) (d : Directory) : Prop where
  ordered : Ordered d.entries
  folder : d.entries.get? "tables" = some .folder
  live : ∀ n, names n → d.entries.get? (Disk.tablePath n) ≠ some .folder
  history : git = true → d.history.isSome

/-- Where something else is staged, or a file of a table is put into place. -/
theorem Serves.of_alters (h : d.Serves git names) (ha : Alters touched d d')
    (hfolder : "tables" ∉ touched)
    (hlive : ∀ n, names n → Disk.tablePath n ∈ touched →
      d'.entries.get? (Disk.tablePath n) ≠ some .folder) : d'.Serves git names where
  ordered := ha.ordered
  folder := (ha.same _ hfolder).trans h.folder
  live n hn := by
    by_cases hmem : Disk.tablePath n ∈ touched
    · exact hlive n hn hmem
    · rw [ha.same _ hmem]
      exact h.live n hn
  history hgit := ha.history (h.history hgit)

end Directory

namespace Disk
open Directory
variable {git : Bool} {d d' : Directory} {n : String} {t : Table} {ts : List Table}
  {names : String → Prop}

theorem tables_ne_stagedPath (n : String) : "tables" ≠ stagedPath n := by
  intro h
  have hlength := congrArg (fun path : String => path.toList.length) h
  simp [stagedPath] at hlength

theorem tablePath_notMem_map_stagedPath (n : String) (ns : List String) :
    tablePath n ∉ ns.map stagedPath := by
  rw [List.mem_map]
  rintro ⟨m, -, h⟩
  exact tablePath_ne_stagedPath h.symm

theorem tables_notMem_map_stagedPath (ns : List String) : "tables" ∉ ns.map stagedPath := by
  rw [List.mem_map]
  rintro ⟨m, -, h⟩
  exact tables_ne_stagedPath m h.symm

/-- Changes where tables are staged. -/
theorem serves_of_staged (h : d.Serves git names) (ns : List String)
    (ha : Alters (ns.map stagedPath) d d') : d'.Serves git names :=
  h.of_alters ha (tables_notMem_map_stagedPath ns) fun n _ hmem =>
    absurd hmem (tablePath_notMem_map_stagedPath n ns)

/-! ### Staging -/

/-- The document of the table is next to its live file. -/
def Lies (t : Table) (d : Directory) : Prop :=
  ∃ text, Row.documentText? t.toList = some text ∧
    d.entries.get? (stagedPath t.name) = some (.file text)

theorem Lies.of_alters {touched : List String} (h : Lies t d) (ha : Alters touched d d')
    (hnot : stagedPath t.name ∉ touched) : Lies t d' := by
  obtain ⟨text, htext, hfile⟩ := h
  exact ⟨text, htext, by rw [ha.same _ hnot, hfile]⟩

theorem stage_cases (h : Ordered d.entries) :
    Triple (· = d) (stage t) (fun _ d' => Alters [stagedPath t.name] d d' ∧ Lies t d')
      fun _ d' => d' = d ∧
        ¬ ((Row.documentText? t.toList).isSome = true ∧ d.Takes (stagedPath t.name)) := by
  unfold stage
  split
  · next text htext =>
    refine Triple.mono (write_cases (stagedPath t.name) text) (fun _ h => h) (fun _ d' hd' => ?_)
      fun _ _ h => ⟨h.2, fun hboth => h.1 hboth.2⟩
    obtain ⟨-, rfl⟩ := hd'
    exact ⟨alters_setEntry h _ _, text, htext, get?_insert_self _ _ _⟩
  · next hnone => exact Triple.throw fun _ hw => ⟨hw, fun hboth => by simp [hnone] at hboth⟩

theorem discard_cases (h : Ordered d.entries) (ns : List String) :
    Alters (ns.map stagedPath) d (discard ns d) ∧
      ∀ n ∈ ns, (discard ns d).isFile (stagedPath n) = false := by
  induction ns generalizing d with
  | nil => exact ⟨.refl h, by simp⟩
  | cons n rest ih =>
    obtain ⟨ha, hnone⟩ := alters_removeFile h (stagedPath n)
    obtain ⟨ha', hrest⟩ := ih ha.ordered
    refine ⟨ha.trans ha', List.forall_mem_cons.2 ⟨?_, hrest⟩⟩
    show (discard rest (d.removeFile (stagedPath n))).isFile (stagedPath n) = false
    by_cases hmem : n ∈ rest
    · exact hrest n hmem
    · -- What is removed later is at other paths.
      have hsame := ha'.same (stagedPath n) fun hpath => by
        obtain ⟨m, hm, heq⟩ := List.mem_map.1 hpath
        exact hmem (stagedPath_injective heq ▸ hm)
      rw [isFile, hsame]
      exact hnone

/-- What staging tables leads to if it fails at one of them: what was staged is removed, and so is what
was there of it. -/
def Failed (staged : List String) (ts : List Table) (d d' : Directory) : Prop :=
  ∃ pre t post, ts = pre ++ t :: post ∧
    Alters ((staged ++ pre.map Table.name ++ [t.name]).map stagedPath) d d' ∧
    ∀ n ∈ staged ++ pre.map Table.name ++ [t.name], d'.isFile (stagedPath n) = false

theorem stageAll_cases (h : Ordered d.entries) (hnodup : (ts.map Table.name).Nodup)
    (staged : List String) :
    Triple (· = d) (stageAll staged ts)
      (fun _ d' => Alters ((ts.map Table.name).map stagedPath) d d' ∧ ∀ t ∈ ts, Lies t d')
      fun _ d' => Failed staged ts d d' := by
  induction ts generalizing staged d with
  | nil => exact Triple.pure fun w hw => ⟨.of_eq h hw, by simp⟩
  | cons t rest ih =>
    rw [List.map_cons, List.nodup_cons] at hnodup
    refine Triple.bind (R := fun _ d' => Alters [stagedPath t.name] d d' ∧ Lies t d')
      (Triple.tryCatch (F := fun _ d' => d' = d) (Triple.mono (stage_cases h) (fun _ h => h)
        (fun _ _ h => h) fun _ _ h => h.1) fun e => ?_) fun _ => Triple.of_eq fun d₁ hd₁ => ?_
    · -- This one cannot be staged: the ones before it are discarded, and it is too.
      refine Triple.bind (R := fun _ d' => d' = discard (t.name :: staged) d)
        (Triple.modify fun w hw => by rw [hw]) fun _ => Triple.throw fun w hw => ?_
      subst hw
      obtain ⟨ha, hnone⟩ := discard_cases h (t.name :: staged)
      refine ⟨[], t, rest, rfl, ha.mono ?_, fun n hn => hnone n ?_⟩
      · refine List.map_subset _ fun n hn => ?_
        simpa [or_comm] using hn
      · simpa [or_comm] using hn
    · obtain ⟨ha, hlies⟩ := hd₁
      refine Triple.mono (ih ha.ordered hnodup.2 (t.name :: staged)) (fun _ hw => hw)
        (fun _ d' hd' => ?_) fun _ d' hd' => ?_
      · obtain ⟨ha', hlies'⟩ := hd'
        refine ⟨ha.trans ha', List.forall_mem_cons.2 ⟨hlies.of_alters ha' fun hmem => ?_, hlies'⟩⟩
        obtain ⟨m, hm, heq⟩ := List.mem_map.1 hmem
        exact hnodup.1 (stagedPath_injective heq ▸ hm)
      · obtain ⟨pre, u, post, rfl, ha', hnone⟩ := hd'
        refine ⟨t :: pre, u, post, rfl, (ha.trans ha').mono ?_, fun n hn => hnone n ?_⟩
        · refine List.append_subset.2 ⟨?_, List.map_subset _ fun n hn => ?_⟩
          · simp
          · simp only [List.map_cons, List.mem_append, List.mem_cons] at hn ⊢
            tauto
        · simp only [List.map_cons, List.mem_append, List.mem_cons] at hn ⊢
          tauto

/-! ### Publishing -/

/-- The live file of the table is its document. -/
def Live (t : Table) (d : Directory) : Prop :=
  ∃ text, Row.documentText? t.toList = some text ∧
    d.entries.get? (tablePath t.name) = some (.file text)

theorem Live.of_alters {touched : List String} (h : Live t d) (ha : Alters touched d d')
    (hnot : tablePath t.name ∉ touched) : Live t d' := by
  obtain ⟨text, htext, hfile⟩ := h
  exact ⟨text, htext, by rw [ha.same _ hnot, hfile]⟩

theorem takes_tablePath (h : d.Serves git names) (hname : '/' ∉ n.toList) (hn : names n) :
    d.Takes (tablePath n) := by
  have hpath := inTables_tablePath hname
  have hnonempty : tablePath n ≠ "" := by
    intro hempty
    have hlength := congrArg (fun path : String => path.toList.length) hempty
    simp [tablePath] at hlength
  refine ⟨?_, ?_⟩
  · rw [hpath.parent_eq, isFolder, h.folder]
    simp
  · rw [isFolder, Bool.or_eq_false_iff]
    exact ⟨by simpa using hnonempty, by simpa using h.live n hn⟩

/-- Where a table was staged it is put into place. -/
theorem publish_cases (h : d.Serves git names) (hname : '/' ∉ t.name.toList) (hn : names t.name)
    (hlies : Lies t d) :
    Triple (· = d) (publish t.name)
      (fun _ d' => Alters (paths t) d d' ∧ Live t d') fun _ _ => False := by
  obtain ⟨text, htext, hstaged⟩ := hlies
  refine Triple.mono (rename_cases (stagedPath t.name) (tablePath t.name)) (fun _ h => h)
    (fun _ d' hd' => ?_) fun _ d' hd' => ?_
  · obtain ⟨text', hstaged', rfl⟩ := hd'
    rw [hstaged] at hstaged'
    cases hstaged'
    have hset := alters_setEntry h.ordered (tablePath t.name) (.file text)
    refine ⟨hset.trans (alters_erase hset.ordered _), text, htext, ?_⟩
    rw [get?_eraseEntry hset.ordered, if_neg fun heq => tablePath_ne_stagedPath heq.symm]
    exact get?_insert_self _ _ _
  · rcases hd'.1 with hnone | hnot
    · exact hnone text hstaged
    · exact hnot (takes_tablePath h hname hn)

/-- What is in no folder is not touched by writing tables. -/
theorem notMem_flatMap_paths {path : String} (hpath : '/' ∉ path.toList)
    (hts : ∀ t ∈ ts, '/' ∉ t.name.toList) : path ∉ ts.flatMap paths := by
  simp only [List.mem_flatMap, paths, List.mem_cons, List.not_mem_nil, or_false]
  rintro ⟨t, ht, h | h⟩
  · exact (inTables_tablePath (hts t ht)).ne_of_notMem hpath h.symm
  · exact (inTables_stagedPath (hts t ht)).ne_of_notMem hpath h.symm

theorem serves_of_live (h : d.Serves git names) (hts : ∀ t ∈ ts, '/' ∉ t.name.toList)
    (ha : Alters (ts.flatMap paths) d d') (hlive : ∀ t ∈ ts, Live t d') : d'.Serves git names := by
  refine h.of_alters ha (notMem_flatMap_paths (by simp) hts) fun n _ hmem => ?_
  obtain ⟨t, ht, rfl⟩ := List.mem_map.1 (tablePath_mem_paths.1 hmem)
  obtain ⟨text, -, hfile⟩ := hlive t ht
  simp [hfile]

theorem publishAll_cases (h : d.Serves git names) (hts : ∀ t ∈ ts, '/' ∉ t.name.toList ∧ names t.name)
    (hnodup : (ts.map Table.name).Nodup) (published : List String) (hlies : ∀ t ∈ ts, Lies t d) :
    ∃ d', publishAll published ts d = (published ++ ts.map Table.name, .ok (), d') ∧
      Alters (ts.flatMap paths) d d' ∧ ∀ t ∈ ts, Live t d' := by
  induction ts generalizing published d with
  | nil => exact ⟨d, by simp [publishAll], .refl h.ordered, by simp⟩
  | cons t rest ih =>
    rw [List.forall_mem_cons] at hts hlies
    rw [List.map_cons, List.nodup_cons] at hnodup
    obtain ⟨⟨⟩, d₁, hrun, ha, hlive⟩ := (publish_cases h hts.1.1 hts.1.2 hlies.1).run_ok
    have hlives : ∀ u ∈ [t], Live u d₁ := by simpa using hlive
    have hserves : d₁.Serves git names :=
      serves_of_live h (by simpa using hts.1.1) (by simpa using ha) hlives
    -- What is published is not what is still staged.
    have hrest (u : Table) (hu : u ∈ rest) : Lies u d₁ := by
      refine (hlies.2 u hu).of_alters ha fun hmem => hnodup.1 ?_
      have hmem : stagedPath u.name ∈ [t].flatMap paths := by simpa using hmem
      have hname := stagedPath_mem_paths.1 hmem
      rw [List.map_singleton, List.mem_singleton] at hname
      rw [← hname]
      exact List.mem_map_of_mem hu
    obtain ⟨d', hpublish, ha', hlive'⟩ := ih hserves hts.2 hnodup.2 (published ++ [t.name]) hrest
    refine ⟨d', ?_, ha.trans ha', List.forall_mem_cons.2 ⟨?_, hlive'⟩⟩
    · rw [publishAll, hrun]
      simp [hpublish]
    · exact hlive.of_alters ha' fun hmem => hnodup.1 (tablePath_mem_paths.1 hmem)

theorem record_cases (h : Ordered d.entries) (hkept : git = true → d.history.isSome)
    (message : String) :
    Triple (· = d) (record git message) (fun _ d' => Alters [] d d') fun _ _ => False := by
  refine Triple.ite (fun hgit => ?_) fun _ => Triple.pure fun w hw => .of_eq h hw
  obtain ⟨history, hhistory⟩ := Option.isSome_iff_exists.1 (hkept hgit)
  refine Triple.get fun w hw => ?_
  subst hw
  rw [hhistory]
  refine Triple.ite (fun _ => ?_) fun _ => Triple.pure fun w hw => .of_eq h hw
  rintro w rfl
  exact ⟨h, fun _ _ => rfl, fun _ => rfl⟩

/-! ### Flushing -/

/-- All the tables are put into place and nothing else is touched, or one of them cannot be staged and
nothing is left of what was. -/
theorem flush_cases (h : d.Serves git names)
    (hts : ∀ t ∈ ts, '/' ∉ t.name.toList ∧ names t.name) (hnodup : (ts.map Table.name).Nodup)
    (message : String) :
    (∃ published d', flush git message ts d = (published, .ok (), d') ∧ d'.Serves git names ∧
        Alters (ts.flatMap paths) d d' ∧ ∀ t ∈ ts, Live t d') ∨
      ∃ e d', flush git message ts d = ([], .error e, d') ∧ d'.Serves git names ∧ Failed [] ts d d' := by
  have hstage := stageAll_cases h.ordered hnodup [] d rfl
  cases hrun : (stageAll [] ts).run d with
  | error e d' =>
    rw [hrun] at hstage
    refine .inr ⟨e, d', by rw [flush, hrun], ?_, hstage⟩
    obtain ⟨pre, t, post, -, ha, -⟩ := hstage
    exact serves_of_staged h _ ha
  | ok u d₁ =>
    rw [hrun] at hstage
    obtain ⟨ha₁, hlies⟩ := hstage
    have hserves₁ := serves_of_staged h _ ha₁
    obtain ⟨d₂, hpublish, ha₂, hlive⟩ := publishAll_cases hserves₁ hts hnodup [] hlies
    have hserves₂ := serves_of_live hserves₁ (fun t ht => (hts t ht).1) ha₂ hlive
    obtain ⟨⟨⟩, d₃, hrecord, ha₃⟩ := (record_cases hserves₂.ordered hserves₂.history message).run_ok
    refine .inl ⟨_, d₃, by rw [flush, hrun]; simp only [hpublish, hrecord]; rfl, ?_, ?_, fun t ht => ?_⟩
    · exact hserves₂.of_alters ha₃ (by simp) fun _ _ hmem => absurd hmem List.not_mem_nil
    · refine ((ha₁.trans ha₂).trans ha₃).mono ?_
      refine List.append_subset.2 ⟨List.append_subset.2 ⟨fun path hpath => ?_, fun _ h => h⟩, List.nil_subset _⟩
      obtain ⟨n, hn, rfl⟩ := List.mem_map.1 hpath
      exact stagedPath_mem_paths.2 hn
    · exact (hlive t ht).of_alters ha₃ List.not_mem_nil

end Disk

end RelationalStore

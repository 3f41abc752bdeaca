import RelationalStore.Store.Disk
import RelationalStore.Proofs.JsonText
import RelationalStore.Proofs.MapEntries
import RelationalStore.Proofs.OperationTriple

/- What is written to the files of a store is found there again. The description of a store is read
   from its text (`StoreMeta.read?_pretty`). A directory that was prepared has the two folders of a
   store and no others (`Directory.Framed`); writing a file of a table keeps it so, and nothing but
   that file is another one afterwards (`Directory.Writes`). So tables whose rows can be stored are
   flushed without an error (`Disk.flush_spec`), and the directory holds their rows and those of the
   tables that were left alone. -/
namespace RelationalStore
open SortedMap Operation

/-! ### The description -/

namespace StoreMeta

theorem arrayOf?_map {α : Type} {read : Json → Option α} {write : α → Json} (xs : List α)
    (h : ∀ x ∈ xs, read (write x) = some x) : (Json.array (xs.map write)).arrayOf? read = some xs := by
  simp only [Json.arrayOf?, Json.array?, Option.bind_some, List.mapM_map]
  induction xs with
  | nil => rfl
  | cons x xs ih =>
    have hrest := ih fun y hy => h y (by simp [hy])
    simp [List.mapM_cons, h x (by simp), hrest]

theorem texts?_map (names : List String) :
    Reading.loose.texts? (.array (names.map .string)) = some names :=
  arrayOf?_map names fun _ _ => rfl

theorem ofJson?_indexJson (i : IndexDef) : IndexDef.ofJson? .loose (indexJson i) = some i := by
  simp [IndexDef.ofJson?, indexJson, Reading.part?, Json.required?, Json.optional?, Json.get?,
    Json.memberOf?, texts?_map, Reading.text?, Json.scalarText?, Json.bool?]

theorem ofJson?_tableJson (d : TableDef) : TableDef.ofJson? .loose (tableJson d) = some d := by
  have hindexes := arrayOf?_map d.indexes fun i _ => ofJson?_indexJson i
  simp [TableDef.ofJson?, tableJson, Reading.part?, Json.required?, Json.optional?, Json.get?,
    Json.memberOf?, texts?_map, Reading.text?, Json.scalarText?, hindexes]

theorem ofJson?_toJson {m : StoreMeta} (h : m.version < Nat.pow 2 32) :
    ofJson? m.toJson = some m := by
  have htables := arrayOf?_map m.tables fun d _ => ofJson?_tableJson d
  have hversion : m.version < 4294967296 := h
  simp [ofJson?, toJson, Reading.part?, Json.required?, Json.optional?, Json.get?, Json.memberOf?,
    Reading.text?, Json.scalarText?, Json.natural?, htables, hversion]

theorem itemsReadable_map {α : Type} {write : α → Json} {depth : Nat} (xs : List α)
    (h : ∀ x, Json.Readable depth (write x)) : Json.ItemsReadable depth (xs.map write) := by
  induction xs with
  | nil => trivial
  | cons x xs ih => exact ⟨h x, ih⟩

theorem readable_texts (names : List String) {depth : Nat} (h : 0 < depth) :
    Json.Readable depth (.array (names.map .string)) :=
  ⟨h, itemsReadable_map names fun _ => trivial⟩

theorem readable_indexJson (i : IndexDef) {depth : Nat} (h : 1 < depth) :
    Json.Readable depth (indexJson i) :=
  ⟨by omega, trivial, readable_texts i.fields (by omega), trivial, trivial⟩

theorem readable_tableJson (d : TableDef) {depth : Nat} (h : 3 < depth) :
    Json.Readable depth (tableJson d) := by
  refine ⟨by omega, trivial, readable_texts d.keyPath (by omega), ⟨by omega, ?_⟩, trivial⟩
  exact itemsReadable_map d.indexes fun i => readable_indexJson i (by omega)

theorem readable_toJson {m : StoreMeta} (h : m.version < Nat.pow 2 32) :
    Json.Readable Json.maxDepth m.toJson := by
  have hversion : (m.version : Int) < Nat.pow 2 64 := by
    have hlt : m.version < 4294967296 := h
    have hpow : Nat.pow 2 64 = 18446744073709551616 := rfl
    omega
  refine ⟨by decide, trivial, ⟨Int.natCast_nonneg _, hversion⟩, ⟨by decide, ?_⟩, trivial⟩
  exact itemsReadable_map m.tables fun d => readable_tableJson d (by decide)

/-- A description is read from its text. -/
theorem read?_pretty {m : StoreMeta} (h : m.version < Nat.pow 2 32) :
    (Json.read? m.toJson.pretty).bind ofJson? = some m := by
  rw [Json.read?_pretty (readable_toJson h)]
  exact ofJson?_toJson h

end StoreMeta

/-! ### Paths -/

namespace Directory

/-- A path of two names. -/
theorem parent_of_toList {path : String} {folder name : List Char} (hfolder : '/' ∉ folder)
    (hname : '/' ∉ name) (h : path.toList = folder ++ '/' :: name) :
    parent path = String.ofList folder := by
  have hparts : path.toList.splitOn '/' = [folder, name] := by
    have hpath : path.toList = ['/'].intercalate [folder, name] := by simp [h, List.intercalate]
    rw [hpath]
    exact List.splitOn_intercalate '/' (by simp [hfolder, hname]) (by simp)
  rw [parent, parts, hparts]
  simp

end Directory

namespace Disk
open Directory

/-- A name of a file in the folder of the tables. -/
def InTables (path : String) : Prop :=
  ∃ name : List Char, '/' ∉ name ∧ path.toList = "tables".toList ++ '/' :: name

variable {n n' : String}

theorem inTables_tablePath (h : '/' ∉ n.toList) : InTables (tablePath n) :=
  ⟨n.toList ++ ".json".toList, by simp [h], by simp [tablePath]⟩

theorem inTables_stagedPath (h : '/' ∉ n.toList) : InTables (stagedPath n) :=
  ⟨n.toList ++ ".json.tmp".toList, by simp [h], by simp [stagedPath]⟩

theorem InTables.parent_eq {path : String} (h : InTables path) : parent path = "tables" := by
  obtain ⟨name, hname, hpath⟩ := h
  rw [parent_of_toList (by simp) hname hpath, String.ofList_toList]

theorem InTables.ne_of_notMem {path other : String} (h : InTables path) (hother : '/' ∉ other.toList) :
    path ≠ other := by
  rintro rfl
  obtain ⟨name, -, hpath⟩ := h
  rw [hpath] at hother
  simp at hother

theorem InTables.ne_metaPath {path : String} (h : InTables path) : path ≠ metaPath := by
  rintro rfl
  obtain ⟨name, -, hpath⟩ := h
  simp [metaPath] at hpath

theorem tablePath_injective (h : tablePath n = tablePath n') : n = n' := by
  have hlist := congrArg String.toList h
  simp only [tablePath, String.toList_append] at hlist
  exact String.toList_injective (List.append_cancel_left (List.append_cancel_right hlist))

theorem stagedPath_injective (h : stagedPath n = stagedPath n') : n = n' := by
  have hlist := congrArg String.toList h
  simp only [stagedPath, String.toList_append] at hlist
  exact String.toList_injective (List.append_cancel_left (List.append_cancel_right hlist))

theorem tablePath_ne_stagedPath : tablePath n ≠ stagedPath n' := by
  intro h
  have hlast := congrArg (fun path : String => path.toList.reverse.head?) h
  simp [tablePath, stagedPath] at hlast

end Disk

/-! ### Directories of a store -/

namespace Directory
variable {git : Bool} {d d' d'' : Directory} {path source target text : String}

/-- Of the folders of a store there are both and no others, and a history if one is kept. -/
structure Framed (git : Bool) (d : Directory) : Prop where
  ordered : Ordered d.entries
  folders : ∀ path, d.entries.get? path = some .folder ↔ path = ".relkv" ∨ path = "tables"
  history : git = true → d.history.isSome

/-- The path of a file in one of the folders of a store. -/
structure OfStore (path : String) : Prop where
  parent : parent path = ".relkv" ∨ parent path = "tables"
  file : ¬ (path = ".relkv" ∨ path = "tables")

/-- The second directory comes of the first one by changes at some paths. -/
structure Writes (git : Bool) (touched : List String) (d d' : Directory) : Prop where
  framed : d'.Framed git
  same : ∀ path, path ∉ touched → d'.entries.get? path = d.entries.get? path

theorem Writes.of_eq {touched : List String} (h : d.Framed git) (heq : d' = d) :
    Writes git touched d d' where
  framed := heq ▸ h
  same _ _ := by rw [heq]

theorem Writes.trans {touched more : List String} (h : Writes git touched d d')
    (h' : Writes git more d' d'') : Writes git (touched ++ more) d d'' where
  framed := h'.framed
  same path hpath := by
    rw [List.mem_append, not_or] at hpath
    rw [h'.same path hpath.2, h.same path hpath.1]

theorem Framed.writes_setEntry (h : d.Framed git) (hpath : OfStore path) (text : String) :
    Writes git [path] d (d.setEntry path (.file text)) where
  framed := by
    refine ⟨h.ordered.insert, fun other => ?_, h.history⟩
    rw [setEntry, get?_insert_eq]
    split
    · next heq =>
      subst heq
      exact ⟨fun hfile => (nomatch hfile), fun hfolder => absurd hfolder hpath.file⟩
    · exact h.folders other
  same other hother := by
    rw [setEntry, get?_insert_of_ne fun heq => hother (by simp [heq])]

theorem Framed.writes_erase (h : d.Framed git) (hpath : OfStore path) :
    Writes git [path] d { d with entries := d.entries.erase path } := by
  have hget (other : String) : (d.entries.erase path).get? other =
      if path = other then none else d.entries.get? other := by
    rw [get?_erase transOn_true h.ordered trivial trivial]
    simp only [Std.LawfulEqCmp.compare_eq_iff_eq]
  refine ⟨⟨h.ordered.erase path, fun other => ?_, h.history⟩, fun other hother => ?_⟩
  · rw [hget]
    split
    · next heq =>
      subst heq
      exact ⟨fun hnone => (nomatch hnone), fun hfolder => absurd hfolder hpath.file⟩
    · exact h.folders other
  · rw [hget, if_neg fun heq => hother (by simp [heq])]

theorem Framed.isFolder_parent (h : d.Framed git) (hpath : OfStore path) :
    d.isFolder (parent path) = true ∧ d.isFolder path = false := by
  have hnonempty : path ≠ "" := by
    rintro rfl
    have hparent : parent "" = "" := by decide
    have := hpath.parent
    rw [hparent] at this
    exact absurd this (by decide)
  have hfile : d.entries.get? path ≠ some .folder := fun hfolder =>
    hpath.file ((h.folders path).1 hfolder)
  simp only [isFolder, (h.folders _).2 hpath.parent, Bool.or_eq_false_iff, beq_eq_false_iff_ne]
  exact ⟨by simp, by simpa using hnonempty, hfile⟩

theorem Framed.write (h : d.Framed git) (hpath : OfStore path) (text : String) :
    Triple (· = d) (write path text)
      (fun _ d' => Writes git [path] d d' ∧ d'.entries.get? path = some (.file text))
      fun _ _ => False := by
  obtain ⟨hfolder, hfile⟩ := h.isFolder_parent hpath
  refine Triple.get fun w hw => ?_
  subst hw
  rw [hfolder, hfile]
  rintro w rfl
  exact ⟨h.writes_setEntry hpath text, get?_insert_self _ _ _⟩

theorem read_spec (h : d.entries.get? path = some (.file text)) :
    Triple (· = d) (read path) (fun read d' => d' = d ∧ read = text) fun _ _ => False := by
  refine Triple.get fun w hw => ?_
  subst hw
  rw [h]
  exact Triple.pure fun _ hw => ⟨hw, rfl⟩

theorem Framed.rename (h : d.Framed git) (hsource : OfStore source) (htarget : OfStore target)
    (hne : target ≠ source) (hread : d.entries.get? source = some (.file text)) :
    Triple (· = d) (rename source target)
      (fun _ d' => Writes git [target, source] d d' ∧ d'.entries.get? target = some (.file text))
      fun _ _ => False := by
  refine Triple.bind (read_spec hread) fun read => Triple.of_eq fun w hw => ?_
  obtain ⟨rfl, rfl⟩ := hw
  refine Triple.bind (h.write htarget read) fun _ => Triple.modify fun d' hd' => ?_
  have herase := hd'.1.framed.writes_erase hsource
  refine ⟨hd'.1.trans herase, ?_⟩
  rw [herase.same target (by simpa using hne)]
  exact hd'.2

/-- The file of a table has these rows. -/
def Holds (d : Directory) (n : String) (rows : List Row) : Prop :=
  ∃ text, d.entries.get? (Disk.tablePath n) = some (.file text) ∧ Row.ofDocumentText? text = some rows

theorem Holds.of_writes {touched : List String} {n : String} {rows : List Row} (h : d.Holds n rows)
    (hw : Writes git touched d d') (hnot : Disk.tablePath n ∉ touched) : d'.Holds n rows := by
  obtain ⟨text, hfile, hread⟩ := h
  exact ⟨text, by rw [hw.same _ hnot, hfile], hread⟩

/-- The directory has the description. -/
def Describes (d : Directory) (m : StoreMeta) : Prop :=
  d.entries.get? Disk.metaPath = some (.file m.toJson.pretty)

end Directory

/-- The rows have a document, and it gives them back. -/
def Row.Storable (rows : List Row) : Prop :=
  (Row.documentText? rows).bind Row.ofDocumentText? = some rows

theorem Row.Storable.text {rows : List Row} (h : Row.Storable rows) :
    ∃ text, Row.documentText? rows = some text ∧ Row.ofDocumentText? text = some rows :=
  Option.bind_eq_some_iff.1 h

/-! ### Writing tables -/

namespace Disk
open Directory
variable {git : Bool} {d d' : Directory} {n : String} {t : Table} {ts : List Table}

theorem InTables.ofStore {path : String} (h : InTables path) : OfStore path where
  parent := .inr h.parent_eq
  file := not_or.2 ⟨h.ne_of_notMem (by simp), h.ne_of_notMem (by simp)⟩

/-- The document of the table is next to its live file. -/
def Staged (t : Table) (d : Directory) : Prop :=
  ∃ text, Row.ofDocumentText? text = some t.toList ∧
    d.entries.get? (stagedPath t.name) = some (.file text)

/-- The name is that of a file, and the rows can be stored. -/
structure Storable (t : Table) : Prop where
  name : '/' ∉ t.name.toList
  rows : Row.Storable t.toList

theorem stage_spec (h : d.Framed git) (ht : Storable t) :
    Triple (· = d) (stage t) (fun _ d' => Writes git [stagedPath t.name] d d' ∧ Staged t d')
      fun _ _ => False := by
  obtain ⟨text, htext, hread⟩ := ht.rows.text
  unfold stage
  rw [htext]
  refine Triple.mono (h.write (inTables_stagedPath ht.name).ofStore text) (fun _ hw => hw) ?_
    fun _ _ h => h
  exact fun _ d' hd' => ⟨hd'.1, text, hread, hd'.2⟩

theorem publish_spec (h : d.Framed git) (hname : '/' ∉ t.name.toList) (ht : Staged t d) :
    Triple (· = d) (publish t.name)
      (fun _ d' => Writes git [tablePath t.name, stagedPath t.name] d d' ∧ d'.Holds t.name t.toList)
      fun _ _ => False := by
  obtain ⟨text, hread, hstaged⟩ := ht
  refine Triple.mono (h.rename (inTables_stagedPath hname).ofStore (inTables_tablePath hname).ofStore
    tablePath_ne_stagedPath hstaged) (fun _ hw => hw) ?_ fun _ _ h => h
  exact fun _ d' hd' => ⟨hd'.1, text, hd'.2, hread⟩

theorem Staged.of_writes {touched : List String} (h : Staged t d) (hw : Writes git touched d d')
    (hnot : stagedPath t.name ∉ touched) : Staged t d' := by
  obtain ⟨text, hread, hstaged⟩ := h
  exact ⟨text, hread, by rw [hw.same _ hnot, hstaged]⟩

/-- The paths that writing a table touches. -/
def paths (t : Table) : List String := [tablePath t.name, stagedPath t.name]

theorem tablePath_mem_paths : tablePath n ∈ ts.flatMap paths ↔ n ∈ ts.map Table.name := by
  simp only [List.mem_flatMap, List.mem_map, paths, List.mem_cons, List.not_mem_nil, or_false]
  refine exists_congr fun t => and_congr_right fun _ => ⟨fun h => ?_, fun h => .inl (by rw [h])⟩
  exact h.elim (fun h => (tablePath_injective h).symm) fun h => absurd h tablePath_ne_stagedPath

theorem stagedPath_mem_paths : stagedPath n ∈ ts.flatMap paths ↔ n ∈ ts.map Table.name := by
  simp only [List.mem_flatMap, List.mem_map, paths, List.mem_cons, List.not_mem_nil, or_false]
  refine exists_congr fun t => and_congr_right fun _ => ⟨fun h => ?_, fun h => .inr (by rw [h])⟩
  exact h.elim (fun h => absurd h.symm tablePath_ne_stagedPath) fun h => (stagedPath_injective h).symm

theorem metaPath_notMem_paths (hts : ∀ t ∈ ts, '/' ∉ t.name.toList) : metaPath ∉ ts.flatMap paths := by
  simp only [List.mem_flatMap, paths, List.mem_cons, List.not_mem_nil, or_false]
  rintro ⟨t, ht, h | h⟩
  · exact (inTables_tablePath (hts t ht)).ne_metaPath h.symm
  · exact (inTables_stagedPath (hts t ht)).ne_metaPath h.symm

theorem stageAll_spec (hts : ∀ t ∈ ts, Storable t) (hnodup : (ts.map Table.name).Nodup)
    (staged : List String) (h : d.Framed git) :
    Triple (· = d) (stageAll staged ts)
      (fun _ d' => Writes git (ts.flatMap paths) d d' ∧ ∀ t ∈ ts, Staged t d') fun _ _ => False := by
  induction ts generalizing staged d with
  | nil => exact Triple.pure fun w hw => ⟨.of_eq h hw, by simp⟩
  | cons t rest ih =>
    rw [List.forall_mem_cons] at hts
    rw [List.map_cons, List.nodup_cons] at hnodup
    refine Triple.bind (R := fun _ d' => Writes git [stagedPath t.name] d d' ∧ Staged t d')
      (Triple.tryCatch (stage_spec h hts.1) fun e => ?_) fun _ => Triple.of_eq fun d₁ hd₁ => ?_
    · exact fun _ hw => hw.elim
    · refine Triple.mono (ih hts.2 hnodup.2 _ hd₁.1.framed) (fun _ hw => hw) (fun _ d' hd' => ?_)
        fun _ _ h => h
      obtain ⟨hw, hstaged⟩ := hd'
      refine ⟨⟨hw.framed, fun path hpath => ?_⟩, List.forall_mem_cons.2 ⟨?_, hstaged⟩⟩
      · rw [List.flatMap_cons, List.mem_append, not_or] at hpath
        rw [hw.same path hpath.2, hd₁.1.same path fun hmem => hpath.1 (by simp_all [paths])]
      · exact hd₁.2.of_writes hw fun hmem => hnodup.1 (stagedPath_mem_paths.1 hmem)

theorem publishAll_spec (hts : ∀ t ∈ ts, '/' ∉ t.name.toList) (hnodup : (ts.map Table.name).Nodup)
    (published : List String) (h : d.Framed git) (hstaged : ∀ t ∈ ts, Staged t d) :
    ∃ d', publishAll published ts d = (published ++ ts.map Table.name, .ok (), d') ∧
      Writes git (ts.flatMap paths) d d' ∧ ∀ t ∈ ts, d'.Holds t.name t.toList := by
  induction ts generalizing published d with
  | nil => exact ⟨d, by simp [publishAll], ⟨h, fun _ _ => rfl⟩, by simp⟩
  | cons t rest ih =>
    rw [List.forall_mem_cons] at hts hstaged
    rw [List.map_cons, List.nodup_cons] at hnodup
    obtain ⟨⟨⟩, d₁, hrun, hw, hholds⟩ := (publish_spec h hts.1 hstaged.1).run_ok
    -- What is published is not what is still staged.
    have hrest (u : Table) (hu : u ∈ rest) : Staged u d₁ := by
      refine (hstaged.2 u hu).of_writes hw fun hmem => hnodup.1 ?_
      have hmem : stagedPath u.name ∈ [t].flatMap paths := by simpa [paths] using hmem
      have hname := stagedPath_mem_paths.1 hmem
      rw [List.map_singleton, List.mem_singleton] at hname
      rw [← hname]
      exact List.mem_map_of_mem hu
    obtain ⟨d', hpublish, hw', hholds'⟩ := ih hts.2 hnodup.2 (published ++ [t.name]) hw.framed hrest
    refine ⟨d', ?_, hw.trans hw', List.forall_mem_cons.2 ⟨?_, hholds'⟩⟩
    · rw [publishAll, hrun]
      simp [hpublish]
    · exact hholds.of_writes hw' fun hmem => hnodup.1 (tablePath_mem_paths.1 hmem)

theorem record_spec (h : d.Framed git) (message : String) :
    Triple (· = d) (record git message) (fun _ d' => Writes git [] d d') fun _ _ => False := by
  refine Triple.ite (fun hgit => ?_) fun _ => Triple.pure fun w hw => .of_eq h hw
  obtain ⟨history, hhistory⟩ := Option.isSome_iff_exists.1 (h.history hgit)
  refine Triple.get fun w hw => ?_
  subst hw
  rw [hhistory]
  refine Triple.ite (fun _ => ?_) fun _ => Triple.pure fun w hw => .of_eq h hw
  rintro w rfl
  exact ⟨⟨h.ordered, h.folders, fun _ => rfl⟩, fun _ _ => rfl⟩

/-- Tables whose rows can be stored are made permanent, and the other files stay. -/
theorem flush_spec (h : d.Framed git) (hts : ∀ t ∈ ts, Storable t)
    (hnodup : (ts.map Table.name).Nodup) (message : String) :
    ∃ published d', flush git message ts d = (published, .ok (), d') ∧
      Writes git (ts.flatMap paths) d d' ∧ ∀ t ∈ ts, d'.Holds t.name t.toList := by
  obtain ⟨⟨⟩, d₁, hstage, hw₁, hstaged⟩ := (stageAll_spec hts hnodup [] h).run_ok
  obtain ⟨d₂, hpublish, hw₂, hholds⟩ :=
    publishAll_spec (fun t ht => (hts t ht).name) hnodup [] hw₁.framed hstaged
  obtain ⟨⟨⟩, d', hrecord, hw'⟩ := (record_spec hw₂.framed message).run_ok
  refine ⟨_, d', by rw [flush, hstage]; simp only [hpublish, hrecord]; rfl, ?_, fun t ht => ?_⟩
  · refine ⟨hw'.framed, fun path hpath => ?_⟩
    rw [hw'.same path (by simp), hw₂.same path hpath, hw₁.same path hpath]
  · exact (hholds t ht).of_writes hw' (by simp)

/-- Tables that are written one by one. -/
theorem forM_writeTable_spec (hts : ∀ t ∈ ts, Storable t) (hnodup : (ts.map Table.name).Nodup)
    (h : d.Framed git) : Triple (· = d) (ts.forM writeTable)
      (fun _ d' => Writes git (ts.flatMap paths) d d' ∧ ∀ t ∈ ts, d'.Holds t.name t.toList)
      fun _ _ => False := by
  induction ts generalizing d with
  | nil => exact Triple.pure fun w hw => ⟨.of_eq h hw, by simp⟩
  | cons t rest ih =>
    rw [List.forall_mem_cons] at hts
    rw [List.map_cons, List.nodup_cons] at hnodup
    refine Triple.bind (R := fun _ d' => Writes git (paths t) d d' ∧ d'.Holds t.name t.toList)
      (Triple.bind (stage_spec h hts.1) fun _ => Triple.of_eq fun d₁ hd₁ => ?_) fun _ =>
      Triple.of_eq fun d₁ hd₁ => ?_
    · refine Triple.mono (publish_spec hd₁.1.framed hts.1.name hd₁.2) (fun _ hw => hw)
        (fun _ d' hd' => ⟨⟨hd'.1.framed, fun path hpath => ?_⟩, hd'.2⟩) fun _ _ h => h
      rw [hd'.1.same path hpath, hd₁.1.same path fun hmem => hpath (by simp_all [paths])]
    · refine Triple.mono (ih hts.2 hnodup.2 hd₁.1.framed) (fun _ hw => hw) (fun _ d' hd' => ?_)
        fun _ _ h => h
      refine ⟨hd₁.1.trans hd'.1, List.forall_mem_cons.2 ⟨?_, hd'.2⟩⟩
      exact hd₁.2.of_writes hd'.1 fun hmem => hnodup.1 (tablePath_mem_paths.1 hmem)

end Disk

end RelationalStore

import RelationalStore.Proofs.KeptRows

/- No two rows of a table share a value of a unique index, whatever a client did. Storing a row is
   checked, and taking one out makes nothing worse, but a row that is put back when a transaction is
   aborted is not checked. A rollback leads back to the tables from when the transaction was opened,
   up to the form of keys, so what has to be carried along is that these were tables without shared
   values too (`Store.Distinct`). A table that was opened was made of rows one by one, each of which
   was checked (`Table.Made`). -/
namespace RelationalStore
open SortedMap Read Operation

/-! ### Tables that are made of rows -/

/-- Storing under a key that is not found adds an entry, whatever the order of the keys is like. -/
theorem SortedMap.perm_insertEntry {α β : Type} [Ord α] {k : α} {v : β} {entries : List (α × β)}
    (h : entryAt? k entries = none) : (insertEntry k v entries).Perm ((k, v) :: entries) := by
  fun_induction insertEntry k v entries with
  | case1 => exact .refl _
  | case2 e rest hlt => exact .refl _
  | case3 e rest heq => simp [entryAt?, heq] at h
  | case4 e rest hgt ih =>
    have hrest : entryAt? k rest = none := by simpa [entryAt?, hgt] using h
    exact ((ih hrest).cons e).trans (.swap _ _ _)

namespace Table
variable {κ : String → NumberClass} {d : TableDef} {t next : Table} {rows : List Row} {key : Key}

theorem toList_add {row : Row} (h : t.add row = .ok (key, next)) :
    next.toList.Perm (row :: t.toList) := by
  obtain ⟨-, -, hfree, -, rfl⟩ := add_ok h
  exact (SortedMap.perm_insertEntry (entryAt?_of_get?_none hfree)).map Prod.snd

/-- The table was made of rows, one by one. -/
def Made (t : Table) : Prop := ∃ d rows, ofRows d rows = .ok t

theorem made_ofDef (d : TableDef) : (ofDef d).Made := ⟨d, [], rfl⟩

theorem toList_foldlM (h : rows.foldlM (fun t row => (t.add row).map (·.2)) t = .ok next) :
    next.toList.Perm (rows ++ t.toList) := by
  induction rows generalizing t with
  | nil =>
    cases h
    exact .refl _
  | cons row rest ih =>
    rw [List.foldlM_cons] at h
    obtain ⟨t', ht', h⟩ := Except.bind_eq_ok.1 h
    obtain ⟨⟨key, t'⟩, hadd, rfl⟩ := Except.map_eq_ok.1 ht'
    exact (ih h).trans (((toList_add hadd).append_left rest).trans List.perm_middle)

theorem kept_foldlM (ht : t.Kept κ) (hrows : ∀ row ∈ rows, row.Fits κ t.definition.columns)
    (h : rows.foldlM (fun t row => (t.add row).map (·.2)) t = .ok next) : next.Kept κ := by
  induction rows generalizing t with
  | nil =>
    cases h
    exact ht
  | cons row rest ih =>
    rw [List.foldlM_cons] at h
    obtain ⟨t', ht', h⟩ := Except.bind_eq_ok.1 h
    obtain ⟨⟨key, t'⟩, hadd, rfl⟩ := Except.map_eq_ok.1 ht'
    have hdefinition : t'.definition = t.definition := by
      obtain ⟨-, -, -, -, rfl⟩ := add_ok hadd
      rfl
    refine ih (ht.add (hrows row List.mem_cons_self) hadd) (fun row' hrow' => ?_) h
    rw [hdefinition]
    exact hrows row' (List.mem_cons_of_mem row hrow')

/-- Every row of such a table was checked, and all of them are still there. -/
theorem Made.unique (h : t.Made) (ht : t.Proper κ) : t.Unique := by
  obtain ⟨d, rows, h⟩ := h
  have hperm := toList_foldlM h
  have hkept : t.Kept κ := by
    refine kept_foldlM (Call.kept_ofDef d) (fun row hrow => ?_) h
    obtain ⟨k, hk⟩ := mem_toList_iff.1 (hperm.symm.subset (List.mem_append_left _ hrow))
    exact (ht.within _ hk).fits
  exact hkept.unique

/-- Unique values are not told apart by the form of keys. -/
theorem Agrees.unique {D : Discipline} {a b : Table} (h : a.Agrees D b) (ha : a.Unique) :
    b.Unique := by
  have hK := Key.compare_isLE_trans D.classes b.definition.keyPath
  have hback := h.symm
  have hright := D.sound h.right
  have hfits {e : Key × Row} (he : e ∈ a.rows.entries) : e.1.Fits D.classes b.definition.keyPath := by
    rw [← h.definition]
    exact (D.sound h.left).rows.keys e he
  intro i hi hu x hx y hy hn hshare
  obtain ⟨x', hx', hxx', hxrow⟩ := hback.rows.exists_right hx
  obtain ⟨y', hy', hyy', hyrow⟩ := hback.rows.exists_right hy
  rw [← h.definition] at hi
  rw [hxrow] at hn hshare
  rw [hyrow] at hshare
  have hsame := ha i hi hu x' hx' y' hy' hn hshare
  -- Both are under keys that are equal to that of the one row.
  refine eq_of_compare_eq hK hright.rows hx hy ?_
  rw [← hsame] at hyy'
  exact hK.eq_trans (hright.rows.keys x hx) (hfits hx') (hright.rows.keys y hy) hxx'
    (Std.OrientedCmp.eq_symm hyy')

end Table

/-! ### Stores that are opened -/

/-- Every table was made of rows, one by one. -/
def Tables.Made (tables : Tables) : Prop := ∀ t ∈ tables.values, t.Made

theorem Tables.Made.insert {tables : Tables} (h : tables.Made) {t : Table} (ht : t.Made)
    (n : String) : Tables.Made (tables.insert n t) := by
  intro u hu
  rcases SortedMap.mem_values_insert hu with rfl | hu
  · exact ht
  · exact h u hu

theorem Tables.Made.erase {tables : Tables} (h : tables.Made) (n : String) :
    Tables.Made (tables.erase n) :=
  fun u hu => h u (((eraseEntry_sublist n tables.entries).map _).subset hu)

theorem Tables.made_ofList {ts : List (String × Table)} (h : ∀ p ∈ ts, p.2.Made) :
    Tables.Made (SortedMap.ofList ts) := by
  have hfold : ∀ tables : Tables, tables.Made →
      Tables.Made (ts.foldl (fun m e => m.insert e.1 e.2) tables) := by
    induction ts with
    | nil => exact fun tables htables => htables
    | cons p rest ih =>
      intro tables htables
      refine ih (fun q hq => h q (List.mem_cons_of_mem p hq)) _ ?_
      exact htables.insert (h p List.mem_cons_self) p.1
  exact hfold ∅ nofun

theorem Upgrade.made_createTable (d : TableDef) :
    Keeps (fun u : Upgrade => u.tables.Made) (createTable d) (fun _ => True) fun _ => True := by
  have hset {t : Table} (ht : t.Made) :
      Keeps (fun u : Upgrade => u.tables.Made) (setChanged t) (fun _ => True) fun _ => True :=
    Triple.modify fun u hu => ⟨hu.insert ht t.name, trivial⟩
  have herase : Keeps (fun u : Upgrade => u.tables.Made)
      (modify fun u => { u with tables := u.tables.erase d.name }) (fun _ => True) fun _ => True :=
    Triple.modify fun u hu => ⟨hu.erase d.name, trivial⟩
  unfold createTable
  split
  -- A refused name ends it there, and what would follow is the same.
  case' h_2 => refine Keeps.andThen (Keeps.throw (Q := fun _ : Unit => True) trivial) fun _ => ?_
  all_goals
    refine Triple.get fun u hu => ?_
    refine Triple.mono ?_ (fun w hw => (hw ▸ hu : w.tables.Made)) (fun _ _ h => h) fun _ _ h => h
    split
    · exact hset (Table.made_ofDef d)
    · next existing hexisting =>
      refine Triple.ite (fun _ => Keeps.pure trivial) fun _ => Keeps.andThen herase fun _ => ?_
      split
      · next t ht => exact hset ⟨d, existing.toList, ht⟩
      · exact Keeps.throw trivial

namespace Disk

theorem made_loadTable (d : TableDef) :
    Keeps (fun _ => True) (loadTable d) (fun t => t.Made) fun _ => True := by
  refine Keeps.andThen .any fun directory => Triple.ite (fun _ => ?_) fun _ =>
    Keeps.pure (Table.made_ofDef d)
  refine Keeps.andThen .any fun text => ?_
  split
  · exact Keeps.throw trivial
  · next rows hrows =>
    split
    · next t ht => exact Keeps.pure ⟨d, rows, ht⟩
    · exact Keeps.throw trivial

theorem made_loadTables (m : StoreMeta) :
    Keeps (fun _ => True) (loadTables m) (fun tables => tables.Made) fun _ => True := by
  refine Keeps.bind (Keeps.mapM fun d _ => made_loadTable d) fun ts hts => Keeps.pure ?_
  refine Tables.made_ofList fun p hp => ?_
  obtain ⟨t, ht, rfl⟩ := List.mem_map.1 hp
  exact hts t ht

theorem made_loadDirectory (git : Bool) :
    Keeps (fun _ => True) (Store.loadDirectory git) (fun loaded => loaded.2.Made) fun _ => True := by
  refine Keeps.andThen .any fun _ => Keeps.andThen .any fun description => ?_
  split
  · next m => exact Keeps.bind (made_loadTables m) fun tables htables => Keeps.pure htables
  · exact Keeps.pure nofun

theorem upgradeDirectory_tables (c : Config) (git : Bool) (u : Upgrade) :
    Keeps (fun _ => True) (Store.upgradeDirectory c git u) (fun tables => tables = u.tables)
      fun _ => True := by
  refine Keeps.andThen .any fun _ => ?_
  refine Triple.ite (fun _ => Keeps.andThen .any fun _ => ?_) fun _ => ?_
  · exact Keeps.andThen .any fun _ => Keeps.pure rfl
  · exact Keeps.andThen .any fun _ => Keeps.pure rfl

end Disk

/-- A store whose upgrade declares tables has tables that were made of rows. -/
theorem Store.made_openWith {config : Config} {definitions : List TableDef} {d : Directory}
    {store : Store}
    (h : (Store.openWith config (definitions.map .createTable) d).result = .ok store) :
    store.tables.Made := by
  have hupgraded : ∀ (u u' : Upgrade) reports reports', u.tables.Made →
      UpgradeStep.runAll u reports (definitions.map .createTable) = (.ok u', reports') →
        u'.tables.Made := by
    intro u u' reports reports' hu hrun
    have hsteps : ∀ step ∈ definitions.map UpgradeStep.createTable,
        Operation.Keeps (fun u : Upgrade => u.tables.Made) step.run (fun _ => True) fun _ => True := by
      intro step hstep
      obtain ⟨d, -, rfl⟩ := List.mem_map.1 hstep
      exact Keeps.andThen (Upgrade.made_createTable d) fun _ => Operation.Keeps.pure trivial
    have hyields := UpgradeStep.runAll_keeps hsteps hu reports
    rw [hrun] at hyields
    exact hyields
  unfold Store.openWith at h
  split at h
  · cases h
  · split at h
    · obtain ⟨u, hu, rfl⟩ := Except.map_eq_ok.1 h
      exact hupgraded {} u _ _ nofun (Prod.ext hu rfl)
    · next _ git _ =>
      unfold Store.openDirectory at h
      have hloaded := Disk.made_loadDirectory git d trivial
      simp only at h
      split at h
      · cases h
      · next description tables d' hload =>
        rw [hload] at hloaded
        have htables : tables.Made := hloaded.2
        split at h
        · cases h
        · split at h
          · cases h
            exact htables
          · split at h
            · cases h
            · next u hu =>
              split at h
              · cases h
              · next written _ hwritten =>
                cases h
                have hsame := Disk.upgradeDirectory_tables config git u d' trivial
                rw [hwritten] at hsame
                rw [show written = u.tables from hsame.2]
                exact hupgraded { tables } u _ _ htables (Prod.ext hu rfl)

/-! ### Transactions -/

/-- No two rows of a table share a value of a unique index. -/
def Tables.Unique (tables : Tables) : Prop := ∀ n t, tables.get? n = some t → t.Unique

namespace Tables.Unique
variable {κ : String → String → NumberClass} {tables tables' : Tables} {tx tx' : Transaction}
  {n : String} {row : Row} {key : Key}

theorem insert (h : tables.Unique) {t : Table} (ht : t.Unique) : Tables.Unique (tables.insert n t) := by
  intro m u hu
  rw [get?_insert_eq] at hu
  split at hu
  · cases hu
    exact ht
  · exact h m u hu

theorem add (h : tables.Unique) (hp : Tables.Proper κ tables) (hrow : row.Within (κ n))
    (hadd : tx.add tables n row = .ok (key, tx', tables')) : tables'.Unique := by
  obtain ⟨t, ht, hadd⟩ := Except.bind_eq_ok.1 hadd
  obtain ⟨⟨k, next⟩, hnext, hadd⟩ := Except.bind_eq_ok.1 hadd
  cases hadd
  have hfound := (Transaction.tableToWrite_ok ht).2
  exact h.insert ((hp.proper hfound).toSound.unique_add (h n t hfound) hrow.fits hnext)

theorem put (h : tables.Unique) (hp : Tables.Proper κ tables) (hrow : row.Within (κ n))
    (hput : tx.put tables n row = .ok (key, tx', tables')) : tables'.Unique := by
  obtain ⟨t, ht, hput⟩ := Except.bind_eq_ok.1 hput
  obtain ⟨⟨k, next⟩, hnext, hput⟩ := Except.bind_eq_ok.1 hput
  cases hput
  have hfound := (Transaction.tableToWrite_ok ht).2
  exact h.insert ((hp.proper hfound).toSound.unique_put (h n t hfound) hrow.fits hnext)

theorem delete (h : tables.Unique) {old : Option Row}
    (hdelete : tx.delete tables n key = .ok (old, tx', tables')) : tables'.Unique := by
  obtain ⟨t, ht, -, ⟨-, -, rfl⟩ | ⟨-, hw⟩⟩ := Transaction.delete_ok hdelete
  · exact h
  · rw [hw.tables]
    exact h.insert ((h n t ht).remove key)

end Tables.Unique

/-- What writes lead to, without shared values. -/
theorem Schema.upholds_unique {s : Schema} {κ : String → String → NumberClass} {first tables : Tables}
    {tx : Transaction} (hfirst : s.Holds κ first)
    (hd : ∀ n, (tables.get? n).map (·.definition) = (first.get? n).map (·.definition)) :
    s.Upholds (fun n c v => v.within (κ n c)) fun tables' tx' =>
      tx.Leads (.within ∘ κ) tables tx' tables' ∧ tables'.Unique where
  stored h := (upholds_leads hfirst hd).stored h.1
  add h _ he _ hrow _ _ _ hadd :=
    ⟨(upholds_leads hfirst hd).add h.1 he hrow hadd,
      h.2.add (Tables.proper_iff.2 h.1.under) hrow hadd⟩
  put h _ he _ hrow _ _ _ hput :=
    ⟨(upholds_leads hfirst hd).put h.1 he hrow hput,
      h.2.put (Tables.proper_iff.2 h.1.under) hrow hput⟩
  delete h _ he _ hrow _ _ _ hdelete :=
    ⟨(upholds_leads hfirst hd).delete h.1 he hrow hdelete, h.2.delete hdelete⟩

/-! ### Stores -/

namespace Store
variable {D : String → Table.Discipline} {first : Tables} {s s' : Store} {tx : Transaction} {id : Nat}

/-- No two rows share a value of a unique index, nor would they if a transaction were taken back. -/
structure Distinct (D : String → Table.Discipline) (first : Tables) (s : Store) : Prop
    extends s.Isolated D first where
  unique : s.tables.Unique
  opened : ∀ id, ∃ opened : Tables, opened.Unique ∧ s.Remembers D id opened

/-- No transaction has a number that is not taken yet. -/
theorem Numbered.remembers (h : s.Numbered) (hid : s.nextId ≤ id) : s.Remembers D id ∅ := by
  intro tx htx heq
  have hlt := h.below tx htx
  omega

namespace Distinct

/-- A step of the transactions that there are. -/
theorem follow (h : s.Distinct D first) (hstep : s.Follows D first s') (hunique : s'.tables.Unique)
    (hnext : s'.nextId = s.nextId) : s'.Distinct D first where
  toIsolated := hstep.isolated
  unique := hunique
  opened id := by
    by_cases hid : id < s.nextId
    · obtain ⟨opened, hopened, hr⟩ := h.opened id
      exact ⟨opened, hopened, hstep.remembers hid hr⟩
    · exact ⟨∅, nofun, hstep.isolated.numbered.remembers (by omega)⟩

theorem begin (h : s.Distinct D first) {names : List String} {mode : TransactionMode}
    (hb : s.beginTransaction names mode = .ok (id, s')) : s'.Distinct D first := by
  have hstep := h.follows_begin hb
  have hnew := h.remembers_begin hb
  obtain ⟨-, hid, hs'⟩ := beginTransaction_ok hb
  refine ⟨hstep.isolated, ?_, fun id' => ?_⟩
  · rw [hs']
    exact h.unique
  · by_cases hlt : id' < s.nextId
    · obtain ⟨opened, hopened, hr⟩ := h.opened id'
      exact ⟨opened, hopened, hstep.remembers hlt hr⟩
    · by_cases heq : id' = id
      · exact ⟨s.tables, h.unique, heq ▸ hnew⟩
      · refine ⟨∅, nofun, hstep.isolated.numbered.remembers ?_⟩
        rw [hs']
        show s.nextId + 1 ≤ id'
        omega

/-- Taking a transaction back. -/
theorem rollback (h : s.Distinct D first) (htx : tx ∈ s.transactions) (hactive : tx.active = true) :
    (tx.rollback s.tables).Unique := by
  obtain ⟨opened, hopened, hr⟩ := h.opened tx.id
  intro n t ht
  by_cases hn : n ∈ tx.scope
  · have hagrees := hr tx htx rfl hactive n hn
    obtain ⟨t₀, ht₀, hagrees⟩ := exists_of_rel hagrees ht
    exact hagrees.symm.unique (hopened n t₀ ht₀)
  · rw [(h.logged tx htx).isNoted.rollback_of_free hactive fun hmay => hn hmay.2.2] at ht
    exact h.unique n t ht

theorem forget (h : s.Distinct D first) (id : Nat) : (s.forget id).Distinct D first :=
  h.follow (h.follows_forget id) h.unique rfl

theorem abort (h : s.Distinct D first) (id : Nat) : (s.abort id).Distinct D first := by
  refine h.follow (h.follows_abort id) ?_ (nextId_abort s id)
  unfold Store.abort
  cases htx : s.transaction? id with
  | none => exact h.unique
  | some tx =>
    have hmem := (transaction?_eq_some htx).1
    unfold Transaction.abort
    by_cases hactive : tx.active = true
    · simp only [hactive, if_true]
      exact h.rollback hmem hactive
    · simp only [hactive]
      exact h.unique

theorem drop (h : s.Distinct D first) (id : Nat) : (s.drop id).Distinct D first :=
  (h.abort id).forget id

theorem commit (h : s.Distinct D first) (id : Nat) : (s.commit id).2.Distinct D first := by
  refine h.follow (h.follows_commit id) ?_ ?_
  all_goals
    unfold Store.commit
    cases htx : s.transaction? id with
    | none => first | exact h.unique | rfl
    | some tx => ?_
  · rcases commitTransaction_tables s tx with ⟨htables, -⟩ | ⟨htables, hactive, -⟩
    · show (s.commitTransaction tx).2.tables.Unique
      rw [htables]
      exact h.unique
    · show (s.commitTransaction tx).2.tables.Unique
      rw [htables]
      exact h.rollback (transaction?_eq_some htx).1 hactive
  · exact (commitTransaction_frame (s := s) tx).2

theorem writeIn {α : Type} (h : s.Distinct D first) (id : Nat)
    {f : Transaction → Tables → Except Error (α × Transaction × Tables)}
    (hf : s.Follows D first (s.writeIn id f).2)
    (hunique : ∀ tx {a tx' tables'}, f tx s.tables = .ok (a, tx', tables') → tables'.Unique) :
    (s.writeIn id f).2.Distinct D first := by
  refine h.follow hf ?_ ?_
  all_goals
    unfold Store.writeIn
    cases htx : s.transaction? id with
    | none => first | exact h.unique | rfl
    | some tx =>
      simp only
      split
      · next heq => first | exact hunique tx heq | rfl
      · first | exact h.unique | rfl

end Distinct

end Store

/-! ### Clients -/

namespace Client
variable {D : String → Table.Discipline} {first : Tables} {c c' : Client} {tx : Transaction}
  {id : Nat} {α : Type} {op : Operation α}

/-- Whatever transaction the operation runs in, all it does is to write in it, and tables without
shared values stay so. -/
def OnlyChecked (D : String → Table.Discipline) (first : Tables) (op : Operation α) : Prop :=
  ∀ (tx : Transaction) (tables : Tables),
    (∀ n, (tables.get? n).map (·.definition) = (first.get? n).map (·.definition)) →
    Operation.Upholds (fun tables' tx' => tx.Leads D tables tx' tables' ∧ tables'.Unique) op
      fun _ => True

section
variable (hop : OnlyWrites D first op) (hchecked : OnlyChecked D first op)
include hop hchecked

theorem distinct_run (h : c.store.Distinct D first) (htx : c.store.transaction? id = some tx)
    {outcome : Except Error (α × List Change)} (hrun : c.run tx op = (outcome, c')) :
    c'.store.Distinct D first := by
  have hmem := (Store.transaction?_eq_some htx).1
  have hkept := hchecked tx c.store.tables h.definition ⟨c.store.tables, tx, c.supply, [], []⟩
    ⟨.refl h.under (h.logged tx hmem), h.unique⟩
  have hstep := follows_run hop h.toIsolated htx hrun
  unfold run at hrun
  simp only at hrun
  split at hrun <;> next heq =>
    rw [heq] at hkept
    cases hrun
    exact h.follow hstep hkept.1.2 rfl

theorem distinct_runIn (h : c.store.Distinct D first) (id : Nat) :
    (c.runIn id op).client.store.Distinct D first := by
  have hruns := c.runsIn id op
  generalize c.runIn id op = o at hruns ⊢
  cases hruns with
  | missing => exact h
  | failed htx hrun => exact (distinct_run hop hchecked h htx hrun).abort id
  | done htx hrun => exact distinct_run hop hchecked h htx hrun

theorem distinct_runAlone (h : c.store.Distinct D first) (names : List String)
    (mode : TransactionMode) : (c.runAlone names mode op).client.store.Distinct D first := by
  have hruns := c.runsAlone names mode op
  generalize c.runAlone names mode op = o at hruns ⊢
  have hnext {id : Nat} {store : Store} {tx : Transaction}
      {outcome : Except Error (α × List Change)} {c' : Client}
      (hb : c.store.beginTransaction names mode = .ok (id, store))
      (htx : store.transaction? id = some tx) (hrun : (c.withStore store).run tx op = (outcome, c')) :
      c'.store.Distinct D first :=
    distinct_run (c := c.withStore store) hop hchecked (h.begin hb) htx hrun
  cases hruns with
  | refused => exact h
  | missing hb => exact h.begin hb
  | failed hb htx hrun => exact (hnext hb htx hrun).drop _
  | uncommitted hb htx hrun => exact (hnext hb htx hrun).commit _
  | done hb htx hrun => exact (hnext hb htx hrun).commit _

end

section
variable {s : Schema} {κ : String → String → NumberClass} (hs : s.Resolved) (hkinds : s.KeysOfKinds)
  (hfirst : s.Holds κ first)
include hs hkinds hfirst

theorem distinct_after (hschema : c.schema = s) (h : c.store.Distinct (.within ∘ κ) first)
    {a : Action} (ha : a.Regular κ first) : (c.after a).store.Distinct (.within ∘ κ) first := by
  have hp := Tables.proper_iff.2 h.under
  have hstep := follows_after hs hkinds hfirst hschema h.toIsolated ha
  cases a with
  | ask entity r tx =>
    simp only [after, ask]
    cases hrequire : c.schema.require entity with
    | error e => exact h
    | ok e =>
      have hentity := Option.elim_ok_eq_ok.1 hrequire
      rw [hschema] at hentity
      have he : s.entity? e.name = some e := by rw [hs.name hentity]; exact hentity
      have hop := onlyWrites_offered hs hkinds hfirst he (r := r) ha
      have hchecked : OnlyChecked (.within ∘ κ) first (r.operation s e) := fun _ _ hd =>
        Request.Offered.upholds (r := r) hs (Schema.admits_within hs hkinds hfirst.classes)
          (Schema.upholds_unique hfirst hd) he ha
      rw [← hschema] at hop hchecked
      cases tx with
      | some id => exact distinct_runIn hop hchecked h id
      | none => exact distinct_runAlone hop hchecked h _ _
  | begin names mode =>
    simp only [after]
    split
    · next hb => exact h.begin hb
    · exact h
  | commit id => exact h.commit id
  | abort id => exact h.abort id
  | drop id => exact h.drop id
  | add id table row => exact h.writeIn id hstep fun _ _ _ _ hf => h.unique.add hp ha hf
  | put id table row => exact h.writeIn id hstep fun _ _ _ _ hf => h.unique.put hp ha hf
  | delete id table key => exact h.writeIn id hstep fun _ _ _ _ hf => h.unique.delete hf
  | subscribe entity kinds listener =>
    rw [(after_subscribe c entity kinds listener).1]
    exact h
  | unsubscribe entity id =>
    rw [(after_unsubscribe c entity id).1]
    exact h

theorem distinct_foldl (hschema : c.schema = s) (h : c.store.Distinct (.within ∘ κ) first)
    {actions : List Action} (hactions : ∀ a ∈ actions, a.Regular κ first) :
    (actions.foldl after c).store.Distinct (.within ∘ κ) first := by
  induction actions generalizing c with
  | nil => exact h
  | cons a rest ih =>
    have hstep := distinct_after hs hkinds hfirst hschema h (hactions a List.mem_cons_self)
    refine ih ((schema_after c a).trans hschema) hstep fun b hb => ?_
    exact hactions b (List.mem_cons_of_mem a hb)

end

/-- A client that was just opened has tables that were made of rows. -/
theorem Opened.made {s : Schema} (h : c.Opened s) : c.store.tables.Made := by
  obtain ⟨config, supply, d, h⟩ := h
  obtain ⟨store, hstore, rfl⟩ := Except.map_eq_ok.1 h
  have hsteps : (s.entities.values.map fun e => UpgradeStep.createTable e.tableDef) =
      (s.entities.values.map Entity.tableDef).map .createTable := by
    rw [List.map_map]
    rfl
  rw [hsteps] at hstore
  exact Store.made_openWith hstore

/-- No two rows share a value of a unique index in the beginning. -/
theorem Opened.distinct {s : Schema} {κ : String → String → NumberClass} (hopened : c.Opened s)
    (hholds : s.Holds κ c.store.tables) : c.store.Distinct (.within ∘ κ) c.store.tables where
  toIsolated := isolated_of_opened hopened hholds
  unique _ t ht := (hopened.made t (mem_values_of_get? ht)).unique (hholds.proper.proper ht)
  opened _ := ⟨∅, nofun, fun tx htx => by simp [hopened.transactions] at htx⟩

/-- Whatever was done with a client of the schema: no two rows of a table share a value of a unique
index. -/
theorem unique_foldl {s : Schema} {κ : String → String → NumberClass} (hs : s.Resolved)
    (hkinds : s.KeysOfKinds) (hopened : c.Opened s) (hholds : s.Holds κ c.store.tables)
    {actions : List Action} (hactions : ∀ a ∈ actions, a.Regular κ c.store.tables) :
    (actions.foldl after c).store.tables.Unique :=
  (distinct_foldl hs hkinds hholds hopened.schema (hopened.distinct hholds) hactions).unique

end Client

end RelationalStore

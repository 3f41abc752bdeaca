import RelationalStore.Proofs.DispatchedChanges
import RelationalStore.Proofs.GreedyBatches

/- What an update leaves, for data of the row's own fields. A row that is updated is put back where
   it was read, under the key that it had, so row by row the table is what it was, apart from the
   rows that were picked (`Tables.Patched`), and each of these is told by the row that it was alone
   (`Entity.Patches`). The rows that are picked are updated one after the other. That none of them
   leaks into another comes from their keys: in a table that is sorted by its keys a row is put in
   place of itself, and no row that is still to come is touched by it (`Tables.Patched.cons`). -/
namespace RelationalStore
open SortedMap Read Operation

/-! ### Rows under revision -/

/-- The names that the data write to. -/
def WriteData.names (data : WriteData) : List String := data.fields.map (·.1)

/-- What the data make of the value of a field: the entries under its name, one after the other. -/
def Entity.rewritten (e : Entity) (f : FieldDef) (data : WriteData) (old : Value) :
    Except Error Value :=
  (data.fields.filter (·.1 == f.name)).foldlM (fun v entry => newValue e f v entry.2) old

/-- What entries of plain data make of a row under revision. -/
structure Entity.Edits (e : Entity) (fields : List (String × FieldWrite)) (v v' : Revision) :
    Prop where
  declared : ∀ entry ∈ fields, ∃ f, e.field? entry.1 = some f ∧ f.id = false
  values : ∀ f, e.field? f.name = some f →
    e.rewritten f ⟨fields⟩ (v.row.value f.name) = .ok (v'.row.value f.name)
  others : ∀ name, name ∉ fields.map (·.1) → v'.row.get? name = v.row.get? name
  written : ∀ name, name ∈ v'.written ↔ name ∈ fields.map (·.1) ∨ name ∈ v.written

namespace Entity
variable {e : Entity} {f : FieldDef} {name : String} {write : FieldWrite}
  {rest : List (String × FieldWrite)} {v v' : Revision} {value : Value}

theorem rewritten_cons_of_eq (hname : name = f.name) (old : Value) :
    e.rewritten f ⟨(name, write) :: rest⟩ old =
      (newValue e f old write >>= fun v => e.rewritten f ⟨rest⟩ v) := by
  simp [rewritten, hname]

theorem rewritten_cons_of_ne (hname : name ≠ f.name) (old : Value) :
    e.rewritten f ⟨(name, write) :: rest⟩ old = e.rewritten f ⟨rest⟩ old := by
  simp [rewritten, hname]

theorem Edits.nil (e : Entity) (v : Revision) : e.Edits [] v v :=
  ⟨by simp, fun _ _ => rfl, fun _ _ => rfl, by simp⟩

/-- One entry, and then the others. -/
theorem Edits.cons (hf : e.field? name = some f) (hid : f.id = false)
    (hvalue : newValue e f (v.row.value f.name) write = .ok value)
    (h : e.Edits rest (v.set f.name value) v') : e.Edits ((name, write) :: rest) v v' := by
  obtain rfl : f.name = name := by simpa using List.find?_some hf
  refine ⟨List.forall_mem_cons.2 ⟨⟨f, hf, hid⟩, h.declared⟩, fun g hg => ?_, fun other hother => ?_,
    fun other => ?_⟩
  · have hlater := h.values g hg
    rw [Revision.value_set] at hlater
    by_cases hname : f.name = g.name
    · obtain rfl : f = g := by
        rw [← hname, hf] at hg
        exact Option.some.inj hg
      rw [if_pos rfl] at hlater
      rw [rewritten_cons_of_eq rfl, hvalue]
      exact hlater
    · rw [if_neg (Ne.symm hname)] at hlater
      rwa [rewritten_cons_of_ne hname]
  · obtain ⟨hne, hother⟩ : other ≠ f.name ∧ other ∉ rest.map (·.1) := by simpa using hother
    rw [h.others other hother, Revision.set, get?_insert_of_ne (Ne.symm hne)]
  · have hset : other ∈ (v.set f.name value).written ↔ other = f.name ∨ other ∈ v.written :=
      List.mem_cons
    rw [h.written, hset, List.map_cons, List.mem_cons]
    tauto

/-- The fields of the primary key are not written to. -/
theorem Edits.keyOf {s : Schema} {fields : List (String × FieldWrite)} (h : e.Edits fields v v')
    (hs : s.Resolved) (he : s.entity? e.name = some e) : e.keyOf v'.row = e.keyOf v.row := by
  refine Key.ofRow_congr fun name hname => h.others name fun hwritten => ?_
  obtain ⟨entry, hentry, rfl⟩ := List.mem_map.1 hwritten
  obtain ⟨f, hf, hid⟩ := h.declared entry hentry
  have hfield : f.name = entry.1 := by simpa using List.find?_some hf
  rw [hs.id_of_mem_idFields he (List.mem_of_find?_eq_some hf) (hfield ▸ hname)] at hid
  cases hid

end Entity

namespace Operation
variable {s : Schema} {e : Entity}

theorem keeps_reviseAll (I : Work → Prop) (s : Schema) (e : Entity)
    {fields : List (String × FieldWrite)} (hplain : WriteData.writesRelations ⟨fields⟩ = false)
    (v : Revision) :
    Keeps I (fields.foldlM (revise s e) v) (e.Edits fields v) fun _ => True := by
  induction fields generalizing v with
  | nil => exact Keeps.pure (.nil e v)
  | cons entry rest ih =>
    obtain ⟨name, write⟩ := entry
    rw [WriteData.writesRelations, List.any_cons, Bool.or_eq_false_iff] at hplain
    have hone : Keeps I (revise s e v (name, write)) (fun v' => ∃ f value,
        e.field? name = some f ∧ f.id = false ∧
          newValue e f (v.row.value f.name) write = .ok value ∧ v' = v.set f.name value)
        fun _ => True := by
      unfold revise
      split
      · next f hf =>
        refine Keeps.ofExcept (.of_ok (fun v' hv' => ?_) fun _ _ => trivial)
        obtain ⟨hid, value, hvalue, hset⟩ := reviseField_ok hv'
        exact ⟨f, value, hf, hid, hvalue, hset⟩
      · refine Keeps.andThen (Keeps.ofExcept .any) fun r => ?_
        cases write with
        | relation nested => cases hplain.1
        | literal literal => exact Keeps.throw trivial
        | update op => exact Keeps.throw trivial
    rw [List.foldlM_cons]
    refine Keeps.bind hone fun v₁ hv₁ => ?_
    obtain ⟨f, value, hf, hid, hvalue, rfl⟩ := hv₁
    exact (ih hplain.2 _).mono (fun v' h => h.cons hf hid hvalue) fun _ h => h

/-- The clock is looked at once, for all fields that have the time of the last write. -/
theorem stamp_stamps {w₀ : Work} (e : Entity) (v : Revision) :
    Ends w₀ (stamp e v) fun row w =>
      w = { w₀ with supply := w₀.supply.now.2 } ∧ ∀ name, row.get? name =
        if name ∈ e.stamps then
          some (if name ∈ v.written then v.row.value name else .datetime w₀.supply.now.1)
        else v.row.get? name := by
  refine Ends.bind (ends_touch e v.row) fun stamped w htouch => Ends.pure ?_
  obtain ⟨rfl, hw⟩ := htouch
  refine ⟨hw, fun name => ?_⟩
  have hstamped : SortedMap.get? _ name = if name ∈ e.stamps then some (.datetime w₀.supply.now.1)
      else v.row.get? name := Row.get?_foldl_insert FieldDef.name _ _ v.row name
  have hkept := e.mem_kept v.written name
  rw [Row.get?_foldl_write FieldDef.name v.row.value]
  by_cases hkeep : name ∈ e.stamps ∧ name ∈ v.written
  · rw [if_pos (hkept.2 hkeep), if_pos hkeep.1, if_pos hkeep.2]
  · rw [if_neg (mt hkept.1 hkeep), hstamped]
    by_cases hstamp : name ∈ e.stamps
    · rw [if_pos hstamp, if_pos hstamp, if_neg fun hwritten => hkeep ⟨hstamp, hwritten⟩]
    · rw [if_neg hstamp, if_neg hstamp]

end Operation

/-! ### Tables in which rows are patched -/

/-- In place of the entry that is found under a key another is put, and those before and after it
stay. -/
theorem SortedMap.insertEntry_eraseEntry {κ ν : Type} [Ord κ] [Std.OrientedOrd κ] {P : κ → Prop}
    (hP : TransOn (compare : κ → κ → Ordering) P) {entries : List (κ × ν)} (ho : InOrder P entries)
    {k : κ} (hk : P k) {a : κ × ν} (h : entryAt? k entries = some a) (v : ν) : ∃ before after,
      entries = before ++ a :: after ∧
        insertEntry k v (eraseEntry k entries) = before ++ (k, v) :: after := by
  induction entries with
  | nil => cases h
  | cons b rest ih =>
    rw [entryAt?] at h
    rw [eraseEntry]
    cases hkb : compare k b.1 with
    | lt =>
      rw [hkb] at h
      cases h
    | eq =>
      rw [hkb] at h
      obtain rfl : b = a := Option.some.inj h
      refine ⟨[], rest, rfl, ?_⟩
      -- What comes after the entry comes after the key as well.
      cases rest with
      | nil => rfl
      | cons next more =>
        have hlt : compare k next.1 = .lt := by
          rw [hP.congr_left hk (ho.keys b List.mem_cons_self) (ho.keys next (by simp)) hkb]
          exact ho.head_lt next List.mem_cons_self
        simp [insertEntry, hlt]
    | gt =>
      rw [hkb] at h
      obtain ⟨before, after, rfl, hinsert⟩ := ih ho.tail h
      exact ⟨b :: before, after, rfl, by simp [insertEntry, hkb, hinsert]⟩

/-- In the table of that name the rows are patched, as the relation says of each and of what it has
become; all other rows, there and in other tables, are as they were, in the same order. -/
structure Tables.Patched (T : Tables) (n : String) (R : Row → Row → Prop) (rows : List Row)
    (T' : Tables) : Prop where
  known : ∀ x ∈ rows, T.Has n x
  table : ∃ t t', T.get? n = some t ∧ T'.get? n = some t' ∧ t'.definition = t.definition ∧
    List.Forall₂ (fun x y => (x ∈ rows → R x y) ∧ (x ∉ rows → y = x)) t.toList t'.toList
  others : ∀ m, m ≠ n → T'.get? m = T.get? m

namespace Tables.Patched
variable {T T' T'' : Tables} {n : String} {R R' : Row → Row → Prop} {rows : List Row} {x : Row}

theorem nil {t : Table} (ht : T.get? n = some t) : T.Patched n R [] T :=
  ⟨by simp, ⟨t, t, ht, ht, rfl, List.forall₂_same.2 fun _ _ => ⟨by simp, fun _ => rfl⟩⟩,
    fun _ _ => rfl⟩

theorem mono (h : T.Patched n R rows T') (hle : ∀ x y, R x y → R' x y) : T.Patched n R' rows T' := by
  obtain ⟨t, t', ht, ht', hdefinition, hrows⟩ := h.table
  have hrows' := hrows.imp fun x y h => And.intro (fun hx => hle x y (h.1 hx)) h.2
  exact ⟨h.known, ⟨t, t', ht, ht', hdefinition, hrows'⟩, h.others⟩

/-- The rows that are not patched stay. -/
theorem has (h : T.Patched n R rows T') (hx : T.Has n x) (hnot : x ∉ rows) : T'.Has n x := by
  obtain ⟨t, t', ht, ht', -, hrows⟩ := h.table
  obtain ⟨u, hu, hx⟩ := hx
  cases ht.symm.trans hu
  obtain ⟨y, hy, -, hsame⟩ := exists_of_forall₂_left hrows hx
  exact ⟨t', ht', hsame hnot ▸ hy⟩

/-- One row is patched and then others, none of which is what the first has become. -/
theorem cons (h : T.Patched n R [x] T') (h' : T'.Patched n R rows T'')
    (hknown : ∀ x' ∈ rows, T.Has n x') (hx : ∀ y, R x y → y ∉ rows) :
    T.Patched n R (x :: rows) T'' := by
  obtain ⟨t, t', ht, ht', hdefinition, hone⟩ := h.table
  obtain ⟨u, t'', hu, ht'', hdefinition', hrest⟩ := h'.table
  cases ht'.symm.trans hu
  refine ⟨List.forall_mem_cons.2 ⟨h.known x List.mem_cons_self, hknown⟩,
    ⟨t, t'', ht, ht'', hdefinition'.trans hdefinition, ?_⟩,
    fun m hm => (h'.others m hm).trans (h.others m hm)⟩
  refine (forall₂_trans hone hrest).imp fun a c hac => ?_
  obtain ⟨b, ⟨hfirst, hsame⟩, hlater, hstays⟩ := hac
  by_cases ha : a = x
  · subst ha
    have hb := hfirst List.mem_cons_self
    rw [hstays (hx b hb)]
    exact ⟨fun _ => hb, fun hnot => absurd List.mem_cons_self hnot⟩
  · obtain rfl : b = a := hsame (by simpa using ha)
    exact ⟨fun hmem => hlater ((List.mem_cons.1 hmem).resolve_left ha),
      fun hnot => hstays fun hmem => hnot (List.mem_cons_of_mem x hmem)⟩

end Tables.Patched

section
variable {κ : String → NumberClass} {t : Table} {x y : Row}

/-- A row that is put under the key of a row that is there takes its place. -/
theorem Table.Sorted.toList_restore (h : t.Sorted κ) (hx : x ∈ t.toList)
    (hkey : t.keyOf y = t.keyOf x) : ∃ before after, t.toList = before ++ x :: after ∧
      (t.restore (t.keyOf y) (some y)).toList = before ++ y :: after := by
  have hget : t.get? (t.keyOf x) = some x := h.get?_keyOf hx
  obtain ⟨a, ha, rfl⟩ := Option.map_eq_some_iff.1 hget
  obtain ⟨before, after, hentries, hinsert⟩ := insertEntry_eraseEntry
    (Key.compare_isLE_trans κ t.definition.keyPath) h.rows (h.fits _ hx) ha y
  refine ⟨before.map (·.2), after.map (·.2), ?_, ?_⟩
  · simp [Table.toList, SortedMap.values, hentries]
  · have hrows : (t.restore (t.keyOf a.2) (some y)).rows.entries =
        insertEntry (t.keyOf a.2) y (eraseEntry (t.keyOf a.2) t.rows.entries) := by
      simp [Table.restore, Table.remove, Table.store, SortedMap.insert, SortedMap.erase, hget]
    simp [Table.toList, SortedMap.values, hkey, hrows, hinsert]

theorem Transaction.Wrote.patched {tx tx' : Transaction} {T T' : Tables} {n : String}
    {R : Row → Row → Prop} (hw : tx.Wrote T n t (t.keyOf y) (some y) tx' T') (ht : t.Sorted κ)
    (hx : x ∈ t.toList) (hkey : t.keyOf y = t.keyOf x) (hR : R x y) : T.Patched n R [x] T' := by
  obtain ⟨before, after, hbefore, hafter⟩ := ht.toList_restore hx hkey
  -- No other row has the key, so each of the others is another row.
  have hdistinct := ht.pairwise_toList
  rw [hbefore, List.pairwise_append, List.pairwise_cons] at hdistinct
  obtain ⟨-, ⟨hlater, -⟩, hearlier⟩ := hdistinct
  have hother {z : Row} (hz : z ≠ x) : (z ∈ [x] → R z z) ∧ (z ∉ [x] → z = z) :=
    ⟨fun hmem => absurd (List.mem_singleton.1 hmem) hz, fun _ => rfl⟩
  have hrows : List.Forall₂ (fun z z' => (z ∈ [x] → R z z') ∧ (z ∉ [x] → z' = z)) t.toList
      (t.restore (t.keyOf y) (some y)).toList := by
    rw [hbefore, hafter]
    refine List.rel_append (List.forall₂_same.2 fun z hz => hother ?_)
      (.cons ⟨fun _ => hR, by simp⟩ (List.forall₂_same.2 fun z hz => hother ?_))
    · rintro rfl
      exact hearlier z hz z List.mem_cons_self Std.ReflOrd.compare_self
    · rintro rfl
      exact hlater z hz Std.ReflOrd.compare_self
  refine ⟨by simpa using ⟨t, hw.found, hx⟩,
    ⟨t, _, hw.found, ?_, Table.definition_restore, hrows⟩, fun m hm => ?_⟩
  · rw [hw.tables, get?_insert_self]
  · rw [hw.tables, get?_insert_of_ne (Ne.symm hm)]

end

/-! ### Rows that are updated -/

/-- The row has become another, at some time between two states of the supply, as the data say: under
the same key, with what the data make of its own old value in each field that they name, and with that
time in the other fields that have the time of the last write. Everything else in it is as it was. -/
structure Entity.Patches (e : Entity) (data : WriteData) (before after : Supply) (x y : Row) :
    Prop where
  key : e.keyOf y = e.keyOf x
  named : ∀ entry ∈ data.fields, ∃ f, e.field? entry.1 = some f ∧
    e.rewritten f data (x.value f.name) = .ok (y.value f.name)
  stamped : ∃ time, before.time ≤ time ∧ time < after.time ∧
    ∀ name ∈ e.stamps, name ∉ data.names → y.get? name = some (.datetime ⟨time, 0⟩)
  others : ∀ name, name ∉ data.names → name ∉ e.stamps → y.get? name = x.get? name

theorem Entity.Patches.mono {e : Entity} {data : WriteData} {a b c d : Supply} {x y : Row}
    (h : e.Patches data b c x y) (hab : a.time ≤ b.time) (hcd : c.time ≤ d.time) :
    e.Patches data a d x y := by
  obtain ⟨time, hb, hc, hstamped⟩ := h.stamped
  exact ⟨h.key, h.named, ⟨time, hab.trans hb, hc.trans_le hcd, hstamped⟩, h.others⟩

/-- The rows have been patched from one state of the work to another, in which the tables are sorted by
their keys again. -/
structure Work.Patched (w₀ : Work) (s : Schema) (e : Entity) (data : WriteData) (rows : List Row)
    (w : Work) : Prop where
  sorted : s.KeysInOrder w.tables
  time : w₀.supply.time ≤ w.supply.time
  rows : w₀.tables.Patched e.name (e.Patches data w₀.supply w.supply) rows w.tables

namespace Operation
variable {s : Schema} {e : Entity} {data : WriteData} {w₀ : Work} {x : Row}

/-- An update with no relation written to is done when the row is put back. -/
theorem update_of_plain (hplain : data.writesRelations = false) :
    update s e data x =
      (data.fields.foldlM (revise s e) ⟨x, []⟩ >>= fun v =>
        checkForeignKeys s e v.row v.written >>= fun _ => stamp e v >>= fun next =>
          discard (putRow e next) >>= fun _ => note e .update (e.keyOf x) >>= fun _ =>
            reread s e (e.keyOf x)) := by
  obtain ⟨fields⟩ := data
  simp only [update, createChildren_of_plain _ hplain, pure_bind]

section
variable (hs : s.Resolved) (he : s.entity? e.name = some e) (hids : ∀ f ∈ e.idFields, f ∉ e.stamps)
include hs he hids

/-- What is put back for a row that was edited. -/
theorem patches_of_edits {v : Revision} {next : Row} {before after : Supply}
    (hv : e.Edits data.fields ⟨x, []⟩ v)
    (hnext : ∀ name, next.get? name =
      if name ∈ e.stamps then some (if name ∈ v.written then v.row.value name
        else .datetime ⟨before.time, 0⟩)
      else v.row.get? name) (htime : before.time < after.time) :
    e.Patches data before after x next := by
  have hwritten (name : String) : name ∈ v.written ↔ name ∈ data.names := by
    simpa [WriteData.names] using hv.written name
  refine ⟨?_, fun entry hentry => ?_, ⟨before.time, le_rfl, htime, fun name hstamp hname => ?_⟩,
    fun name hname hstamp => ?_⟩
  · refine Eq.trans (Key.ofRow_congr fun f hf => ?_) (hv.keyOf hs he)
    rw [hnext, if_neg (hids f hf)]
  · obtain ⟨f, hf, -⟩ := hv.declared entry hentry
    have hname : f.name = entry.1 := by simpa using List.find?_some hf
    have hfield : e.field? f.name = some f := by rw [hname, hf]
    have hnamed : f.name ∈ v.written := (hwritten f.name).2 (hname ▸ List.mem_map_of_mem hentry)
    refine ⟨f, hf, (hv.values f hfield).trans (congrArg Except.ok ?_)⟩
    rw [Row.value, Row.value, hnext, if_pos hnamed]
    split <;> rfl
  · rw [hnext, if_pos hstamp, if_neg (mt (hwritten name).1 hname)]
  · rw [hnext, if_neg hstamp]
    exact hv.others name hname

theorem update_patches (hplain : data.writesRelations = false) (hsorted : s.KeysInOrder w₀.tables)
    (hx : w₀.tables.Has e.name x) :
    Ends w₀ (update s e data x) fun _ w => w₀.Patched s e data [x] w := by
  rw [update_of_plain hplain]
  refine Ends.bind (keeps_reviseAll _ s e hplain ⟨x, []⟩).ends fun v w hrevised => ?_
  obtain ⟨rfl, hv⟩ := hrevised
  refine Ends.bind (keeps_checkForeignKeys _ s e v.row v.written).ends fun _ w hchecked => ?_
  obtain ⟨rfl, -⟩ := hchecked
  refine Ends.bind (stamp_stamps e v) fun next w₁ hstamped => ?_
  obtain ⟨rfl, hnext⟩ := hstamped
  have hpatches : e.Patches data w.supply w.supply.now.2 x next :=
    patches_of_edits hs he hids hv hnext (Nat.lt_add_of_pos_right (by decide))
  refine Ends.bind (ends_putRow e next).discard fun _ w₂ hput => ?_
  refine Ends.bind (ends_note e .update (e.keyOf x)) fun _ w₃ hnote => ?_
  obtain ⟨key, hput, -, hsupply⟩ := hput
  obtain ⟨htables, -, hsupply'⟩ := hnote
  obtain ⟨t, hw, rfl, -⟩ := Transaction.put_ok hput
  obtain ⟨u, hu, hx⟩ := hx
  cases hw.found.symm.trans hu
  have ht := hsorted.sorted he hu
  have hkey : t.keyOf next = t.keyOf x := by
    rw [hsorted.keyOf he hu, hsorted.keyOf he hu, hpatches.key]
  have hfits : (t.keyOf next).Fits (s.classes e.name) e.idFields := by
    rw [hkey, ← hsorted.keyPath he hu]
    exact ht.fits x hx
  have hsupply : w₃.supply = w.supply.now.2 := hsupply'.trans hsupply
  have hpatched : w.Patched s e data [x] w₃ := by
    refine ⟨?_, ?_, ?_⟩
    · rw [htables]
      exact hsorted.wrote he hw hfits (by simp)
    · rw [hsupply]
      exact Nat.le_add_right _ _
    · rw [htables, hsupply]
      exact hw.patched ht hx hkey hpatches
  refine Ends.mono (keeps_reread _ e (e.keyOf x)).ends fun _ w₄ hw₄ => ?_
  rw [hw₄.1]
  exact hpatched

/-- Rows of distinct keys are updated one after the other. -/
theorem updateEach_patches (hplain : data.writesRelations = false) {rows : List Row}
    (hdistinct : rows.Pairwise fun x y => compare (e.keyOf x) (e.keyOf y) ≠ .eq)
    (hsorted : s.KeysInOrder w₀.tables) {t : Table} (ht : w₀.tables.get? e.name = some t)
    (hrows : ∀ x ∈ rows, w₀.tables.Has e.name x) :
    Ends w₀ (rows.forM fun row => discard (update s e data row)) fun _ w =>
      w₀.Patched s e data rows w := by
  induction rows generalizing w₀ t with
  | nil => exact Ends.pure ⟨hsorted, le_rfl, .nil ht⟩
  | cons x rest ih =>
    obtain ⟨hapart, hdistinct⟩ := List.pairwise_cons.1 hdistinct
    obtain ⟨hx, hrest⟩ := List.forall_mem_cons.1 hrows
    refine Ends.bind (update_patches hs he hids hplain hsorted hx).discard fun _ w h => ?_
    obtain ⟨-, h⟩ := h
    obtain ⟨_, u, -, hu, -, -⟩ := h.rows.table
    have hnext : ∀ x' ∈ rest, w.tables.Has e.name x' := by
      intro x' hx'
      refine h.rows.has (hrest x' hx') fun hmem => ?_
      obtain rfl := List.mem_singleton.1 hmem
      exact hapart _ hx' Std.ReflOrd.compare_self
    refine Ends.mono (ih hdistinct h.sorted hu hnext) fun _ w' h' => ?_
    -- What the first row has become has its key, which none of the others has.
    refine ⟨h'.sorted, h.time.trans h'.time, .cons (h.rows.mono fun _ _ hp => hp.mono le_rfl h'.time)
      (h'.rows.mono fun _ _ hp => hp.mono h.time le_rfl) hrest fun y hy hmem => ?_⟩
    have hapart := hapart y hmem
    rw [hy.key] at hapart
    exact hapart Std.ReflOrd.compare_self

/-- The rows that match are those of the tables before anything is written. -/
theorem updateMany_patches {q : Query} (hsorted : s.KeysInOrder w₀.tables) :
    Ends w₀ ((Request.updateMany q).operation s e) fun n w => ∃ data rows,
      requireData q = .ok data ∧
        View.matching ⟨s, w₀.tables, w₀.transaction⟩ e q.filter = .ok rows ∧ n = rows.length ∧
          w₀.Patched s e data rows w := by
  refine Ends.bind (ends_ofExcept _) fun data w h => ?_
  obtain ⟨rfl, hdata⟩ := h
  refine Triple.ite (fun _ => Triple.throw fun _ _ => trivial) fun hplain => ?_
  have hplain : data.writesRelations = false := by simpa using hplain
  refine Ends.bind (ends_look s _) fun rows w h => ?_
  obtain ⟨rfl, hrows⟩ := h
  -- The rows are a sublist of a table, so no two of them have one key.
  have hsublist := View.matching_sublist ⟨s, w.tables, w.transaction⟩ e q.filter
  rw [hrows] at hsublist
  obtain ⟨t, ht, hsublist⟩ := hsublist
  have ht := (Transaction.table_ok ht).2.2
  have hdistinct : rows.Pairwise fun x y => compare (e.keyOf x) (e.keyOf y) ≠ .eq := by
    simpa only [hsorted.keyOf he ht] using (hsorted.sorted he ht).pairwise_toList.sublist hsublist
  have heach := updateEach_patches hs he hids hplain hdistinct hsorted ht fun x hx =>
    ⟨t, ht, hsublist.subset hx⟩
  exact Ends.bind heach fun _ _ h => Ends.pure ⟨data, rows, hdata, hrows, rfl, h⟩

/-- The row that is updated is the one that the selector names. -/
theorem updateUnique_patches {q : Query} (hdata : requireData q = .ok data)
    (hplain : data.writesRelations = false) (hsorted : s.KeysInOrder w₀.tables) :
    Ends w₀ ((Request.update q).operation s e) fun _ w => ∃ selector x,
      requireSelector e q = .ok selector ∧
        View.findUnique ⟨s, w₀.tables, w₀.transaction⟩ e selector = .ok (some x) ∧
          w₀.Patched s e data [x] w := by
  refine Ends.bind (ends_ofExcept _) fun selector w h => ?_
  obtain ⟨rfl, hselector⟩ := h
  refine Ends.bind (ends_ofExcept _) fun data' w h => ?_
  obtain ⟨rfl, hdata'⟩ := h
  cases hdata.symm.trans hdata'
  refine Ends.bind (Keeps.ofExcept .any).ends fun _ w h => ?_
  obtain ⟨rfl, -⟩ := h
  refine Ends.bind (ends_look s _) fun x w h => ?_
  obtain ⟨rfl, hx⟩ := h
  have hx : View.findUnique ⟨s, w.tables, w.transaction⟩ e selector = .ok (some x) := by
    obtain ⟨found, hfound, hx⟩ := Except.bind_eq_ok.1 hx
    cases Option.elim_ok_eq_ok.1 hx
    exact hfound
  have hgives := (View.gives_has s w.tables w.transaction).findUnique e selector
  rw [hx] at hgives
  refine Ends.bind (update_patches hs he hids hplain hsorted (hgives x rfl)) fun y w' h => ?_
  refine Ends.mono (Keeps.look fun _ _ => .any).ends fun _ _ hw => ?_
  rw [hw.1]
  exact ⟨selector, x, hselector, hx, h⟩

end

end Operation

/-! ### The requests -/

/-- A request to update many rows, or one with data of its own fields, that is answered has changed the
rows that its query picked from the tables before, and no others: each is told by what it was, and the
answer to the first is how many there are. This needs that the tables are sorted by their keys and that
no field of the primary key has the time of the last write. -/
theorem Client.ask_update_patches {defs : List EntityDef} {s : Schema}
    (hs : Schema.ofDefs defs = .ok s) {c : Client} (hc : c.schema = s)
    (hsorted : s.KeysInOrder c.store.tables) {entity : String} {e : Entity}
    (he : s.entity? entity = some e) (hids : ∀ f ∈ e.idFields, f ∉ e.stamps) (q : Query)
    (tx : Option Nat) :
    let many := c.ask entity (.updateMany q) tx
    let one := c.ask entity (.update q) tx
    (∀ n, many.result = .ok n → ∃ data rows t, requireData q = .ok data ∧
      View.matching ⟨s, c.store.tables, t⟩ e q.filter = .ok rows ∧ n = rows.length ∧
      c.store.tables.Patched entity (e.Patches data c.supply many.client.supply) rows
        many.client.store.tables) ∧
    ∀ data, q.data = some (.one data) → data.writesRelations = false →
      ∀ record, one.result = .ok record → ∃ selector x t, requireSelector e q = .ok selector ∧
        View.findUnique ⟨s, c.store.tables, t⟩ e selector = .ok (some x) ∧
        c.store.tables.Patched entity (e.Patches data c.supply one.client.supply) [x]
          one.client.store.tables := by
  have hresolved := Schema.Resolved.ofDefs hs
  obtain rfl := hresolved.name he
  intro many one
  refine ⟨fun n hn => ?_, fun data hdata hplain record hrecord => ?_⟩
  · obtain ⟨e', t, w, he', hrun, -, hleft⟩ := ask_answered hn
    rw [hc] at he' hrun
    cases he.symm.trans he'
    obtain ⟨data, rows, hdata, hrows, hlength, hpatched⟩ :=
      Triple.of_run hrun (updateMany_patches hresolved he hids hsorted)
    refine ⟨data, rows, t, hdata, hrows, hlength, ?_⟩
    rw [hleft.tables, hleft.supply]
    exact hpatched.rows
  · obtain ⟨e', t, w, he', hrun, -, hleft⟩ := ask_answered hrecord
    rw [hc] at he' hrun
    cases he.symm.trans he'
    have hrequire : requireData q = .ok data := by rw [requireData, hdata]
    obtain ⟨selector, x, hselector, hx, hpatched⟩ :=
      Triple.of_run hrun (updateUnique_patches hresolved he hids hrequire hplain hsorted)
    refine ⟨selector, x, t, hselector, hx, ?_⟩
    rw [hleft.tables, hleft.supply]
    exact hpatched.rows

/-! ### A diary that is read -/

/-- One more tag for the entries with a title. -/
def Query.tagging (title tag : String) : Query where
  filter := some (Filter.whereEquals {} "title" (.string title))
  data := some (.one ⟨[("tags", .update (.push (.string tag)))]⟩)

/-- Another title for the entry with a number. -/
def Query.titling (id : Int) (title : String) : Query :=
  { Query.ofFields [("title", .string title)] with filter := (Query.ofId id).filter }

namespace Client

/-- Three entries, of which two have the same title. -/
def keepDiary : List Action :=
  [.ask "entry" (entry "Monday" []) none, .ask "entry" (entry "Tuesday" []) none,
   .ask "entry" (entry "Monday" [("tags", .array [.string "late"])]) none]

/-- The rows of a table have these values in a field, one after the other. -/
def Shows (c : Client) (table field : String) (values : List Value) : Prop :=
  compare (⟨(c.store.tables.rowsOf table).map (·.value field)⟩ : Key) ⟨values⟩ = .eq

instance (c : Client) (table field : String) (values : List Value) :
    Decidable (c.Shows table field values) := by
  unfold Shows
  infer_instance

/-- Of three entries the first and the last get one more tag each, or the second gets a title. -/
theorem ask_update_patches_diary : ∃ (c : Client) (e : Entity) (rows : List Row) (x : Row),
    Schema.ofDefs EntityDef.diary = .ok c.schema ∧ c.schema.KeysInOrder c.store.tables ∧
      c.schema.entity? "entry" = some e ∧ (∀ f ∈ e.idFields, f ∉ e.stamps) ∧
      c.Shows "entry" "tags" [.list [], .list [], .list [.string "late"]] ∧
      (let many := c.ask "entry" (.updateMany (.tagging "Monday" "read")) none
       many.result = .ok 2 ∧ rows.length = 2 ∧
         many.client.Shows "entry" "tags"
           [.list [.string "read"], .list [], .list [.string "late", .string "read"]] ∧
         c.store.tables.Patched "entry"
           (e.Patches ⟨[("tags", .update (.push (.string "read")))]⟩ c.supply many.client.supply)
           rows many.client.store.tables) ∧
      let one := c.ask "entry" (.update (.titling 2 "Sunday")) none
      (∃ record, one.result = .ok record) ∧
        one.client.Shows "entry" "title" [.string "Monday", .string "Sunday", .string "Monday"] ∧
        c.store.tables.Patched "entry"
          (e.Patches ⟨[("title", .literal (.string "Sunday"))]⟩ c.supply one.client.supply)
          [x] one.client.store.tables := by
  have hruns : (openMemory EntityDef.diary).toOption.any fun c₀ =>
      let c := keepDiary.foldl after c₀
      let many := c.ask "entry" (.updateMany (.tagging "Monday" "read")) none
      let one := c.ask "entry" (.update (.titling 2 "Sunday")) none
      c₀.schema.KeysOfKinds ∧
        ((c₀.schema.entity? "entry").any fun e => ∀ f ∈ e.idFields, f ∉ e.stamps) ∧
        c.Shows "entry" "tags" [.list [], .list [], .list [.string "late"]] ∧
        many.result.toOption = some 2 ∧
        many.client.Shows "entry" "tags"
           [.list [.string "read"], .list [], .list [.string "late", .string "read"]] ∧
        one.result.toOption.isSome ∧
        one.client.Shows "entry" "title" [.string "Monday", .string "Sunday", .string "Monday"] := by
    decide +kernel
  obtain ⟨c₀, hs, hc₀, hholds, hkinds, hentry, hbefore, hmany, htagged, hone, htitled⟩ :=
    exists_openMemory hruns
  obtain ⟨e, he, hids⟩ := (Option.any_eq_true _ _).1 hentry
  have hids := of_decide_eq_true hids
  have hregular : ∀ a ∈ keepDiary, a.Regular c₀.schema.classes c₀.store.tables := by
    intro a ha
    obtain rfl | rfl | rfl : a = _ ∨ a = _ ∨ a = _ := by simpa [keepDiary] using ha
    all_goals exact ⟨_, .inl .create⟩
  obtain ⟨hschema, hnow⟩ :=
    holds_foldl (Schema.Resolved.ofDefs hs) hkinds hc₀ hholds hregular
  have hsorted := hnow.keysInOrder
  have hmany := Except.toOption_eq_some.1 hmany
  obtain ⟨record, hrecord⟩ := Option.isSome_iff_exists.1 hone
  have hrecord := Except.toOption_eq_some.1 hrecord
  obtain ⟨data, rows, -, hdata, -, hlength, hpatched⟩ :=
    (ask_update_patches hs hschema hsorted he hids (.tagging "Monday" "read") none).1 2 hmany
  cases hdata
  obtain ⟨-, x, -, -, -, hpatchedOne⟩ := (ask_update_patches hs hschema hsorted he hids
    (.titling 2 "Sunday") none).2 _ rfl rfl record hrecord
  rw [← hschema] at hs hsorted he
  exact ⟨keepDiary.foldl after c₀, e, rows, x, hs, hsorted, he, hids, hbefore,
    ⟨hmany, hlength.symm, htagged, hpatched⟩, ⟨record, hrecord⟩, htitled, hpatchedOne⟩

end Client

/-- As many rows are there as before. -/
theorem Tables.Patched.length_rowsOf {T T' : Tables} {n : String} {R : Row → Row → Prop}
    {rows : List Row} (h : T.Patched n R rows T') : (T'.rowsOf n).length = (T.rowsOf n).length := by
  obtain ⟨t, t', ht, ht', -, hrows⟩ := h.table
  simpa [Tables.rowsOf, ht, ht'] using hrows.length_eq.symm

namespace Client

/-- Three items with notes and with numbers of three kinds, of which two are put past the engine. -/
def crowd : List Action :=
  [.ask "item" (.create (.ofFields [("id", .int (crowded + 1)), ("note", .string "whole")])) none,
   .begin ["item"] .readWrite,
   .put 2 "item" (SortedMap.ofList [("id", .bigint (crowded + 2)), ("note", .string "big")]),
   .put 2 "item" (SortedMap.ofList [("id", .decimal (.ofInt crowded)), ("note", .string "exact")]),
   .commit 2]

/-- Where numbers of different kinds are keys, the row that an update is put in place of need not be
the one that was read: two items are left of three, although one was to get another note. -/
theorem ask_update_patches_displaces : ∃ (c₀ : Client) (e : Entity),
    Schema.ofDefs EntityDef.items = .ok c₀.schema ∧ c₀.Opened c₀.schema ∧
      c₀.schema.entity? "item" = some e ∧ (∀ f ∈ e.idFields, f ∉ e.stamps) ∧
      let c := crowd.foldl after c₀
      let left := c.ask "item" (.updateMany { Query.ofFields [("note", .string "new")] with
        filter := some (Filter.whereEquals {} "note" (.string "big")) }) none
      left.result = .ok 1 ∧
        ∀ R rows, ¬ c.store.tables.Patched "item" R rows left.client.store.tables := by
  have hruns : (openMemory EntityDef.items).toOption.any fun c₀ =>
      let c := crowd.foldl after c₀
      let left := c.ask "item" (.updateMany { Query.ofFields [("note", .string "new")] with
        filter := some (Filter.whereEquals {} "note" (.string "big")) }) none
      ((c₀.schema.entity? "item").any fun e => ∀ f ∈ e.idFields, f ∉ e.stamps) ∧
        left.result.toOption = some 1 ∧ (c.store.tables.rowsOf "item").length = 3 ∧
          (left.client.store.tables.rowsOf "item").length = 2 := by
    decide +kernel
  obtain ⟨c₀, hs, hc₀, -, hitem, hdone, hbefore, hafter⟩ := exists_openMemory hruns
  obtain ⟨e, he, hids⟩ := (Option.any_eq_true _ _).1 hitem
  refine ⟨c₀, e, hs, hc₀, he, of_decide_eq_true hids, Except.toOption_eq_some.1 hdone,
    fun R rows hpatched => ?_⟩
  have hlength := hpatched.length_rowsOf
  rw [hbefore, hafter] at hlength
  cases hlength

end Client

end RelationalStore

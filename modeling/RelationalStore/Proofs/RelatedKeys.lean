import RelationalStore.Proofs.DeletionRequests
import RelationalStore.Proofs.LoadedRelations
import RelationalStore.Proofs.RegroupedCreations
import RelationalStore.Proofs.UpdatedRows

/- Which rows are related to which after an update of a row that writes to one of its to-many
   relations alone. The row is put back first, with nothing changed but the time of the write; then
   its write data let rows go, make some, connect some, and make more in a batch (`Schema.Rejoins`).
   What a client reads through the relation afterwards are the rows it read before, without those
   let go of and with those made and connected; through any other row it reads what it read before,
   without those connected (`Client.ask_relates`). -/
namespace RelationalStore
open SortedMap Read Operation

variable {s : Schema} {e target : Entity} {r : Relation}

/-! ### The write data of the relation -/

/-- The selectors of the rows that are to be let go of. -/
def NestedWrite.released (write : NestedWrite) : List Filter :=
  match write.disconnect with
  | some (.records selectors) => selectors
  | some (.flag _) => []
  | none => []

/-- What the write data of the relation did: its selectors found rows, those for the rows to be let go
of before any row was made and those for the rows to connect when the single rows had been made; rows
were made as planned; and the rows that reference the parent are now those that did, without the rows
let go of, and with the rows connected and made. -/
structure Schema.Rejoins (s : Schema) (e : Entity) (r : Relation) (target : Entity) (key : Key)
    (write : NestedWrite) (before : Tables) (released connected : List (Option Row))
    (created batch : List (String × Key)) (after : Tables) : Prop where
  finds_released : List.Forall₂ (s.Picks (s.Shifts e r target) before [] after target) write.released released
  finds_connected : List.Forall₂ (fun selector x =>
    s.Picks (s.Shifts e r target) before created after target selector x ∧ x.isSome)
      write.connect connected
  makes_created : Fulfils created (write.create.map fun _ => (target.name, false))
  makes_batch : Fulfils batch (s.batchCreations target write.createMany)
  regroups : s.Regroups e r target key before (target.foundKeys released)
    (target.foundKeys connected ∪ {k | (target.name, k) ∈ created ++ batch}) (created ++ batch) after

namespace Schema.Rejoins
variable {key : Key} {write : NestedWrite} {T T' T'' : Tables} {released connected : List (Option Row)}
  {created batch : List (String × Key)}

/-- Nothing was regrouped before. -/
theorem later (hs : s.Resolved) (hkey : s.ChildKey e r target)
    (h : s.Rejoins e r target key write T' released connected created batch T'')
    (h' : s.Regroups e r target key T ∅ ∅ [] T') :
    s.Rejoins e r target key write T released connected created batch T'' where
  finds_released := h.finds_released.imp fun _ _ hpick =>
    hpick.wider (hkey.steady hs) h'.retains h'.makes (.refl s _ T'')
  finds_connected := h.finds_connected.imp fun _ _ hpick =>
    ⟨hpick.1.wider (hkey.steady hs) h'.retains h'.makes (.refl s _ T''), hpick.2⟩
  makes_created := h.makes_created
  makes_batch := h.makes_batch
  regroups := by simpa using h'.trans hs hkey h.regroups (by simp)

end Schema.Rejoins

namespace Operation
variable {T : Tables} {key : Key}

section
variable (hs : s.Resolved) (hkey : s.ChildKey e r target)
  (hfits : key.Fits (s.classes e.name) r.near) (hpresent : key.hasNull = false)
  {parent : Row} (hparent : Key.ofRow r.near parent = key)
include hs hkey hfits hpresent hparent

/-- Let go of, made, connected, made in a batch: in this order. -/
theorem leaves_writeChildren (hT : s.Traces e r target T) {write : NestedWrite}
    (hplain : ∀ data ∈ write.create, data.writesRelations = false) :
    Leaves T (writeChildren s e r parent write) fun _ T' => ∃ released connected created batch,
      s.Rejoins e r target key write T released connected created batch T' := by
  obtain ⟨rows, selectors, refused, batch, disconnected⟩ := write
  have hsteady := hkey.steady hs
  rw [writeChildren]
  refine .after (still_ofExcept _) fun t ht => ?_
  obtain rfl : t = target := by
    have ht := Option.elim_ok_eq_ok.1 ht
    exact Option.some.inj (ht.symm.trans hkey.leads)
  refine .ite (fun _ => .throw) fun _ => ?_
  refine .bind (R := fun _ T₁ => ∃ found, List.Forall₂ (s.Picks (s.Shifts e r t) T [] T₁ t)
    (NestedWrite.released ⟨rows, selectors, refused, batch, disconnected⟩) found ∧
      s.Regroups e r t key T (t.foundKeys found) ∅ [] T₁) ?_ fun _ T₁ hfirst => ?_
  · have hnone : s.Regroups e r t key T (t.foundKeys []) ∅ [] T := by
      simpa [Entity.foundKeys] using Schema.Regroups.refl hT
    cases disconnected with
    | none => exact .pure ⟨[], .nil, hnone⟩
    | some d =>
      cases d with
      | records l => exact leaves_disconnect hs hkey hfits hpresent hparent l hT
      | flag on =>
        cases on with
        | false => exact .pure ⟨[], .nil, hnone⟩
        | true => exact .ite (fun _ => .throw) fun hone => absurd hkey.many hone
  obtain ⟨found, hfound, h₁⟩ := hfirst
  refine .bind (leaves_createAll hs hkey hfits hpresent hparent h₁.traces hplain) fun _ T₂ h => ?_
  obtain ⟨created, hcreated, h₂⟩ := h
  refine .bind (leaves_connectAll hs hkey hfits hparent selectors h₂.traces) fun _ T₃ h => ?_
  obtain ⟨joined, hjoined, h₃⟩ := h
  refine .mono (leaves_writeBatch hs hkey hfits hpresent hparent h₃.traces batch) fun _ T₄ h => ?_
  obtain ⟨made, hmade, h₄⟩ := h
  have h₁₂ := h₁.trans hs hkey h₂ (by simp)
  have h₃₄ := h₃.trans hs hkey h₄ (by simp)
  have hall := h₁₂.trans hs hkey h₃₄ (by simp)
  refine ⟨found, joined, created, made, ?_, ?_, hcreated, hmade, ?_⟩
  · refine hfound.imp fun _ _ hpick => ?_
    exact hpick.wider hsteady (.refl s _ T) (.nil s T) (h₂.retains.trans_steady hsteady h₃₄.retains)
  · refine hjoined.imp fun _ _ hpick => ⟨?_, hpick.2⟩
    simpa using hpick.1.wider hsteady h₁₂.retains h₁₂.makes h₄.retains
  · have hgone : t.foundKeys found ∪ ∅ ∪ (∅ ∪ ∅) = t.foundKeys found := by simp
    have hnew : ∅ ∪ {k | (t.name, k) ∈ created} ∪ (t.foundKeys joined ∪ {k | (t.name, k) ∈ made}) =
        t.foundKeys joined ∪ {k | (t.name, k) ∈ created ++ made} := by
      ext k
      simp only [Set.empty_union, Set.mem_union, Set.mem_ofPred_eq, List.mem_append]
      tauto
    rw [hgone, hnew] at hall
    simpa using hall

end

section
variable (hs : s.Resolved) (hkey : s.ChildKey e r target) (hnamed : e.Distinguishes)
  (hT : s.Traces e r target T)
include hs hkey hnamed

omit hs in
/-- Nothing is written to the row itself. -/
theorem still_reviseChildren (x : Row) (write : NestedWrite) :
    Still T (List.foldlM (revise s e) ⟨x, []⟩ [(r.name, .relation write)]) fun v => v = ⟨x, []⟩ := by
  obtain ⟨hrelation, hfield, -⟩ := hnamed r hkey.relation
  refine Keeps.bind ?_ fun v hv => Keeps.pure hv
  unfold revise
  simp only [hfield, Entity.requireRelation, hrelation, Option.elim_some]
  refine Keeps.bind (still_ofExcept _) fun r' hr' => ?_
  cases hr'
  simp only [hkey.isOwning, Bool.false_eq_true, if_false]
  exact Keeps.pure rfl

include hT

/-- The parent is put back as it was, but for the time of the write, before the rows that reference it
are written to. -/
theorem leaves_updateParent {x : Row} (hx : T.Has e.name x) {write : NestedWrite}
    (hplain : ∀ data ∈ write.create, data.writesRelations = false) :
    Leaves T (update s e ⟨[(r.name, .relation write)]⟩ x) fun _ T' =>
      ∃ released connected created batch,
        s.Rejoins e r target (Key.ofRow r.near x) write T released connected created batch T' := by
  obtain ⟨hrelation, hfield, -⟩ := hnamed r hkey.relation
  have hsteady := hkey.steady hs
  have hfits := hT.near_fits hkey hx
  have hpresent := hT.near_nonnull hkey hx
  unfold update
  refine .after (still_reviseChildren hkey hnamed x write) fun v hv => ?_
  subst hv
  refine .after (carries_checkForeignKeys (V := fun _ _ _ => True) hs ⟨fun _ _ _ _ _ _ _ => trivial,
    fun _ _ h => h⟩ _ _ _) fun _ _ => ?_
  refine .after (still_stamp e _) fun next hnext => ?_
  have hsame (f : String) (hf : f ∉ e.stamps) : next.value f = x.value f := hnext.value_eq hf
  refine .bind (R := fun _ T₁ => s.Regroups e r target (Key.ofRow r.near x) T ∅ ∅ [] T₁)
    (.bind (leaves_putRow fun tx key tx' T' hput => hT.put_parent hs hkey hx hsame hput _)
      fun _ T₁ h₁ => .pure h₁) fun _ T₁ h₁ => ?_
  refine .after (still_note e .update _) fun _ _ => ?_
  have hparent : Key.ofRow r.near next = Key.ofRow r.near x :=
    Key.ofRow_eq fun f hf => hsame f (hkey.parents f ((hkey.near f).1 hf))
  have hchildren := leaves_writeChildren hs hkey hfits hpresent hparent h₁.traces hplain
  refine .bind (R := fun _ T₂ => ∃ released connected created batch,
    s.Rejoins e r target (Key.ofRow r.near x) write T₁ released connected created batch T₂) ?_ fun _ T₂ h₂ => ?_
  · rw [createChildren, createChildren, createChild]
    refine .bind (.after (still_relationToWrite e r.name) fun r' hr' => ?_) fun _ _ h => .pure h
    obtain rfl : r' = r := Option.some.inj (hr'.2.symm.trans hrelation)
    simp only [hkey.isOwning, Bool.not_false, if_true]
    exact hchildren
  · obtain ⟨released, connected, created, batch, h₂⟩ := h₂
    have hall := h₂.later hs hkey h₁
    exact Triple.mono (still_reread s e _) (fun _ h => h) (fun _ w hw =>
      ⟨released, connected, created, batch, by rwa [hw.1]⟩) fun _ _ _ => trivial

end

end Operation

/-! ### What is read -/

/-- The primary keys of the rows that a relation joins to a row, as they are read. -/
def Schema.relatedKeys (s : Schema) (tables : Tables) (r : Relation) (target : Entity) (row : Row) :
    Set Key :=
  {k | ∃ tx rows, View.relatedRows ⟨s, tables, tx⟩ r row = .ok rows ∧ ∃ y ∈ rows, target.keyOf y = k}

/-- They are those of the rows that reference it. -/
theorem Schema.Traces.relatedKeys_eq (hs : s.Resolved) (hkey : s.ChildKey e r target) {tables : Tables}
    (h : s.Traces e r target tables) {row : Row}
    (hfits : (Key.ofRow r.near row).Fits (s.classes e.name) r.near)
    (hpresent : (Key.ofRow r.near row).hasNull = false) :
    s.relatedKeys tables r target row = tables.linked r target (Key.ofRow r.near row) := by
  have hrequire : s.require r.target = .ok target := Option.elim_ok_eq_ok.2 hkey.leads
  have hread (tx : Transaction) : View.relatedRows ⟨s, tables, tx⟩ r row =
      View.rowsWhere ⟨s, tables, tx⟩ target r.far (Key.ofRow r.near row) := by
    simp only [View.relatedRows, hpresent, Bool.false_eq_true, if_false, hrequire]
    rfl
  have hmem {tx : Transaction} {rows : List Row}
      (hrows : View.relatedRows ⟨s, tables, tx⟩ r row = .ok rows) {y : Row} :
      y ∈ rows ↔ tables.Has target.name y ∧
        compare (Key.ofRow r.far y) (Key.ofRow r.near row) = .eq :=
    h.children.mem_rowsWhere (hkey.far_ne hs) hkey.names ((hread tx).symm.trans hrows)
      (hkey.fits_far hs hfits) hpresent
  ext k
  constructor
  · intro hk
    obtain ⟨tx, rows, hrows, y, hy, rfl⟩ := hk
    obtain ⟨hy, href⟩ := (hmem hrows).1 hy
    exact ⟨y, hy, rfl, href⟩
  · intro hk
    obtain ⟨y, hy, rfl, href⟩ := hk
    obtain ⟨t, ht, -⟩ := id hy
    let tx : Transaction := ⟨0, .readOnly, [target.name], true, []⟩
    have htable : tx.table tables target.name = .ok t := by simp [tx, Transaction.table, ht]
    have hrows := (hread tx).trans (h.children.rowsWhere_eq (hkey.far_ne hs) hkey.names
      (hkey.fits_far hs hfits) hpresent htable)
    exact ⟨tx, _, hrows, y, (hmem hrows).2 ⟨hy, href⟩, rfl⟩

/-! ### Requests -/

/-- Between tables, of the rows that any row of the entity is related to, those of the row `x` have
changed as the write data say, and any other row has only lost some that were connected. -/
def Schema.Relates (s : Schema) (e : Entity) (r : Relation) (target : Entity) (x : Row)
    (released connected : Set Key) (made : List (String × Key)) (before after : Tables) : Prop :=
  ∀ p, before.Has e.name p ∨ after.Has e.name p → s.relatedKeys after r target p =
    if compare (e.keyOf p) (e.keyOf x) = .eq then
      (s.relatedKeys before r target p \ released) ∪ (connected ∪ {k | (target.name, k) ∈ made})
    else s.relatedKeys before r target p \ connected

/-- What is made was related to no row before. -/
theorem Schema.Rejoins.relates (hs : s.Resolved) (hkey : s.ChildKey e r target) {before after : Tables}
    (hbefore : s.Traces e r target before) {x : Row} (hx : before.Has e.name x) {write : NestedWrite}
    {released connected : List (Option Row)} {created batch : List (String × Key)}
    (h : s.Rejoins e r target (Key.ofRow r.near x) write before released connected created batch after) :
    s.Relates e r target x (target.foundKeys released) (target.foundKeys connected) (created ++ batch)
      before after := by
  intro p hp
  have hafter := h.regroups.traces
  obtain ⟨hpfits, hpresent⟩ : (Key.ofRow r.near p).Fits (s.classes e.name) r.near ∧
      (Key.ofRow r.near p).hasNull = false := by
    rcases hp with hp | hp
    · exact ⟨hbefore.near_fits hkey hp, hbefore.near_nonnull hkey hp⟩
    · exact ⟨hafter.near_fits hkey hp, hafter.near_nonnull hkey hp⟩
  rw [hbefore.relatedKeys_eq hs hkey hpfits hpresent, hafter.relatedKeys_eq hs hkey hpfits hpresent]
  split
  · next hsame =>
    have hlinked {tables : Tables} (ht : s.Traces e r target tables) :
        tables.linked r target (Key.ofRow r.near p) = tables.linked r target (Key.ofRow r.near x) :=
      ht.linked_congr hs hkey hpfits (hbefore.near_fits hkey hx) (hkey.compare_near.2 hsame)
    rw [hlinked hbefore, hlinked hafter, h.regroups.own]
  · next hother =>
    rw [h.regroups.others _ hpfits hpresent (mt hkey.compare_near.1 hother)]
    ext k
    simp only [Set.mem_sdiff, Set.mem_union, not_or, Set.mem_ofPred_eq, and_congr_right_iff,
      and_iff_left_iff_imp]
    intro hk _ hmade
    obtain ⟨y, hy, rfl, -⟩ := hk
    exact h.regroups.makes.fresh target (hkey.child hs) _ hmade y hy Std.ReflOrd.compare_self

theorem Operation.leaves_relate (hs : s.Resolved) (hkey : s.ChildKey e r target)
    (hnamed : e.Distinguishes) {T : Tables} (hT : s.Traces e r target T) {q : Query}
    {write : NestedWrite} (hdata : q.data = some (.one ⟨[(r.name, .relation write)]⟩))
    (hplain : ∀ data ∈ write.create, data.writesRelations = false) :
    Leaves T ((Request.update q).operation s e) fun _ T' => ∃ selector tx x,
      q.filter = some selector ∧ View.findUnique ⟨s, T, tx⟩ e selector = .ok (some x) ∧
        T.Has e.name x ∧ ∃ released connected created batch,
          s.Rejoins e r target (Key.ofRow r.near x) write T released connected created batch T' := by
  refine .after (still_ofExcept _) fun selector hselector => ?_
  refine .after (still_ofExcept _) fun data hdata' => ?_
  obtain rfl : data = ⟨[(r.name, .relation write)]⟩ := by
    rw [requireData, hdata] at hdata'
    exact (Except.ok.inj hdata').symm
  refine .after (still_ofExcept _) fun _ _ => ?_
  refine .after (still_look s _) fun x hx => ?_
  obtain ⟨tx, hx⟩ := hx
  obtain ⟨found, hfound, hx⟩ := Except.bind_eq_ok.1 hx
  cases Option.elim_ok_eq_ok.1 hx
  have hgives := (View.gives_has s T tx).findUnique e selector
  rw [hfound] at hgives
  have hhas : T.Has e.name x := hgives x rfl
  refine .bind (leaves_updateParent hs hkey hnamed hT hhas hplain) fun _ T' h => ?_
  refine Triple.mono (still_look s _) (fun _ h => h) (fun _ w hw => ?_) fun _ _ _ => trivial
  rw [hw.1]
  exact ⟨selector, tx, x, Option.elim_ok_eq_ok.1 hselector, hfound, hhas, h⟩

/-- A client in whose two tables rows can be found by their keys and by the foreign key: an update that
writes to the relation alone, and is answered, lets go of the rows that its selectors find, makes rows,
connects those that its other selectors find, and makes the rows of its batch; and what is related to
what has changed by this alone. -/
theorem Client.ask_relates {defs : List EntityDef} {s : Schema} (hs : Schema.ofDefs defs = .ok s)
    {e target : Entity} {r : Relation} (hkey : s.ChildKey e r target) {c : Client} (hc : c.schema = s)
    (htraces : s.Traces e r target c.store.tables) {q : Query} {write : NestedWrite}
    (hdata : q.data = some (.one ⟨[(r.name, .relation write)]⟩))
    (hplain : ∀ data ∈ write.create, data.writesRelations = false) (tx : Option Nat) {a : Record}
    (ha : (c.ask e.name (.update q) tx).result = .ok a) :
    let after := (c.ask e.name (.update q) tx).client.store.tables
    ∃ selector t x released connected created batch, q.filter = some selector ∧
      View.findUnique ⟨s, c.store.tables, t⟩ e selector = .ok (some x) ∧
      s.Rejoins e r target (Key.ofRow r.near x) write c.store.tables released connected created batch after ∧
      s.Relates e r target x (target.foundKeys released) (target.foundKeys connected) (created ++ batch)
        c.store.tables after := by
  have hresolved := Schema.Resolved.ofDefs hs
  intro after
  obtain ⟨e', t, w, he, hrun, hafter⟩ := ask_ok ha
  rw [hc] at he hrun
  obtain rfl : e = e' := Option.some.inj (hkey.entity.symm.trans he)
  have hleft := Operation.leaves_relate hresolved hkey (Schema.distinguishes_ofDefs hs he) htraces hdata
    hplain ⟨c.store.tables, t, c.supply, [], []⟩ rfl
  rw [hrun] at hleft
  obtain ⟨selector, t', x, hselector, hfound, hx, released, connected, created, batch, h⟩ := hleft
  rw [← hafter] at h
  exact ⟨selector, t', x, released, connected, created, batch, hselector, hfound, h,
    h.relates hresolved hkey htraces hx⟩

/-- Where only values of the declared kinds were written, rows can be found by all fields. -/
theorem Schema.Holds.traces {κ : String → String → NumberClass} {tables : Tables}
    (h : s.Holds κ tables) (hs : s.Resolved) (hkey : s.ChildKey e r target) :
    s.Traces e r target tables :=
  ⟨h.findsBy hkey.entity [], h.findsBy (hkey.child hs) r.far⟩

/-! ### Loans that change hands -/

/-- Lets go of loan 1, makes loan 3, takes over loan 2, and makes loans 3 and 4 if they are not there. -/
def Query.exchanging : Query where
  filter := (Query.ofId 1).filter
  data := some (.one ⟨[("loans", .relation {
    create := [⟨[("id", .literal (.int 3))]⟩]
    connect := [Filter.whereEquals {} "id" (.int 2)]
    createMany := some ⟨[⟨[("id", .literal (.int 3))]⟩, ⟨[("id", .literal (.int 4))]⟩], true⟩
    disconnect := some (.records [Filter.whereEquals {} "id" (.int 1)]) })]⟩)

/-- Lets go of loan 1. -/
def Query.returning (member : Int) : Query where
  filter := (Query.ofId member).filter
  data := some (.one ⟨[("loans", .relation {
    disconnect := some (.records [Filter.whereEquals {} "id" (.int 1)]) })]⟩)

/-- Places with two numbers, and pins whose one number is to be both. -/
def EntityDef.pinboard : List EntityDef :=
  [{ name := "place",
     fields := [{ name := "x", kind := .int, id := true }, { name := "y", kind := .int, id := true }],
     relations := [.many "pins" "pin"] },
   { name := "pin",
     fields := [{ name := "id", kind := .int, id := true }, { name := "at", kind := .int }],
     relations := [.owning "place" "place" ["at", "at"] ["x", "y"]] }]

/-- Connects pin 1 to place 1, 2. -/
def Query.pinning : Query where
  filter := some ((Filter.whereEquals {} "x" (.int 1)).whereEquals "y" (.int 2))
  data := some (.one ⟨[("pins", .relation { connect := [Filter.whereEquals {} "id" (.int 1)] })]⟩)

namespace Client

/-- Two members, each with a loan. -/
def lendEach : List Action :=
  [.ask "member" (.create (.ofFields [("id", .int 1)])) none,
   .ask "member" (.create (.ofFields [("id", .int 2)])) none,
   .ask "loan" (.create (.ofFields [("id", .int 1), ("memberId", .int 1)])) none,
   .ask "loan" (.create (.ofFields [("id", .int 2), ("memberId", .int 2)])) none]

/-- Two members whose numbers have the same nearest floating-point number, and a loan that is put past
the engine with that as its foreign key. -/
def lendBetween : List Action :=
  [.ask "member" (.create (.ofFields [("id", .int 9007199254740992)])) none,
   .ask "member" (.create (.ofFields [("id", .int 9007199254740993)])) none,
   .begin ["loan"] .readWrite,
   .put 3 "loan" (SortedMap.ofList [("id", .int 1),
     ("memberId", .float (.ofInt 9007199254740992))]),
   .commit 3]

/-- A place and a pin. -/
def pin : List Action :=
  [.ask "place" (.create (.ofFields [("x", .int 1), ("y", .int 2)])) none,
   .ask "pin" (.create (.ofFields [("id", .int 1)])) none]

/-- The keys of the rows that a relation joins to the row with some key, as they are written. -/
def relatedTexts (c : Client) (entity relation key : String) : List String :=
  (c.schema.entity? entity).toList.flatMap fun e => (e.relation? relation).toList.flatMap fun r =>
    (c.schema.entity? r.target).toList.flatMap fun target =>
      (c.store.tables.get? entity).toList.flatMap fun t =>
        (t.toList.filter fun row => (e.keyOf row).text == key).flatMap fun row =>
          (View.relatedRows ⟨c.schema, c.store.tables, ⟨0, .readOnly, [r.target], true, []⟩⟩ r
            row).toOption.toList.flatMap fun rows => rows.map fun y => (target.keyOf y).text

/-- Member 1 has loan 2 instead of loan 1, and two new ones; member 2 has none any more. -/
theorem ask_relates_exchanging : ∃ (c₀ : Client) (e target : Entity) (r : Relation),
    Schema.ofDefs EntityDef.lending = .ok c₀.schema ∧ c₀.Opened c₀.schema ∧ e.name = "member" ∧
      r.name = "loans" ∧ c₀.schema.ChildKey e r target ∧
      let c := lendEach.foldl after c₀
      let left := c.ask "member" (.update .exchanging) none
      c₀.schema.Traces e r target c.store.tables ∧ left.result.isOk = true ∧
        c.relatedTexts "member" "loans" "1" = ["1"] ∧ c.relatedTexts "member" "loans" "2" = ["2"] ∧
        left.client.relatedTexts "member" "loans" "1" = ["2", "3", "4"] ∧
        left.client.relatedTexts "member" "loans" "2" = [] ∧
        ∃ selector t x released connected made,
          View.findUnique ⟨c₀.schema, c.store.tables, t⟩ e selector = .ok (some x) ∧
            c₀.schema.Relates e r target x released connected made c.store.tables
              left.client.store.tables := by
  have hruns : (openMemory EntityDef.lending).toOption.any fun c₀ =>
      let c := lendEach.foldl after c₀
      let left := c.ask "member" (.update .exchanging) none
      c₀.schema.KeysOfKinds ∧ left.result.toOption.isSome ∧
        c.relatedTexts "member" "loans" "1" = ["1"] ∧ c.relatedTexts "member" "loans" "2" = ["2"] ∧
        left.client.relatedTexts "member" "loans" "1" = ["2", "3", "4"] ∧
        left.client.relatedTexts "member" "loans" "2" = [] ∧
        (c₀.schema.entity? "member").any fun e => (c₀.schema.entity? "loan").any fun target =>
          (e.relation? "loans").any fun r => r.isToMany = true ∧ r.target = "loan" ∧ r.near = e.idFields ∧
            (∀ p ∈ r.near.zip r.far,
              (e.field? p.1).map (·.kind) = (target.field? p.2).map (·.kind)) ∧
            r.far.Nodup ∧ (∀ f ∈ r.far, f ∉ target.idFields ∧ f ∉ target.stamps) ∧
            (∀ f ∈ e.idFields, f ∉ e.stamps) ∧ (∀ f ∈ target.idFields, f ∉ target.stamps) ∧
            (target.tableDef.indexes.map (·.name)).Nodup := by
    decide +kernel
  obtain ⟨c₀, hs, hc₀, hholds, hkinds, hdone, h₁, h₂, h₃, h₄, hfound⟩ := exists_openMemory hruns
  obtain ⟨e, he, hfound⟩ := (Option.any_eq_true _ _).1 hfound
  obtain ⟨target, ht, hfound⟩ := (Option.any_eq_true _ _).1 hfound
  obtain ⟨r, hr, hfound⟩ := (Option.any_eq_true _ _).1 hfound
  obtain ⟨hmany, htarget, hnear, hsame, hdistinct, hapart, hparents, hchildren, hnames⟩ :=
    of_decide_eq_true hfound
  have hresolved := Schema.Resolved.ofDefs hs
  have hname : e.name = "member" := hresolved.name he
  have hrelation : r.name = "loans" := by simpa using List.find?_some hr
  have hkey : c₀.schema.ChildKey e r target :=
    ⟨by rw [hname, he], List.mem_of_find?_eq_some hr, hmany, by rw [htarget, ht], by simp [hnear], hsame,
      hdistinct, hapart, hparents, hchildren, hnames⟩
  have hregular : ∀ a ∈ lendEach, a.Regular c₀.schema.classes c₀.store.tables := by
    intro a ha
    obtain rfl | rfl | rfl | rfl : a = _ ∨ a = _ ∨ a = _ ∨ a = _ := by simpa [lendEach] using ha
    all_goals exact ⟨_, .inl .create⟩
  obtain ⟨hschema, hnow⟩ := holds_foldl hresolved hkinds hc₀ hholds hregular
  have htraces := hnow.traces hresolved hkey
  obtain ⟨a, ha⟩ := Option.isSome_iff_exists.1 hdone
  have ha := Except.toOption_eq_some.1 ha
  obtain ⟨selector, t, x, released, connected, created, batch, -, hx, -, hrelates⟩ :=
    ask_relates hs hkey hschema htraces (q := .exchanging) (by rw [hrelation]; rfl)
      (by simp [WriteData.writesRelations]) none (by rw [hname]; exact ha)
  rw [hname] at hrelates
  exact ⟨c₀, e, target, r, hs, hc₀, hname, hrelation, hkey, htraces, by rw [ha]; rfl, h₁, h₂, h₃, h₄,
    selector, t, x, _, _, _, hx, hrelates⟩

/-- A key between those of two members references both, so that letting go of it takes it from the
other one too; and a key whose one field is to be two numbers does not reference the place that it is
connected to. -/
theorem ask_relates_misses :
    (∃ c₀ : Client, Schema.ofDefs EntityDef.lending = .ok c₀.schema ∧ c₀.Opened c₀.schema ∧
      let c := lendBetween.foldl after c₀
      let left := c.ask "member" (.update (.returning 9007199254740992)) none
      left.result.isOk = true ∧
        c.relatedTexts "member" "loans" "9007199254740993" = ["1"] ∧
        left.client.relatedTexts "member" "loans" "9007199254740993" = []) ∧
    ∃ c₀ : Client, Schema.ofDefs EntityDef.pinboard = .ok c₀.schema ∧ c₀.Opened c₀.schema ∧
      let c := pin.foldl after c₀
      let left := c.ask "place" (.update .pinning) none
      left.result.isOk = true ∧ left.client.keyTexts "pin" = ["1"] ∧
        left.client.relatedTexts "place" "pins" "1,2" = [] := by
  have hlent : (openMemory EntityDef.lending).toOption.any fun c₀ =>
      let c := lendBetween.foldl after c₀
      let left := c.ask "member" (.update (.returning 9007199254740992)) none
      left.result.isOk = true ∧ c.relatedTexts "member" "loans" "9007199254740993" = ["1"] ∧
        left.client.relatedTexts "member" "loans" "9007199254740993" = [] := by
    decide +kernel
  have hpinned : (openMemory EntityDef.pinboard).toOption.any fun c₀ =>
      let c := pin.foldl after c₀
      let left := c.ask "place" (.update .pinning) none
      left.result.isOk = true ∧ left.client.keyTexts "pin" = ["1"] ∧
        left.client.relatedTexts "place" "pins" "1,2" = [] := by
    decide +kernel
  obtain ⟨c₁, hs₁, hc₁, -, hlending⟩ := exists_openMemory hlent
  obtain ⟨c₂, hs₂, hc₂, -, hpinboard⟩ := exists_openMemory hpinned
  exact ⟨⟨c₁, hs₁, hc₁, hlending⟩, c₂, hs₂, hc₂, hpinboard⟩

end Client

end RelationalStore

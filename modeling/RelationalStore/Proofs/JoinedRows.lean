import RelationalStore.Proofs.ConformingRows
import RelationalStore.Proofs.LinkedRows
import RelationalStore.Proofs.MatchingRows
import RelationalStore.Proofs.RelatedKeys
import RelationalStore.Proofs.TracedRequests

/- Rows that are made for a parent or connected to one. Right after such a row is written it holds
   the parent's key, and whoever looks through the relation finds it (`Schema.Belongs`), provided
   that the parent's key has no null. One that has a null is copied as well; what is made is then an
   orphan that nobody finds, and what is connected gets a null even where it needs a value
   (`Client.ask_joins_orphans`). -/
namespace RelationalStore
open SortedMap Read

variable {s : Schema} {κ : String → String → NumberClass} {target : Entity} {r : Relation}
  {T T' : Tables} {parent row : Row}

/-- The row is there and has the key of the parent, no part of which is null; a look through the relation
finds it. -/
structure Schema.Belongs (s : Schema) (tables : Tables) (r : Relation) (target : Entity)
    (parent row : Row) : Prop where
  there : tables.Has target.name row
  key : Key.ofRow r.far row = Key.ofRow r.near parent
  present : ∀ f ∈ r.far, (row.value f).isNull = false
  related : ∀ tx all, View.rows ⟨s, tables, tx⟩ target = .ok all →
    ∃ rows, View.relatedRows ⟨s, tables, tx⟩ r parent = .ok rows ∧ row ∈ rows

/-- The link has the key of the parent. -/
theorem Schema.Held.ofRow_link (h : s.Held r target) (hs : s.Resolved) (hdistinct : r.far.Nodup)
    (parent : Row) : Key.ofRow r.far (r.childLink parent) = Key.ofRow r.near parent := by
  rw [← h.ofRow_childLink hs hdistinct parent ∅]
  refine Key.ofRow_eq fun f hf => (Relation.value_childLink ?_).symm
  exact (Relation.isSome_get?_childLink (h.length_far hs)).2 hf

/-- A row with the key of a parent that has no null. -/
theorem Schema.Holds.belongs (h : s.Holds κ T) (hheld : s.Held r target)
    (hnames : r.far = target.idFields ∨ (target.tableDef.indexes.map (·.name)).Nodup)
    (hrow : T.Has target.name row) (hkey : Key.ofRow r.far row = Key.ofRow r.near parent)
    (hpresent : (Key.ofRow r.near parent).hasNull = false) : s.Belongs T r target parent row where
  there := hrow
  key := hkey
  present := Key.hasNull_ofRow.1 (by rwa [hkey])
  related tx all hall := by
    have hfits : (Key.ofRow r.near parent).Fits (κ target.name) r.far := by
      rw [← hkey]
      exact (h.within hrow).fits.key
    -- The look goes by the index of the foreign key, whose rows are those of a look at every row.
    have hrequire : s.require r.target = .ok target :=
      Option.elim_ok_eq_ok.2 (by rw [← hheld.name, hheld.child])
    have hfound := h.rowsWhere_eq hheld.child hnames tx hfits hpresent
    rw [hall, Except.map] at hfound
    refine ⟨_, ?_, (h.mem_rowsWhere hheld.child hnames hfound hfits hpresent).2 ⟨hrow, ?_⟩⟩
    · simp only [View.relatedRows, hpresent, Bool.false_eq_true, if_false, hrequire]
      exact hfound
    · rw [hkey]
      exact Std.ReflOrd.compare_self

/-- What a write that joins a row to a parent has done: a row that is made for a parent has values where
it needs them; if the parent's key has no null, and the fields of the foreign key are distinct and have an
index that is told by its name, it belongs to the parent. So does a row that is connected, unless that
writes the time to its foreign key; apart from the key and such times it is as it was read. -/
structure Schema.Joins (s : Schema) (touch : Touch) (tables : Tables) : Prop where
  made : ∀ {target r parent row}, touch = .stored target (some (r, parent)) row →
    (∀ f ∈ r.far, ((target.field? f).any fun g => g.required || g.id) = true →
      (row.value f).isNull = false) ∧
    (r.far.Nodup → (r.far = target.idFields ∨ (target.tableDef.indexes.map (·.name)).Nodup) →
      (Key.ofRow r.near parent).hasNull = false → s.Belongs tables r target parent row)
  connected : ∀ {r target parent child}, touch = .connected r target parent child → r.far.Nodup →
    (r.far = target.idFields ∨ (target.tableDef.indexes.map (·.name)).Nodup) →
    (∀ f ∈ r.far, f ∉ target.stamps) → (Key.ofRow r.near parent).hasNull = false →
      ∃ row, s.Belongs tables r target parent row ∧
        ∀ f, f ∉ r.far → f ∉ target.stamps → row.value f = child.value f

/-- Every write of a trace does so. -/
theorem Schema.Wrote.joins {updating : Entity → Row → Prop} {touch : Touch} (hs : s.Resolved)
    (h : s.Wrote updating T touch T') (hT' : s.Holds κ T') : s.Joins touch T' where
  made {target r parent row} htouch := by
    subst htouch
    cases h with
    | stored he hstores _ hmade =>
      obtain ⟨hheld, hsame, hneeded⟩ := hmade _ rfl
      refine ⟨hneeded, fun hdistinct hnames hpresent => ?_⟩
      have hlink := hheld.ofRow_link hs hdistinct parent
      refine hT'.belongs hheld hnames hstores.has ?_ hpresent
      rw [← hlink] at hpresent ⊢
      exact Key.ofRow_eq fun f hf => hsame f (Key.hasNull_ofRow.1 hpresent f hf)
  connected {r target parent child} htouch hdistinct hnames hapart hpresent := by
    subst htouch
    cases h with
    | connected hrekeyed hlinked =>
      refine ⟨_, hT'.belongs hrekeyed.held hnames hrekeyed.stores.has ?_ hpresent, hrekeyed.same⟩
      rw [← hrekeyed.held.ofRow_link hs hdistinct parent]
      exact Key.ofRow_eq fun f hf => hlinked f hf (hapart f hf)

theorem Schema.Follows.joins {updating : Entity → Row → Prop} {trace : List (Touch × Tables)}
    (hs : s.Resolved) (h : s.Follows κ updating T trace T') : ∀ step ∈ trace, s.Joins step.1 step.2 := by
  induction h with
  | nil => simp
  | cons hfirst hnext _ ih => exact List.forall_mem_cons.2 ⟨hfirst.joins hs hnext, ih⟩

/-- Whatever was done with a client before: a creation or an update that it answers comes down to writes
that it makes one after the other, and each row that one of them makes for a parent, or connects to one,
belongs to it then. -/
theorem Client.ask_joins {defs : List EntityDef} {s : Schema} (hs : Schema.ofDefs defs = .ok s)
    (hkinds : s.KeysOfKinds) {c₀ : Client} (hc₀ : c₀.Opened s) {κ : String → String → NumberClass}
    (hholds : s.Holds κ c₀.store.tables) {before : List Action}
    (hbefore : ∀ a ∈ before, a.Regular κ c₀.store.tables) {e : Entity} (he : s.entity? e.name = some e)
    {q : Query} {α : Type} {request : Request α} (hrequest : request.Traced q) (tx : Option Nat)
    {a : α} :
    let c := before.foldl after c₀
    let left := c.ask e.name request tx
    left.result = .ok a →
      s.Follows κ (fun e' row => e' = e ∧ q.Selects s c.store.tables e row) c.store.tables
        (c.writes e request tx) left.client.store.tables ∧
      ∀ step ∈ c.writes e request tx, s.Joins step.1 step.2 := by
  intro c left ha
  have hresolved := Schema.Resolved.ofDefs hs
  obtain ⟨hschema, hnow⟩ := holds_foldl hresolved hkinds hc₀ hholds hbefore
  have hfollows := ask_follows hresolved hkinds hschema hnow he hrequest ha
  exact ⟨hfollows, hfollows.joins hresolved⟩

/-! ### A magazine -/

/-- Authors who may have an address, articles that may have that of their author, and drafts that must. -/
def EntityDef.magazine : List EntityDef :=
  [{ name := "author"
     fields := [{ name := "id", kind := .int, id := true },
       { name := "email", kind := .string, unique := true }]
     relations := [.many "articles" "article", .many "drafts" "draft"] },
   { name := "article"
     fields := [{ name := "id", kind := .int, id := true }, { name := "authorEmail", kind := .string }]
     relations := [.owning "author" "author" ["authorEmail"] ["email"]] },
   { name := "draft"
     fields := [{ name := "id", kind := .int, id := true },
       { name := "authorEmail", kind := .string, required := true }]
     relations := [.owning "author" "author" ["authorEmail"] ["email"]] }]

/-- Makes article 2 for an author, takes over article 1, and makes article 3. -/
def Query.collecting (author : Int) : Query where
  filter := (Query.ofId author).filter
  data := some (.one ⟨[("articles", .relation {
    create := [⟨[("id", .literal (.int 2))]⟩]
    connect := [Filter.whereEquals {} "id" (.int 1)]
    createMany := some ⟨[⟨[("id", .literal (.int 3))]⟩], false⟩ })]⟩)

namespace Client

/-- An author with an address and one without, an article of nobody and a draft of the first. -/
def gather : List Action :=
  [.ask "author" (.create (.ofFields [("id", .int 1), ("email", .string "a")])) none,
   .ask "author" (.create (.ofFields [("id", .int 2)])) none,
   .ask "article" (.create (.ofFields [("id", .int 1)])) none,
   .ask "draft" (.create (.ofFields [("id", .int 1), ("authorEmail", .string "a")])) none]

/-- The author with an address gets all three articles. -/
theorem ask_joins_collecting : ∃ (c₀ : Client) (e : Entity),
    Schema.ofDefs EntityDef.magazine = .ok c₀.schema ∧ c₀.Opened c₀.schema ∧ e.name = "author" ∧
      let c := gather.foldl after c₀
      let left := c.ask "author" (.update (.collecting 1)) none
      let writes := c.writes e (.update (.collecting 1)) none
      left.result.isOk = true ∧ c.relatedTexts "author" "articles" "1" = [] ∧
        left.client.relatedTexts "author" "articles" "1" = ["1", "2", "3"] ∧
        writes.map (·.1.entity.name) = ["author", "article", "article", "article"] ∧
        c₀.schema.Follows c₀.schema.classes
          (fun e' row => e' = e ∧ (Query.collecting 1).Selects c₀.schema c.store.tables e row)
          c.store.tables writes left.client.store.tables ∧
        ∀ step ∈ writes, c₀.schema.Joins step.1 step.2 := by
  have hruns : (openMemory EntityDef.magazine).toOption.any fun c₀ =>
      let c := gather.foldl after c₀
      let left := c.ask "author" (.update (.collecting 1)) none
      c₀.schema.KeysOfKinds ∧ left.result.toOption.isSome ∧
        c.relatedTexts "author" "articles" "1" = [] ∧
        left.client.relatedTexts "author" "articles" "1" = ["1", "2", "3"] ∧
        (c₀.schema.entity? "author").any fun e =>
          (c.writes e (.update (.collecting 1)) none).map (·.1.entity.name) =
            ["author", "article", "article", "article"] := by
    decide +kernel
  obtain ⟨c₀, hs, hc₀, hholds, hkinds, hdone, hfew, hmany, hfound⟩ := exists_openMemory hruns
  obtain ⟨e, he, hwrites⟩ := (Option.any_eq_true _ _).1 hfound
  have hname : e.name = "author" := (Schema.Resolved.ofDefs hs).name he
  have hregular : ∀ a ∈ gather, a.Regular c₀.schema.classes c₀.store.tables := by
    intro a ha
    obtain rfl | rfl | rfl | rfl : a = _ ∨ a = _ ∨ a = _ ∨ a = _ := by simpa [gather] using ha
    all_goals exact ⟨_, .inl .create⟩
  obtain ⟨a, ha⟩ := Option.isSome_iff_exists.1 hdone
  have ha := Except.toOption_eq_some.1 ha
  obtain ⟨hfollows, hjoins⟩ := ask_joins hs hkinds hc₀ hholds hregular (by rw [hname, he])
    (Request.Traced.update (q := .collecting 1)) none (by rw [hname]; exact ha)
  rw [hname] at hfollows
  exact ⟨c₀, e, hs, hc₀, hname, by rw [ha]; rfl, hfew, hmany, of_decide_eq_true hwrites, hfollows, hjoins⟩

/-- What is made for the author without an address is not among that author's articles afterwards; and
a draft that is connected to that author has no address any more, which it must have. -/
theorem ask_joins_orphans : ∃ c₀ : Client,
    Schema.ofDefs EntityDef.magazine = .ok c₀.schema ∧ c₀.Opened c₀.schema ∧
      let c := gather.foldl after c₀
      let made := c.ask "author" (.update (.collecting 2)) none
      let connected := c.ask "author" (.update (.connecting 2 "drafts" 1)) none
      made.result.isOk = true ∧ made.client.keyTexts "article" = ["1", "2", "3"] ∧
        made.client.relatedTexts "author" "articles" "2" = [] ∧
        connected.result.isOk = true ∧
        (connected.client.strays "draft").map (fun row => (row.value "authorEmail").isNull) = [true] := by
  have hruns : (openMemory EntityDef.magazine).toOption.any fun c₀ =>
      let c := gather.foldl after c₀
      let made := c.ask "author" (.update (.collecting 2)) none
      let connected := c.ask "author" (.update (.connecting 2 "drafts" 1)) none
      made.result.isOk = true ∧ made.client.keyTexts "article" = ["1", "2", "3"] ∧
        made.client.relatedTexts "author" "articles" "2" = [] ∧
        connected.result.isOk = true ∧
        (connected.client.strays "draft").map
          (fun row => (row.value "authorEmail").isNull) = [true] := by
    decide +kernel
  obtain ⟨c₀, hs, hc₀, -, hfound⟩ := exists_openMemory hruns
  exact ⟨c₀, hs, hc₀, hfound⟩

end Client

end RelationalStore

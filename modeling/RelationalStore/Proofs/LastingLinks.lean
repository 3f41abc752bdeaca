import RelationalStore.Proofs.RelatedKeys
import RelationalStore.Proofs.TracedRequests
import RelationalStore.Proofs.UniqueSelectors

/- Rows that are connected in the course of an update. What connects a row gives it a foreign key;
   the writes that come later leave that alone, unless one is to the same fields of the same row
   (`Schema.Follows.hasLink`). So the key is still there when the update is done
   (`Client.ask_update_keeps_links`), but not in the updated row itself: that was read before the
   rows that it references were made, and is put back as it was read
   (`Client.ask_update_loses_links`). -/
namespace RelationalStore
open SortedMap Read

/-- The row with the key of the child has the foreign key that connects it to the parent, times of the
last write apart. -/
def Tables.HasLink (tables : Tables) (r : Relation) (target : Entity) (parent child : Row) : Prop :=
  ∃ row, tables.Has target.name row ∧ target.keyOf row = target.keyOf child ∧
    ∀ f ∈ r.far, f ∉ target.stamps → row.value f = (r.childLink parent).value f

/-- The write connects the row with that key, or lets go of it, through the relation or one that has a
field of the foreign key in common with it. -/
def Touch.Relinks (r : Relation) (target : Entity) (child : Row) : Touch → Prop
  | .connected r' target' _ child' | .released r' target' child' =>
    target'.name = target.name ∧ compare (target'.keyOf child') (target.keyOf child) = .eq ∧
      ∃ f ∈ r.far, f ∈ r'.far
  | .stored .. | .updated .. => False

instance (r : Relation) (target : Entity) (child : Row) (touch : Touch) :
    Decidable (touch.Relinks r target child) := by
  cases touch <;> unfold Touch.Relinks <;> infer_instance

variable {s : Schema} {κ : String → String → NumberClass} {updating : Entity → Row → Prop}
  {target : Entity} {r : Relation} {parent child : Row} {T T' : Tables}

/-- A write under another key leaves the row there. -/
theorem Tables.HasLink.stores (h : T.HasLink r target parent child) {e : Entity} {next : Row}
    (hstores : e.Stores next T T') (hapart : ∀ row, T.Has target.name row →
      target.keyOf row = target.keyOf child → target.name = e.name →
        compare (e.keyOf next) (e.keyOf row) ≠ .eq) : T'.HasLink r target parent child := by
  obtain ⟨row, hrow, hkey, hvalues⟩ := h
  exact ⟨row, (hstores _ _).2 (.inr ⟨hrow, hapart row hrow hkey⟩), hkey, hvalues⟩

section
variable (hs : s.Resolved) (ht : s.entity? target.name = some target) (halone : target.KeyAlone)
include hs ht halone

/-- Another foreign key of some row: either the row has another key, or the relation has no field in
common, and then the row is put back with the values that it has. -/
theorem Schema.Rekeyed.hasLink {r' : Relation} {target' : Entity} {child' next : Row}
    (h : s.Rekeyed r' target' child' next T T') (hT : s.Holds κ T)
    (hlink : T.HasLink r target parent child)
    (hlater : ¬ (target'.name = target.name ∧
      compare (target'.keyOf child') (target.keyOf child) = .eq ∧ ∃ f ∈ r.far, f ∈ r'.far)) :
    T'.HasLink r target parent child := by
  by_cases hname : target'.name = target.name
  · obtain rfl : target' = target := entity_inj h.held.child ht hname
    have hnext := h.keyOf hs halone
    by_cases hsame : compare (target'.keyOf child') (target'.keyOf child) = .eq
    · -- The row that was read may be an older one, but what is there now differs from it in `r'.far` only.
      obtain ⟨row, hrow, hkey, hvalues⟩ := hlink
      obtain ⟨current, hcurrent, hcurrentKey, hkept⟩ := h.current halone
      obtain rfl : current = row :=
        hT.eq_of_keyOf ht hcurrent hrow (by rw [hcurrentKey, hkey]; exact hsame)
      refine ⟨next, h.stores.has, by rw [hnext, ← hcurrentKey, hkey], fun f hf hstamp => ?_⟩
      have hfar : f ∉ r'.far := fun hfar => hlater ⟨rfl, hsame, f, hf, hfar⟩
      calc next.value f = child'.value f := h.same f hfar hstamp
        _ = current.value f := (hkept f hfar hstamp).symm
        _ = (r.childLink parent).value f := hvalues f hf hstamp
    · exact hlink.stores h.stores fun row _ hkey _ => by rwa [hnext, hkey]
  · exact hlink.stores h.stores fun row _ _ h => absurd h.symm hname

/-- One write, by what it writes. -/
theorem Schema.Wrote.hasLink {touch : Touch} (h : s.Wrote updating T touch T') (hT : s.Holds κ T)
    (hlink : T.HasLink r target parent child) (hlater : ¬ touch.Relinks r target child)
    (hother : ∀ e x, updating e x → e.name = target.name →
      compare (e.keyOf x) (target.keyOf child) ≠ .eq) : T'.HasLink r target parent child := by
  cases h with
  | stored he hstores hnew _ =>
    exact hlink.stores hstores fun row hrow _ hname => hnew row (by rwa [← hname])
  | connected hrekeyed _ => exact hrekeyed.hasLink hs ht halone hT hlink hlater
  | released hrekeyed => exact hrekeyed.hasLink hs ht halone hT hlink hlater
  | @updated e x next _ he hgiven hstores hkey =>
    refine hlink.stores hstores fun row hrow hrowKey hname => ?_
    obtain rfl : e = target := entity_inj he ht hname.symm
    rw [hkey halone, hrowKey]
    exact hother e x hgiven rfl

/-- A run of writes, by induction on the trace. -/
theorem Schema.Follows.hasLink {trace : List (Touch × Tables)}
    (h : s.Follows κ updating T trace T') (hT : s.Holds κ T) (hlink : T.HasLink r target parent child)
    (hlater : ∀ step ∈ trace, ¬ step.1.Relinks r target child)
    (hother : ∀ e x, updating e x → e.name = target.name →
      compare (e.keyOf x) (target.keyOf child) ≠ .eq) : T'.HasLink r target parent child := by
  induction h with
  | nil => exact hlink
  | cons hfirst hnext _ ih =>
    rw [List.forall_mem_cons] at hlater
    exact ih hnext (hfirst.hasLink hs ht halone hT hlink hlater.1 hother) hlater.2

end

/-- Right after a row is connected it has the key. -/
theorem Schema.Wrote.hasLink_connected (hs : s.Resolved) (halone : target.KeyAlone)
    (h : s.Wrote updating T (.connected r target parent child) T') :
    T'.HasLink r target parent child := by
  cases h with
  | connected hrekeyed hlinked =>
    exact ⟨_, hrekeyed.stores.has, hrekeyed.keyOf hs halone, hlinked⟩

/-- Whatever was done with a client before: a row that is connected in the course of an update has the
foreign key that it got when the update is done, if it is not connected or let go of through the same
fields again, and is not the row that is updated. -/
theorem Client.ask_update_keeps_links {defs : List EntityDef} {s : Schema}
    (hs : Schema.ofDefs defs = .ok s) (hkinds : s.KeysOfKinds) {c₀ : Client} (hc₀ : c₀.Opened s)
    {κ : String → String → NumberClass} (hholds : s.Holds κ c₀.store.tables) {before : List Action}
    (hbefore : ∀ a ∈ before, a.Regular κ c₀.store.tables) {e : Entity} (he : s.entity? e.name = some e)
    {q : Query} {tx : Option Nat} {a : Record} {earlier later : List (Touch × Tables)} {linked : Tables}
    (halone : target.KeyAlone) :
    let c := before.foldl after c₀
    let left := c.ask e.name (.update q) tx
    left.result = .ok a →
    c.writes e (.update q) tx = earlier ++ (.connected r target parent child, linked) :: later →
    (∀ step ∈ later, ¬ step.1.Relinks r target child) →
    (∀ x, q.Selects s c.store.tables e x → e.name = target.name →
      compare (e.keyOf x) (target.keyOf child) ≠ .eq) →
    left.client.store.tables.HasLink r target parent child := by
  intro c left ha htrace hlater hother
  have hresolved := Schema.Resolved.ofDefs hs
  obtain ⟨hschema, hnow⟩ := holds_foldl hresolved hkinds hc₀ hholds hbefore
  have hfollows := ask_follows hresolved hkinds hschema hnow he .update ha
  rw [htrace] at hfollows
  obtain ⟨_, _, hconnected, hlinked, hmore⟩ := hfollows.split hnow
  have ht : s.entity? target.name = some target := by
    cases hconnected with
    | connected hrekeyed _ => exact hrekeyed.held.child
  refine hmore.hasLink hresolved ht halone hlinked (hconnected.hasLink_connected hresolved halone)
    hlater ?_
  rintro e' x ⟨rfl, hx⟩
  exact hother x hx

/-! ### A league -/

/-- Players, each with a club and a favourite club. -/
def EntityDef.league : List EntityDef :=
  [{ name := "club"
     fields := [{ name := "id", kind := .int, id := true }]
     relations := [{ RelationDef.many "players" "player" with opposite := some "club" },
       { RelationDef.many "fans" "player" with opposite := some "favourite" }] },
   { name := "player"
     fields := [{ name := "id", kind := .int, id := true }, { name := "clubId", kind := .int },
       { name := "favouriteId", kind := .int }]
     relations := [.owning "club" "club" ["clubId"] ["id"],
       .owning "favourite" "club" ["favouriteId"] ["id"]] }]

/-- Player 1 gets a new club, of which another player is to be a fan. -/
def Query.founding (fan : Int) : Query where
  filter := (Query.ofId 1).filter
  data := some (.one ⟨[("club", .relation { create := [⟨[("id", .literal (.int 10)),
    ("fans", .relation { connect := [Filter.whereEquals {} "id" (.int fan)] })]⟩] })]⟩)

namespace Client

/-- Two players. -/
def enroll : List Action :=
  [.ask "player" (.create (.ofFields [("id", .int 1)])) none,
   .ask "player" (.create (.ofFields [("id", .int 2)])) none]

/-- The other player is a fan of the new club. -/
theorem ask_update_keeps_links_league : ∃ (c₀ : Client) (e target : Entity) (r : Relation)
    (parent child : Row) (linked : Tables) (earlier later : List (Touch × Tables)),
    Schema.ofDefs EntityDef.league = .ok c₀.schema ∧ c₀.Opened c₀.schema ∧ e.name = "player" ∧
      target.KeyAlone ∧ target.name = "player" ∧ r.name = "fans" ∧ (target.keyOf child).text = "2" ∧
      let c := enroll.foldl after c₀
      let left := c.ask "player" (.update (.founding 2)) none
      left.result.isOk = true ∧
        c.writes e (.update (.founding 2)) none =
          earlier ++ (.connected r target parent child, linked) :: later ∧
        (∀ step ∈ later, ¬ step.1.Relinks r target child) ∧
        (∀ x, (Query.founding 2).Selects c₀.schema c.store.tables e x →
          compare (e.keyOf x) (target.keyOf child) ≠ .eq) ∧
        left.client.relatedTexts "club" "fans" "10" = ["2"] ∧
        left.client.store.tables.HasLink r target parent child := by
  have hruns : (openMemory EntityDef.league).toOption.any fun c₀ =>
      let c := enroll.foldl after c₀
      let left := c.ask "player" (.update (.founding 2)) none
      c₀.schema.KeysOfKinds ∧ left.result.toOption.isSome ∧
        left.client.relatedTexts "club" "fans" "10" = ["2"] ∧
        (c₀.schema.entity? "player").any fun e =>
          let writes := c.writes e (.update (.founding 2)) none
          writes[1]?.any fun step =>
            match step.1 with
            | .connected r target _ child => decide (target.KeyAlone ∧ target.name = "player" ∧
                r.name = "fans" ∧ (target.keyOf child).text = "2" ∧
                (∀ step ∈ writes.drop 2, ¬ step.1.Relinks r target child) ∧
                (e.fixedBy (Filter.whereEquals {} "id" (.int 1))).toOption.any fun fixed =>
                  e.selectedGroup? fixed = some e.idFields ∧
                    (c.store.tables.get? "player").all fun t => ∀ x ∈ t.toList,
                      compare (Key.ofRow e.idFields fixed) (e.keyOf x) = .eq →
                        compare (e.keyOf x) (target.keyOf child) ≠ .eq)
            | _ => false := by
    decide +kernel
  obtain ⟨c₀, hs, hc₀, hholds, hkinds, hdone, hfans, hfound⟩ := exists_openMemory hruns
  obtain ⟨e, he, hfound⟩ := (Option.any_eq_true _ _).1 hfound
  obtain ⟨⟨touch, linked⟩, hstep, hfound⟩ := (Option.any_eq_true _ _).1 hfound
  cases touch with
  | stored _ _ _ => cases hfound
  | released _ _ _ => cases hfound
  | updated _ _ => cases hfound
  | connected r target parent child =>
    obtain ⟨halone, htarget, hr, hchild, hlater, hfound⟩ := of_decide_eq_true hfound
    obtain ⟨fixed, hfixed, hfound⟩ := (Option.any_eq_true _ _).1 hfound
    obtain ⟨hselected, hapart⟩ := of_decide_eq_true hfound
    have hresolved := Schema.Resolved.ofDefs hs
    have hname : e.name = "player" := hresolved.name he
    have hentity : c₀.schema.entity? e.name = some e := by rw [hname, he]
    have hregular : ∀ a ∈ enroll, a.Regular c₀.schema.classes c₀.store.tables := by
      intro a ha
      obtain rfl | rfl : a = _ ∨ a = _ := by simpa [enroll] using ha
      all_goals exact ⟨_, .inl .create⟩
    obtain ⟨-, hnow⟩ := holds_foldl hresolved hkinds hc₀ hholds hregular
    have hother : ∀ x, (Query.founding 2).Selects c₀.schema (enroll.foldl after c₀).store.tables e x →
        compare (e.keyOf x) (target.keyOf child) ≠ .eq := by
      rintro x ⟨f, t, hf, hx⟩
      cases hf
      obtain ⟨⟨table, htable, hrow⟩, hkey⟩ :=
        hnow.has_selected hresolved hentity (Except.toOption_eq_some.1 hfixed) hselected hx
      rw [hname] at htable
      exact of_decide_eq_true (Option.all_eq_true _ _ |>.1 hapart table htable) x hrow hkey
    obtain ⟨a, ha⟩ := Option.isSome_iff_exists.1 hdone
    have ha := Except.toOption_eq_some.1 ha
    obtain ⟨hlong, hstep⟩ := List.getElem?_eq_some_iff.1 hstep
    have hwrites := List.take_append_drop 1
      ((enroll.foldl after c₀).writes e (.update (.founding 2)) none)
    rw [List.drop_eq_getElem_cons hlong, hstep] at hwrites
    have hlink := ask_update_keeps_links hs hkinds hc₀ hholds hregular hentity halone
      (by rw [hname]; exact ha) hwrites.symm hlater fun x hx _ => hother x hx
    rw [hname] at hlink
    exact ⟨c₀, e, target, r, parent, child, linked, _, _, hs, hc₀, hname, halone, htarget, hr, hchild,
      by rw [ha]; rfl, hwrites.symm, hlater, hother, hfans, hlink⟩

/-- Player 1 plays for the new club, but is no fan of it after the update that was to make him one. -/
theorem ask_update_loses_links : ∃ c₀ : Client,
    Schema.ofDefs EntityDef.league = .ok c₀.schema ∧ c₀.Opened c₀.schema ∧
      let c := enroll.foldl after c₀
      let left := c.ask "player" (.update (.founding 1)) none
      left.result.isOk = true ∧ left.client.relatedTexts "club" "players" "10" = ["1"] ∧
        left.client.relatedTexts "club" "fans" "10" = [] := by
  have hruns : (openMemory EntityDef.league).toOption.any fun c₀ =>
      let c := enroll.foldl after c₀
      let left := c.ask "player" (.update (.founding 1)) none
      left.result.isOk = true ∧ left.client.relatedTexts "club" "players" "10" = ["1"] ∧
        left.client.relatedTexts "club" "fans" "10" = [] := by
    decide +kernel
  obtain ⟨c₀, hs, hc₀, -, hfound⟩ := exists_openMemory hruns
  exact ⟨c₀, hs, hc₀, hfound⟩

end Client

end RelationalStore

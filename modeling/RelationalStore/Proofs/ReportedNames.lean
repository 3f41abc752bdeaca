import RelationalStore.Proofs.GainedRows
import RelationalStore.Proofs.GreedyBatches
import RelationalStore.Proofs.MendedQueries
import RelationalStore.Proofs.ReadPipeline

/- Unknown names in reads. A read says that a name is unknown only if the payload gives it to an
   entity without such a field or relation. Such a name is reported, or it has not been looked at
   and nothing depends on what stands under it; and a read whose rows are to be distinct by an
   unknown field fails in any case. What is not true is that an unknown name is always reported:
   over an empty table no filter, order or selection is looked at. -/
namespace RelationalStore
open Read Operation

namespace View
variable {v : View} {e : Entity} {q : Query}

theorem yields_distinct (names : List String) :
    Yields (names.forM fun field => discard (e.requireField field))
      (fun _ => ∀ name ∈ names, (e.field? name).isSome) (fun _ : Error => True) := by
  induction names with
  | nil => exact .ok (by simp)
  | cons name rest ih =>
    refine .bind (R := fun _ => (e.field? name).isSome) (.of_ok (fun _ h => ?_) fun _ _ => trivial)
      fun _ hname => ih.mono (fun _ hrest => List.forall_mem_cons.2 ⟨hname, hrest⟩) fun _ h => h
    obtain ⟨f, hf, -⟩ := Except.bind_eq_ok.1 h
    rw [Option.elim_ok_eq_ok.1 hf]
    rfl

/-- The rows of a query are distinct by fields that there are. -/
theorem findMany_distinct (v : View) (e : Entity) (q : Query) :
    Yields (v.findMany e q) (fun _ => ∀ name ∈ q.distinct, (e.field? name).isSome)
      fun _ => True := by
  have hrows (rows : List Row) : Yields (v.readRows e q rows)
      (fun _ => ∀ name ∈ q.distinct, (e.field? name).isSome) fun _ => True := by
    unfold readRows
    cases q.filter
    all_goals
      refine .andThen .any fun _ => .andThen .any fun _ => ?_
      exact .bind (yields_distinct q.distinct) fun _ hnames => .pure hnames
  refine .andThen .any fun rows => .bind (hrows rows) fun kept hnames => ?_
  exact Yields.any.mono (fun _ _ => hnames) fun _ h => h

end View

namespace Client
variable {c : Client} {α : Type} {E : Error → Prop}

/-! ### Two requests -/

section
variable {op op' : Operation α}

theorem run_unless {tx : Transaction}
    (h : (∃ err w, E err ∧ op.run ⟨c.store.tables, tx, c.supply, [], []⟩ = .error err w) ∨
      op'.run ⟨c.store.tables, tx, c.supply, [], []⟩ =
        op.run ⟨c.store.tables, tx, c.supply, [], []⟩) :
    (∃ err c', E err ∧ c.run tx op = (.error err, c')) ∨ c.run tx op' = c.run tx op := by
  refine h.imp (fun hfails => ?_) fun hsame => ?_
  · obtain ⟨err, w, herr, hrun⟩ := hfails
    unfold run
    rw [hrun]
    exact ⟨err, _, herr, rfl⟩
  · unfold run
    rw [hsame]

theorem runIn_unless {id : Nat}
    (h : ∀ tx, (∃ err c', E err ∧ c.run tx op = (.error err, c')) ∨ c.run tx op' = c.run tx op) :
    (∃ err, E err ∧ (c.runIn id op).result = .error err) ∨ c.runIn id op' = c.runIn id op := by
  unfold runIn
  cases c.store.transaction? id with
  | none => exact .inr rfl
  | some tx =>
    obtain ⟨err, c', herr, hrun⟩ | hsame := h tx
    · simp only [hrun]
      exact .inl ⟨err, herr, rfl⟩
    · simp only [hsame]
      exact .inr trivial

theorem runAlone_unless {tables : List String} {mode : TransactionMode}
    (h : ∀ tx id store, c.store.beginTransaction tables mode = .ok (id, store) →
      (∃ err c', E err ∧ (c.withStore store).run tx op = (.error err, c')) ∨
        (c.withStore store).run tx op' = (c.withStore store).run tx op) :
    (∃ err, E err ∧ (c.runAlone tables mode op).result = .error err) ∨
      c.runAlone tables mode op' = c.runAlone tables mode op := by
  unfold runAlone
  cases hbegin : c.store.beginTransaction tables mode with
  | error err => exact .inr rfl
  | ok begun =>
    obtain ⟨id, store⟩ := begun
    simp only
    cases store.transaction? id with
    | none => exact .inr rfl
    | some tx =>
      have hrun := h tx id store hbegin
      simp only [withStore] at hrun
      obtain ⟨err, c', herr, hrun⟩ | hsame := hrun
      · simp only [hrun]
        exact .inl ⟨err, herr, rfl⟩
      · simp only [hsame]
        exact .inr trivial

end

/-- A reading in the place of another one: the request fails for one of some reasons, or nothing is
different. -/
theorem ask_look_unless {entity : String} {q : Query} {f g : Entity → View → Read α}
    (h : ∀ e v, c.schema.entity? entity = some e → v.schema = c.schema →
      Unless E (f e v) (g e v)) (tx : Option Nat) :
    let r : Request α := ⟨.read, q, fun s e => look s (f e)⟩
    (∃ err, E err ∧ (c.ask entity r tx).result = .error err) ∨
      c.ask entity ⟨.read, q, fun s e => look s (g e)⟩ tx = c.ask entity r tx := by
  intro r
  unfold ask
  cases hrequire : c.schema.require entity with
  | error err => exact .inr rfl
  | ok e =>
    have he := Option.elim_ok_eq_ok.1 hrequire
    have hrun (d : Client) (t : Transaction) :
        (∃ err d', E err ∧ d.run t (look c.schema (f e)) = (.error err, d')) ∨
          d.run t (look c.schema (g e)) = d.run t (look c.schema (f e)) := by
      refine run_unless ?_
      have hsame := h e ⟨c.schema, d.store.tables, t⟩ he rfl
      have hlook (r : View → Read α) : (look c.schema r).run ⟨d.store.tables, t, d.supply, [], []⟩ =
          (MonadExcept.ofExcept (r ⟨c.schema, d.store.tables, t⟩) : Operation α).run
            ⟨d.store.tables, t, d.supply, [], []⟩ := rfl
      rw [hlook, hlook]
      generalize f e ⟨c.schema, d.store.tables, t⟩ = x, g e ⟨c.schema, d.store.tables, t⟩ = y at hsame
      cases hsame with
      | fails herr => exact .inl ⟨_, _, herr, rfl⟩
      | same r => exact .inr rfl
    cases tx with
    | some id => exact runIn_unless fun t => hrun c t
    | none => exact runAlone_unless fun t id store _ => hrun (c.withStore store) t

/-! ### Reports -/

/-- A name is called unknown only if the query gives it to an entity that has no such field or
relation. If no name is called unknown, nothing is different with any other parts in the place of
those under unknown names, in a transaction over the same tables. With the name of no field among
those that the rows are to be distinct by, the request fails. -/
theorem ask_findMany_names {entity : String} {e : Entity}
    (he : c.schema.entity? entity = some e) (q : Query) (tx : Option Nat) :
    let outcome := c.ask entity (.findMany q) tx
    (∀ name field, outcome.result = .error (.unknownField name field) →
      (name, field) ∈ c.schema.misnames e q) ∧
    ((∃ name field, outcome.result = .error (.unknownField name field)) ∨
      ∀ m : Mending,
        c.ask entity { Request.findMany (c.schema.mend m e q) with query := q } tx = outcome) ∧
    ((∃ name ∈ q.distinct, e.field? name = none) → ∃ err, outcome.result = .error err) := by
  intro outcome
  refine ⟨fun name field hresult => ?_, ?_, fun hdistinct => ?_⟩
  · have hraises : Yields outcome.result (fun _ => True) fun err => ∀ name field,
        err = .unknownField name field → (name, field) ∈ c.schema.misnames e q := by
      refine yields_ask (fun err herr => ?_) nofun (fun e' t he' => ?_) tx
      · cases herr <;> nofun
      · obtain rfl := Option.some.inj (he.symm.trans he')
        change Triple _ (look c.schema fun v => v.findMany e q) _ _
        refine Triple.look fun w _ => ?_
        refine (View.raises_findMany fun p hp => hp).mono (fun _ _ => trivial)
          fun err herr name field h => ?_
        subst h
        cases herr with
        | misnamed hmiss => exact hmiss
    rw [hresult] at hraises
    exact hraises name field rfl
  · by_cases hunknown : ∃ name field, outcome.result = .error (.unknownField name field)
    · exact .inl hunknown
    · refine .inr fun m => ?_
      have hsame (e' : Entity) (v : View) (he' : c.schema.entity? entity = some e')
          (hv : v.schema = c.schema) :
          Unless Error.Unknown (v.findMany e' q) (v.findMany e' (c.schema.mend m e q)) := by
        obtain rfl := Option.some.inj (he.symm.trans he')
        rw [← hv]
        exact View.mends_findMany m v e q
      refine (ask_look_unless (q := q) hsame tx).resolve_left fun hfails => hunknown ?_
      obtain ⟨err, ⟨name, field⟩, hresult⟩ := hfails
      exact ⟨name, field, hresult⟩
  · obtain ⟨name, hname, hnone⟩ := hdistinct
    cases hresult : outcome.result with
    | error err => exact ⟨err, rfl⟩
    | ok records =>
      obtain ⟨e', t, w, he', hrun, -⟩ := ask_ok hresult
      cases he.symm.trans he'
      change (look c.schema fun v => v.findMany e q).run _ = _ at hrun
      have hfound := View.findMany_distinct ⟨c.schema, c.store.tables, t⟩ e q
      rw [of_run_look hrun] at hfound
      have hfield := hfound name hname
      rw [hnone] at hfield
      cases hfield

/-- The entries of a color, but entries have no colors. -/
def colored : Query := { filter := some (Filter.whereEquals {} "color" (.string "red")) }

/-- Selects colors and loads them too. -/
def colors : Query :=
  { select := some [("color", .flag true)], load := some [("color", .flag true)] }

/-- The color is reported if there is an entry to be tested. Otherwise any condition in its place
makes no difference. -/
theorem ask_findMany_names_diary : ∃ (c : Client) (e : Entity),
    Schema.ofDefs EntityDef.diary = .ok c.schema ∧ c.schema.entity? "entry" = some e ∧
      (let d := c.after (.ask "entry" (entry "Monday" []) none)
       (d.ask "entry" (.findMany colored) none).result = .error (.unknownField "entry" "color") ∧
         ("entry", "color") ∈ d.schema.misnames e colored) ∧
      ∀ m : Mending, c.ask "entry"
        { Request.findMany (c.schema.mend m e colored) with query := colored } none =
          c.ask "entry" (.findMany colored) none := by
  have hruns : (openMemory EntityDef.diary).toOption.any fun c =>
      let d := c.after (.ask "entry" (entry "Monday" []) none)
      (fault? (d.ask "entry" (.findMany colored) none).result).bind Error.unknown? =
        some ("entry", "color") ∧
      (c.ask "entry" (.findMany colored) none).result.isOk ∧ (c.schema.entity? "entry").isSome := by
    decide +kernel
  obtain ⟨c, hs, -, -, hreported, hanswered, hsome⟩ := exists_openMemory hruns
  obtain ⟨e, he⟩ := Option.isSome_iff_exists.1 hsome
  have hd : (c.after (.ask "entry" (entry "Monday" []) none)).schema = c.schema := schema_after c _
  have hresult : ((c.after (.ask "entry" (entry "Monday" []) none)).ask "entry"
      (.findMany colored) none).result = .error (.unknownField "entry" "color") := by
    simpa [Option.bind_eq_some_iff, Error.unknown?_eq_some] using hreported
  refine ⟨c, e, hs, he, ⟨hresult, ?_⟩, ?_⟩
  · exact (ask_findMany_names (hd ▸ he) colored none).1 _ _ hresult
  · refine (ask_findMany_names he colored none).2.1.resolve_left ?_
    rintro ⟨name, field, hfails⟩
    rw [hfails] at hanswered
    cases hanswered

/-- An unknown name is not always reported. Over no entries the filter is not looked at, so that the
answer depends on what the table holds; and a query that selects and loads is refused for that. -/
theorem ask_findMany_overlooks : ∃ (c : Client) (e : Entity),
    Schema.ofDefs EntityDef.diary = .ok c.schema ∧ c.Opened c.schema ∧
      c.schema.entity? "entry" = some e ∧ e.field? "color" = none ∧ e.relation? "color" = none ∧
      let d := c.after (.ask "entry" (entry "Monday" []) none)
      (c.ask "entry" (.findMany colored) none).result.isOk ∧
        (d.ask "entry" (.findMany colored) none).result = .error (.unknownField "entry" "color") ∧
        ∃ err, (d.ask "entry" (.findMany colors) none).result = .error err ∧
          err.unknown? = none := by
  have hruns : (openMemory EntityDef.diary).toOption.any fun c =>
      let d := c.after (.ask "entry" (entry "Monday" []) none)
      (c.ask "entry" (.findMany colored) none).result.isOk ∧
      (fault? (d.ask "entry" (.findMany colored) none).result).bind Error.unknown? =
        some ("entry", "color") ∧
      (∃ err ∈ fault? (d.ask "entry" (.findMany colors) none).result, err.unknown? = none) ∧
      (c.schema.entity? "entry").any fun e =>
        (e.field? "color").isNone && (e.relation? "color").isNone := by
    decide +kernel
  obtain ⟨c, hs, hopened, -, hanswered, hreported, hrefused, hnames⟩ := exists_openMemory hruns
  obtain ⟨e, he, hcolor⟩ := (Option.any_eq_true _ _).1 hnames
  simp only [Bool.and_eq_true, Option.isNone_iff_eq_none] at hcolor
  obtain ⟨err, herr, hother⟩ := hrefused
  refine ⟨c, e, hs, hopened, he, hcolor.1, hcolor.2, hanswered, ?_, err, fault?_eq_some.1 herr,
    hother⟩
  simpa [Option.bind_eq_some_iff, Error.unknown?_eq_some] using hreported

end Client

end RelationalStore

import RelationalStore.Proofs.UpgradedStores

/- What a declaration that fails leaves behind. A table that is declared anew is taken out before
   its rows are stored under the new definition. So a declaration that fails leaves the tables as
   they were, with one exception: where the rows do not go under the new definition, their table is
   gone (`Upgrade.createTable_leaves`). Whoever handles the error and goes on has lost it, and a
   table is lost in no other way (`Upgrade.failed_declarations`). -/
namespace RelationalStore
open SortedMap Operation

namespace Upgrade
variable {d : TableDef} {u u' : Upgrade} {n : String}

/-- The definition is one for a declared table, and the rows of that table do not go under it. -/
def Displaces (d : TableDef) (u : Upgrade) : Prop :=
  Identifier.checkEntity d.name = .ok () ∧
    ∃ o e, u.tables.get? d.name = some o ∧ o.definition ≠ d ∧ Table.ofRows d o.toList = .error e

/-- One table is gone with all its rows, and the rest is as it was. -/
structure Loses (n : String) (u u' : Upgrade) : Prop where
  ordered : Ordered u'.tables
  gone : u'.tables.get? n = none
  same : ∀ m, m ≠ n → u'.tables.get? m = u.tables.get? m
  changed : u'.changed = u.changed

theorem loses_erase (h : Ordered u.tables) (n : String) :
    Loses n u { u with tables := u.tables.erase n } := by
  have hget (m : String) : (u.tables.erase n).get? m = if n = m then none else u.tables.get? m := by
    rw [get?_erase transOn_true h trivial trivial]
    simp only [Std.LawfulEqCmp.compare_eq_iff_eq]
  refine ⟨h.erase n, ?_, fun m hm => ?_, rfl⟩
  · rw [hget, if_pos rfl]
  · rw [hget, if_neg (Ne.symm hm)]

/-- A failed declaration changed nothing, or it lost the table that it was for. -/
def Leaves (d : TableDef) (u u' : Upgrade) : Prop :=
  u' = u ∧ ¬ Displaces d u ∨ Displaces d u ∧ Loses d.name u u'

theorem createTable_leaves (h : Ordered u.tables) :
    Triple (· = u) (createTable d) (fun _ _ => ¬ Displaces d u) fun _ => Leaves d u := by
  unfold createTable
  cases hcheck : Identifier.checkEntity d.name with
  | error fault =>
    have hnot : ¬ Displaces d u := by
      intro hd
      have hok := hd.1
      rw [hcheck] at hok
      cases hok
    refine Triple.bind (R := fun _ _ => False) (Triple.throw fun w hw => .inl ⟨hw, hnot⟩) fun _ => ?_
    exact fun _ hw => hw.elim
  | ok _ =>
    refine Triple.get fun w hw => ?_
    subst hw
    split
    · next hnone =>
      refine Triple.modify fun _ _ hd => ?_
      obtain ⟨-, o, -, ho, -⟩ := hd
      rw [hnone] at ho
      cases ho
    · next o ho =>
      -- Whether the rows are stored anew is decided before the table is taken out.
      refine Triple.ite (fun hd => Triple.pure fun _ _ hdis => ?_) fun hne => ?_
      · obtain ⟨-, o', -, ho', hne, -⟩ := hdis
        rw [ho] at ho'
        cases ho'
        exact hne hd
      · refine Triple.bind (Triple.modify (Q := fun _ w' => w' =
          { w with tables := w.tables.erase d.name }) fun w' hw' => by rw [hw']) fun _ => ?_
        split
        · next t ht =>
          refine Triple.modify fun _ _ hd => ?_
          obtain ⟨-, o', e, ho', -, he⟩ := hd
          rw [ho] at ho'
          cases ho'
          rw [ht] at he
          cases he
        · next e he =>
          refine Triple.throw fun w' hw' => .inr ⟨⟨hcheck, o, e, ho, hne, he⟩, ?_⟩
          rw [hw']
          exact loses_erase h d.name

end Upgrade

namespace UpgradeStep
variable {u u' : Upgrade} {n : String}

/-- The definition that a step declares a table by. -/
def declares? (u : Upgrade) : UpgradeStep → Option TableDef
  | createTable d => some d
  | createIndex table i => do
    let d := (← u.tables.get? table).definition
    if d.indexes.any (·.name == i.name) then none else some { d with indexes := d.indexes ++ [i] }
  | hasTable _ | malformed => none

/-- The step declares a table of that name by a definition that its rows do not go under. -/
def Displaces (step : UpgradeStep) (u : Upgrade) (n : String) : Prop :=
  ∃ d ∈ step.declares? u, d.name = n ∧ Upgrade.Displaces d u

theorem Displaces.unique {step : UpgradeStep} {m : String} (hn : step.Displaces u n)
    (hm : step.Displaces u m) : n = m := by
  obtain ⟨d, hd, rfl, -⟩ := hn
  obtain ⟨d', hd', rfl, -⟩ := hm
  rw [Option.mem_unique hd hd']

/-- A failed step changed nothing, or it lost the table that it was for. -/
def Leaves (step : UpgradeStep) (u u' : Upgrade) : Prop :=
  u' = u ∧ (∀ n, ¬ step.Displaces u n) ∨ ∃ n, step.Displaces u n ∧ Upgrade.Loses n u u'

theorem run_leaves (h : Ordered u.tables) (step : UpgradeStep) :
    Triple (· = u) step.run (fun _ _ => ∀ n, ¬ step.Displaces u n) fun _ => step.Leaves u := by
  have hnone (hd : step.declares? u = none) (n : String) : ¬ step.Displaces u n := by
    intro hdis
    obtain ⟨d, hmem, -⟩ := hdis
    rw [hd] at hmem
    cases hmem
  have hdeclares {d : TableDef} (hd : step.declares? u = some d) :
      Triple (· = u) (Upgrade.createTable d) (fun _ _ => ∀ n, ¬ step.Displaces u n)
        fun _ => step.Leaves u := by
    have hiff (n : String) : step.Displaces u n ↔ d.name = n ∧ Upgrade.Displaces d u := by
      simp only [Displaces, hd, Option.mem_some_iff, exists_eq_left']
    refine Triple.mono (Upgrade.createTable_leaves h) (fun _ hw => hw) (fun _ _ hnot n hn => ?_)
      fun _ u' hleaves => ?_
    · exact hnot ((hiff n).1 hn).2
    · rcases hleaves with ⟨rfl, hnot⟩ | ⟨hdis, hloses⟩
      · exact .inl ⟨rfl, fun n hn => hnot ((hiff n).1 hn).2⟩
      · exact .inr ⟨d.name, (hiff d.name).2 ⟨rfl, hdis⟩, hloses⟩
  cases step with
  | createTable d => exact Triple.bind (hdeclares rfl) fun _ => Triple.pure fun _ hw => hw
  | createIndex table i =>
    refine Triple.bind (R := fun _ _ => ∀ n, ¬ (createIndex table i).Displaces u n) ?_
      fun _ => Triple.pure fun _ hw => hw
    refine Triple.get fun w hw => ?_
    subst hw
    split
    · next hno => exact Triple.throw fun _ hw => .inl ⟨hw, hnone (by simp [declares?, hno])⟩
    · next o ho =>
      refine Triple.ite (fun hhas => Triple.pure fun _ _ => hnone ?_) fun hnot => hdeclares ?_
      · simpa [declares?, ho] using hhas
      · simpa [declares?, ho] using hnot
  | hasTable name =>
    refine Triple.get fun _ _ => Triple.pure fun _ _ => hnone rfl
  | malformed => exact Triple.throw fun _ hw => .inl ⟨hw, hnone rfl⟩

/-- What a step leaves to one who handles its error, if it fails. -/
def leave (u : Upgrade) (step : UpgradeStep) : Upgrade :=
  match step.run.run u with
  | .ok _ u' | .error _ u' => u'

theorem leave_cases (h : Ordered u.tables) (step : UpgradeStep) :
    leave u step = u ∨ (∃ d t, Upgrade.Declared d t u (leave u step)) ∨
      ∃ n, step.Displaces u n ∧ Upgrade.Loses n u (leave u step) := by
  have hcases := step.run_cases h u rfl
  have hleaves := run_leaves h step u rfl
  unfold leave
  cases hrun : step.run.run u with
  | ok more u' =>
    rw [hrun] at hcases
    exact hcases.imp_right .inl
  | error e u' =>
    rw [hrun] at hleaves
    exact hleaves.imp And.left .inr

theorem ordered_leave (h : Ordered u.tables) (step : UpgradeStep) :
    Ordered (leave u step).tables := by
  rcases leave_cases h step with heq | ⟨d, t, hdeclared⟩ | ⟨n, -, hloses⟩
  · rwa [heq]
  · exact hdeclared.ordered
  · exact hloses.ordered

/-- A table that a step does not displace is still declared after it. -/
theorem isSome_leave (h : Ordered u.tables) {step : UpgradeStep} (hnot : ¬ step.Displaces u n)
    (hn : (u.tables.get? n).isSome) : ((leave u step).tables.get? n).isSome := by
  rcases leave_cases h step with heq | ⟨d, t, hdeclared⟩ | ⟨m, hdis, hloses⟩
  · rwa [heq]
  · rw [hdeclared.get?]
    split
    · rfl
    · exact hn
  · have hne : n ≠ m := by
      rintro rfl
      exact hnot hdis
    rwa [hloses.same n hne]

/-- By induction on the steps: what one of them does not displace goes to the next. -/
theorem isSome_foldl_leave (h : Ordered u.tables) {steps : List UpgradeStep}
    (hnot : ∀ before step after, steps = before ++ step :: after →
      ¬ step.Displaces (before.foldl leave u) n)
    (hn : (u.tables.get? n).isSome) : ((steps.foldl leave u).tables.get? n).isSome := by
  induction steps generalizing u with
  | nil => exact hn
  | cons step rest ih =>
    have hfirst : ¬ step.Displaces u n := hnot [] step rest rfl
    rw [List.foldl_cons]
    refine ih (ordered_leave h step) (fun before step' after heq => ?_) (isSome_leave h hfirst hn)
    have hlater := hnot (step :: before) step' after (by rw [heq, List.cons_append])
    rwa [List.foldl_cons] at hlater

end UpgradeStep

/-! ### Declarations that fail -/

namespace Upgrade

/-- A declaration that fails leaves the tables with all their rows as they were, unless it displaces a
table: then it fails, and that table is gone. So by handling the errors of an upgrade a table is lost
only to a step that displaces it. -/
theorem failed_declarations (u : Upgrade) (h : Ordered u.tables) :
    (∀ (step : UpgradeStep) e u', step.run.run u = .error e u' → (∀ n, ¬ step.Displaces u n) →
      u' = u) ∧
    (∀ (step : UpgradeStep) n, step.Displaces u n →
      ∃ e u', step.run.run u = .error e u' ∧ Loses n u u') ∧
    ∀ (steps : List UpgradeStep) n, (u.tables.get? n).isSome →
      (∀ before step after, steps = before ++ step :: after →
        ¬ step.Displaces (before.foldl UpgradeStep.leave u) n) →
      ((steps.foldl UpgradeStep.leave u).tables.get? n).isSome := by
  refine ⟨fun step e u' hrun hnot => ?_, fun step n hdis => ?_, fun steps n hn hnot => ?_⟩
  · have hleaves := UpgradeStep.run_leaves h step u rfl
    rw [hrun] at hleaves
    rcases hleaves with ⟨heq, -⟩ | ⟨n, hdis, -⟩
    · exact heq
    · exact absurd hdis (hnot n)
  · have hleaves := UpgradeStep.run_leaves h step u rfl
    cases hrun : step.run.run u with
    | ok more u' =>
      rw [hrun] at hleaves
      exact absurd hdis (hleaves n)
    | error e u' =>
      rw [hrun] at hleaves
      refine ⟨e, u', rfl, ?_⟩
      rcases hleaves with ⟨-, hnot⟩ | ⟨m, hdis', hloses⟩
      · exact absurd hdis (hnot n)
      · rwa [hdis.unique hdis']
  · exact UpgradeStep.isSome_foldl_leave h hnot hn

/-- An empty table `Tag`, and a table `User` in which two rows have the same email. -/
def users : Upgrade where
  tables := .ofList [("Tag", .ofDef ⟨"Tag", ["id"], []⟩),
    ("User", [1, 2].foldl (fun t id =>
      t.store ⟨[.int id]⟩ (.ofList [("id", .int id), ("email", .string "a@b")]))
      (.ofDef ⟨"User", ["id"], []⟩))]

/-- No two users may share an email. -/
def emails : IndexDef := ⟨"emailIndex", ["email"], true⟩

theorem displaces_emails : (UpgradeStep.createIndex "User" emails).Displaces users "User" := by
  have hcheck : Identifier.checkEntity "User" = .ok () := by decide +kernel
  refine ⟨_, rfl, rfl, hcheck, _, .uniqueViolation "User" ["email"], rfl, by decide, by rfl⟩

/-- A bad name loses nothing. A new index is refused together with the users, and the other table is
there after both. -/
theorem failed_declarations_users :
    let bad := UpgradeStep.createTable ⟨"2", ["id"], []⟩
    let index := UpgradeStep.createIndex "User" emails
    (∃ e, bad.run.run users = .error e users) ∧
      (∃ e u', index.run.run users = .error e u' ∧ Loses "User" users u') ∧
      (([index, bad].foldl UpgradeStep.leave users).tables.get? "Tag").isSome := by
  intro bad index
  have hbad (u : Upgrade) (n : String) : ¬ bad.Displaces u n := by
    rintro ⟨d, ⟨⟩, -, hcheck, -⟩
    exact absurd hcheck (by decide +kernel)
  obtain ⟨hkeeps, hloses, hlasts⟩ := failed_declarations users (ordered_ofList _)
  refine ⟨?_, hloses index "User" displaces_emails, hlasts _ _ rfl fun before step after heq => ?_⟩
  · have hfails : ∃ e u', bad.run.run users = .error e u' :=
      ⟨.identifier (.badStart "2"), users, by rfl⟩
    obtain ⟨e, u', hrun⟩ := hfails
    rw [hkeeps bad e u' hrun (hbad users)] at hrun
    exact ⟨e, hrun⟩
  · cases before with
    | nil =>
      -- The first step is the index, which is for the other table.
      cases heq
      intro htag
      exact absurd (htag.unique displaces_emails) (by decide)
    | cons first before =>
      have hmem : step ∈ [bad] := by
        rw [(List.cons_eq_cons.1 heq).2]
        simp
      rw [List.mem_singleton.1 hmem]
      exact hbad _ _

/-- An index that is refused takes the table along. -/
theorem createIndex_loses_users :
    ∃ e u', (createIndex "User" emails).run users = .error e u' ∧
      users.hasTable "User" ∧ u'.hasTable "User" = false := by
  have hruns : (match (createIndex "User" emails).run users with
      | .ok _ _ => false
      | .error _ u' => users.hasTable "User" && !u'.hasTable "User") = true := by
    decide +kernel
  split at hruns
  · cases hruns
  · next e u' hrun =>
    rw [Bool.and_eq_true, Bool.not_eq_true'] at hruns
    exact ⟨e, u', hrun, hruns⟩

end Upgrade
end RelationalStore

import Mathlib.Data.List.TakeWhile
import RelationalStore.Proofs.FieldTests
import RelationalStore.Proofs.SelectorEqualities

/- Searches that leave case aside. The text and the needle are put into lower case, each on its own,
   and what was part of the text is part of it still where lower case takes no notice of what stands
   around a character. That is so of every character but the capital sigma, which becomes a final
   sigma at the end of a word: a needle may end within a word of the text, and then its sigma is
   another letter than the one in its place (`rejects_sigma`). So a search finds in lower case what
   it finds as it is written if the form of each sigma of the needle is settled by the needle itself
   (`Text.settled`), on the sides where the text may go on. -/
namespace RelationalStore
open Read

namespace Text
variable {before cs : List Char} {openBefore openAfter : Bool}

/-! ### Sigmas -/

/-- Whether it is known which character a sigma meets on one side: there is one that is not passed
over, or there can be no more text on this side. -/
def isMet (openSide : Bool) (cs : List Char) : Bool := !openSide || !cs.all isCaseIgnorable

/-- Whether a sigma has one form whatever is put around the text, on the sides that are open. Before a
cased letter it is never final, and after none it is never final either. -/
def isSettled (openBefore openAfter : Bool) (before rest : List Char) : Bool :=
  meetsCased rest || (isMet openBefore before && (!meetsCased before || isMet openAfter rest))

/-- Whether every capital sigma of a text has one form whatever is put around the text. -/
def settledFrom (openBefore openAfter : Bool) (before : List Char) : List Char → Bool
  | [] => true
  | c :: rest =>
    (c != 'Σ' || isSettled openBefore openAfter before rest) &&
      settledFrom openBefore openAfter (c :: before) rest

def settled (openBefore openAfter : Bool) (s : String) : Bool :=
  settledFrom openBefore openAfter [] s.toList

theorem settledFrom_of_no_sigma (h : 'Σ' ∉ cs) : settledFrom openBefore openAfter before cs := by
  induction cs generalizing before with
  | nil => rfl
  | cons c rest ih =>
    rw [List.mem_cons, not_or] at h
    have hc : (c != 'Σ') = true := by simpa using Ne.symm h.1
    rw [settledFrom, hc, ih h.2]
    rfl

/-- A text without capital sigmas is settled. -/
theorem settled_of_no_sigma {s : String} (h : 'Σ' ∉ s.toList) : settled openBefore openAfter s :=
  settledFrom_of_no_sigma h

/-- More text changes nothing about the character that is met. -/
theorem meetsCased_append {openSide : Bool} {more : List Char} (h : isMet openSide cs)
    (hmore : openSide = false → more = []) : meetsCased (cs ++ more) = meetsCased cs := by
  cases openSide with
  | false => rw [hmore rfl, List.append_nil]
  | true =>
    have hmet : ¬ cs.all isCaseIgnorable := by simpa [isMet] using h
    have hdrop : cs.dropWhile isCaseIgnorable ≠ [] := by
      intro hnil
      exact hmet (List.all_eq_true.2 (List.dropWhile_eq_nil_iff.1 hnil))
    rw [meetsCased, meetsCased, List.dropWhile_append, if_neg (by simpa using hdrop)]
    cases hrest : cs.dropWhile isCaseIgnorable with
    | nil => exact absurd hrest hdrop
    | cons c rest => rfl

theorem isMet_of_meetsCased {openSide : Bool} (h : meetsCased cs) : isMet openSide cs := by
  have hmet : ¬ cs.all isCaseIgnorable := by
    intro hall
    rw [meetsCased, List.dropWhile_eq_nil_iff.2 (List.all_eq_true.1 hall)] at h
    cases h
  simp [isMet, hmet]

/-- What a settled sigma becomes. -/
theorem final_append {rest pre post : List Char} (h : isSettled openBefore openAfter before rest)
    (hpre : openBefore = false → pre = []) (hpost : openAfter = false → post = []) :
    (meetsCased (before ++ pre) && !meetsCased (rest ++ post)) =
      (meetsCased before && !meetsCased rest) := by
  rw [isSettled, Bool.or_eq_true, Bool.and_eq_true, Bool.or_eq_true] at h
  obtain hcased | ⟨hbefore, huncased | hafter⟩ := h
  · have hrest := meetsCased_append (isMet_of_meetsCased hcased) hpost
    rw [hrest, hcased]
    simp
  · rw [Bool.not_eq_true'] at huncased
    rw [meetsCased_append hbefore hpre, huncased]
    simp
  · rw [meetsCased_append hbefore hpre, meetsCased_append hafter hpost]

/-! ### Parts of a text in lower case -/

/-- A settled text has its own lower case wherever it stands. -/
theorem lowerFrom_append (pre post : List Char) (h : settledFrom openBefore openAfter before cs)
    (hpre : openBefore = false → pre = []) (hpost : openAfter = false → post = []) :
    lowerFrom (before ++ pre) (cs ++ post) =
      lowerFrom before cs ++ lowerFrom (cs.reverse ++ (before ++ pre)) post := by
  induction cs generalizing before with
  | nil => rfl
  | cons c rest ih =>
    rw [settledFrom, Bool.and_eq_true] at h
    have hrest := ih h.2
    rw [List.cons_append, lowerFrom, lowerFrom, List.append_assoc, List.reverse_cons,
      List.append_assoc, List.singleton_append, ← List.cons_append, hrest]
    congr 1
    by_cases hc : c = 'Σ'
    · have hsettled : isSettled openBefore openAfter before rest := by simpa [hc] using h.1
      rw [if_pos hc, if_pos hc, final_append hsettled hpre hpost]
    · rw [if_neg hc, if_neg hc]

/-- The lower case of a text ends with that of its end, in its place. -/
theorem exists_lowerFrom_append (before cs post : List Char) :
    ∃ lowered, lowerFrom before (cs ++ post) =
      lowered ++ lowerFrom (cs.reverse ++ before) post := by
  induction cs generalizing before with
  | nil => exact ⟨[], rfl⟩
  | cons c rest ih =>
    obtain ⟨lowered, hrest⟩ := ih (c :: before)
    rw [List.cons_append, lowerFrom, hrest, List.reverse_cons, List.append_assoc,
      List.singleton_append]
    exact ⟨_ ++ lowered, by rw [List.append_assoc]⟩

theorem toList_toLower (s : String) : (toLower s).toList = lowerFrom [] s.toList := by
  rw [toLower, String.toList_ofList]

variable {needle text : String}

theorem toLower_prefix (h : needle.toList <+: text.toList) (hs : settled false true needle) :
    (toLower needle).toList <+: (toLower text).toList := by
  obtain ⟨post, heq⟩ := h
  rw [toList_toLower, toList_toLower, ← heq]
  have happend := lowerFrom_append [] post hs (fun _ => rfl) nofun
  rw [List.append_nil] at happend
  rw [happend]
  exact List.prefix_append _ _

theorem toLower_suffix (h : needle.toList <:+ text.toList) (hs : settled true false needle) :
    (toLower needle).toList <:+ (toLower text).toList := by
  obtain ⟨pre, heq⟩ := h
  rw [toList_toLower, toList_toLower, ← heq]
  obtain ⟨lowered, hlowered⟩ := exists_lowerFrom_append [] pre needle.toList
  have happend := lowerFrom_append pre.reverse [] hs nofun (fun _ => rfl)
  simp only [List.append_nil, List.nil_append, lowerFrom] at happend hlowered
  rw [hlowered, happend]
  exact List.suffix_append _ _

theorem toLower_infix (h : needle.toList <:+: text.toList) (hs : settled true true needle) :
    (toLower needle).toList <:+: (toLower text).toList := by
  obtain ⟨pre, post, heq⟩ := h
  rw [toList_toLower, toList_toLower, ← heq, List.append_assoc]
  obtain ⟨lowered, hlowered⟩ := exists_lowerFrom_append [] pre (needle.toList ++ post)
  have happend := lowerFrom_append pre.reverse post hs nofun nofun
  rw [List.nil_append] at happend
  rw [hlowered, List.append_nil, happend, ← List.append_assoc]
  exact ⟨lowered, _, rfl⟩

end Text

namespace Entity
variable {e : Entity} {f : FieldDef} {text : String}

/-! ### Tests -/

theorem isPart_iff (needle cs : List Char) : isPart needle cs ↔ needle <:+: cs := by
  induction cs with
  | nil => simp [isPart]
  | cons c rest ih => simp [isPart, ih, List.infix_cons_iff]

/-- Values that are equal as they are written are equal in lower case. -/
theorem compareIn_insensitive {a b : Value} (h : compareIn .sensitive a b = .eq) :
    compareIn .insensitive a b = .eq := by
  have hcompare : compare a b = .eq := h
  unfold compareIn
  split
  · next x y _ =>
    have hxy : compare x y = .eq := h
    rw [Std.LawfulEqCmp.eq_of_compare hxy]
    exact Std.ReflCmp.compare_self
  · exact hcompare

theorem equalsLiteral_insensitive (hlist : f.list = false) {literal : Json} {found : Bool}
    (h : e.equalsLiteral f (.string text) .sensitive literal = .ok found) :
    ∃ found', e.equalsLiteral f (.string text) .insensitive literal = .ok found' ∧
      (found = true → found' = true) := by
  obtain ⟨expected, hexpected, h⟩ := Except.bind_eq_ok.1 h
  rw [equalsLiteral, hexpected, Except.ok_bind]
  have htext : (Value.string text).isNull = false := rfl
  cases hnull : expected.isNull with
  | true => exact ⟨found, by simpa [hnull] using h, id⟩
  | false =>
    simp only [hnull, htext, hlist, Bool.or_self, Bool.false_eq_true, if_false] at h ⊢
    refine ⟨_, rfl, fun hfound => ?_⟩
    rw [← Except.ok.inj h, beq_iff_eq] at hfound
    exact beq_iff_eq.2 (compareIn_insensitive hfound)

theorem equalsAny_insensitive (hlist : f.list = false) {literals : List Json} {found : Bool}
    (h : e.equalsAny f (.string text) .sensitive literals = .ok found) :
    ∃ found', e.equalsAny f (.string text) .insensitive literals = .ok found' ∧
      (found = true → found' = true) := by
  induction literals with
  | nil => exact ⟨found, h, id⟩
  | cons literal rest ih =>
    rw [equalsAny, List.anyM] at h ⊢
    obtain ⟨first, hfirst, h⟩ := Except.bind_eq_ok.1 h
    obtain ⟨first', hfirst', himp⟩ := equalsLiteral_insensitive hlist hfirst
    rw [hfirst', Except.ok_bind]
    cases first' with
    | true => exact ⟨true, rfl, fun _ => rfl⟩
    | false =>
      -- The first literal is not found in lower case, and so not as it is written.
      cases first with
      | true => cases himp rfl
      | false => exact ih h

/-- A search by an operator finds in lower case what it finds as it is written, if the operator is on
the texts and the needle suits it. -/
theorem searched_insensitive {operator : String} {hit : List Char → List Char → Bool}
    {needle : Option String}
    (hhit : ∀ n ∈ needle, hit n.toList text.toList →
      hit (Text.toLower n).toList (Text.toLower text).toList)
    (h : e.searched f (.string text) .sensitive operator hit needle = .ok true) :
    e.searched f (.string text) .insensitive operator hit needle = .ok true := by
  cases needle with
  | none => rfl
  | some n =>
    obtain ⟨hallowed, hfound⟩ := and_eq_true.1 h
    have hlowered : hit (Text.toLower n).toList (Text.toLower text).toList = true :=
      hhit n rfl (Except.ok.inj hfound)
    exact and_eq_true.2 ⟨hallowed, congrArg Except.ok hlowered⟩

/-- A test in which case is left aside accepts the texts that the same test accepts as they are
written, if no sigma of what is searched for depends on what is around it in the text. -/
theorem accepts_insensitive (hkind : f.kind = .string) (hlist : f.list = false)
    {equals : Option Json} {isIn : Option (List Json)} {contains startsWith endsWith : Option String}
    (hcontains : ∀ n ∈ contains, Text.settled true true n)
    (hstarts : ∀ n ∈ startsWith, Text.settled false true n)
    (hends : ∀ n ∈ endsWith, Text.settled true false n)
    (h : e.Accepts f (.string text)
      { equals := equals, isIn := isIn, contains := contains, startsWith := startsWith,
        endsWith := endsWith }) :
    e.Accepts f (.string text)
      { equals := equals, isIn := isIn, contains := contains, startsWith := startsWith,
        endsWith := endsWith, mode := .insensitive } := by
  have hmode : f.Admits .insensitive := .inr ⟨by rw [hkind]; rfl, hlist⟩
  rw [Accepts, passes_eq (.inl rfl), all_eq_true] at h
  rw [Accepts, passes_eq hmode, all_eq_true]
  simp only [List.forall_mem_cons] at h ⊢
  obtain ⟨hequals, -, hin, -, -, -, -, -, hcontained, hstarted, hended, -⟩ := h
  refine ⟨?_, rfl, ?_, rfl, rfl, rfl, rfl, rfl, ?_, ?_, ?_, rfl, by simp⟩
  · cases equals with
    | none => rfl
    | some literal =>
      obtain ⟨found, hfound, himp⟩ := equalsLiteral_insensitive hlist hequals
      rw [himp rfl] at hfound
      exact hfound
  · cases isIn with
    | none => rfl
    | some literals =>
      obtain ⟨hallowed, hany⟩ := and_eq_true.1 hin
      obtain ⟨found, hfound, himp⟩ := equalsAny_insensitive hlist hany
      rw [himp rfl] at hfound
      exact and_eq_true.2 ⟨hallowed, hfound⟩
  · refine searched_insensitive (fun n hn hhit => ?_) hcontained
    rw [isPart_iff] at hhit ⊢
    exact Text.toLower_infix hhit (hcontains n hn)
  · refine searched_insensitive (fun n hn hhit => ?_) hstarted
    rw [ List.isPrefixOf_iff_prefix] at hhit ⊢
    exact Text.toLower_prefix hhit (hstarts n hn)
  · refine searched_insensitive (fun n hn hhit => ?_) hended
    rw [ List.isSuffixOf_iff_suffix] at hhit ⊢
    exact Text.toLower_suffix hhit (hends n hn)

/-- Songs of Odysseus: the sigmas within his name are before letters, and the last one ends the text. -/
theorem accepts_insensitive_odysseus :
    let title : FieldDef := { name := "title", kind := .string, id := true }
    Text.settled true true "ΥΣΣΕ" ∧ Text.settled false true "ΟΔΥ" ∧ Text.settled true false "ΕΥΣ" ∧
      song.Accepts title (.string "ΟΔΥΣΣΕΥΣ")
        { equals := some (.string "ΟΔΥΣΣΕΥΣ"), isIn := some [.string "x", .string "ΟΔΥΣΣΕΥΣ"],
          contains := some "ΥΣΣΕ", startsWith := some "ΟΔΥ", endsWith := some "ΕΥΣ" } ∧
      song.Accepts title (.string "ΟΔΥΣΣΕΥΣ")
        { equals := some (.string "ΟΔΥΣΣΕΥΣ"), isIn := some [.string "x", .string "ΟΔΥΣΣΕΥΣ"],
          contains := some "ΥΣΣΕ", startsWith := some "ΟΔΥ", endsWith := some "ΕΥΣ",
          mode := .insensitive } := by
  intro title
  have hcontains : Text.settled true true "ΥΣΣΕ" := by decide +kernel
  have hstarts : Text.settled false true "ΟΔΥ" := by decide +kernel
  have hends : Text.settled true false "ΕΥΣ" := by decide +kernel
  have hwritten : song.Accepts title (.string "ΟΔΥΣΣΕΥΣ")
      { equals := some (.string "ΟΔΥΣΣΕΥΣ"), isIn := some [.string "x", .string "ΟΔΥΣΣΕΥΣ"],
        contains := some "ΥΣΣΕ", startsWith := some "ΟΔΥ", endsWith := some "ΕΥΣ" } := rfl
  refine ⟨hcontains, hstarts, hends, hwritten, ?_⟩
  exact accepts_insensitive rfl rfl (by simpa using hcontains) (by simpa using hstarts)
    (by simpa using hends) hwritten

/-- A sigma at the end of a needle, or alone in one, is another letter than in the middle or at the
end of a word. -/
theorem rejects_sigma :
    let title : FieldDef := { name := "title", kind := .string, id := true }
    song.Accepts title (.string "ΟΔΥΣΣΕΥΣ") { contains := some "ΟΔΥΣ" } ∧
      ¬ song.Accepts title (.string "ΟΔΥΣΣΕΥΣ") { contains := some "ΟΔΥΣ", mode := .insensitive } ∧
      song.Accepts title (.string "ΟΔΥΣΣΕΥΣ") { startsWith := some "ΟΔΥΣ" } ∧
      ¬ song.Accepts title (.string "ΟΔΥΣΣΕΥΣ") { startsWith := some "ΟΔΥΣ", mode := .insensitive } ∧
      song.Accepts title (.string "ΟΔΥΣΣΕΥΣ") { endsWith := some "Σ" } ∧
      ¬ song.Accepts title (.string "ΟΔΥΣΣΕΥΣ") { endsWith := some "Σ", mode := .insensitive } := by
  intro title
  refine ⟨rfl, ?_, rfl, ?_, rfl, ?_⟩
  · intro h
    exact absurd (congrArg Except.toOption h) (by decide +kernel)
  · intro h
    exact absurd (congrArg Except.toOption h) (by decide +kernel)
  · intro h
    exact absurd (congrArg Except.toOption h) (by decide +kernel)

end Entity

end RelationalStore

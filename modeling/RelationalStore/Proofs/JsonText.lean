import Mathlib.Algebra.Order.Ring.Nat
import Mathlib.Data.List.Basic
import RelationalStore.Json.Document
import RelationalStore.Json.Parser

/- Reading what was printed. The text that `Json.pretty` makes of a value is read as that value by
   `Json.read?`, if the value nests containers no deeper than the reader goes and its numbers are
   natural numbers of 64 bits (`Json.Readable`). The text of a value is followed by other text while
   it is read, so the recursion carries that a value is read from the front and that the rest is
   left over; for a number the rest must not go on like a number (`Parts`). -/
namespace RelationalStore.Json

/-! ### Blanks -/

def isSpace (c : Char) : Bool := c == ' ' || c == '\t' || c == '\n' || c == '\r'

theorem skipBlanks_append {blanks cs : List Char} (h : ∀ c ∈ blanks, isSpace c = true) :
    skipBlanks (blanks ++ cs) = skipBlanks cs :=
  List.dropWhile_append_of_pos h

theorem skipBlanks_cons {c : Char} {cs : List Char} (h : isSpace c = false) :
    skipBlanks (c :: cs) = c :: cs :=
  List.dropWhile_cons_of_neg (by simpa [isSpace] using h)

/-- The text begins with something that is neither a blank nor the end of a container. -/
def Begins (cs : List Char) : Prop :=
  ∃ c rest, cs = c :: rest ∧ isSpace c = false ∧ c ≠ ']' ∧ c ≠ '\x7d'

/-- The text does not go on like a number. -/
def Parts (cs : List Char) : Prop :=
  ∀ c rest, cs = c :: rest → c.isDigit = false ∧ c ≠ '.' ∧ c ≠ 'e' ∧ c ≠ 'E'

theorem Begins.append {cs more : List Char} (h : Begins cs) : Begins (cs ++ more) := by
  obtain ⟨c, rest, rfl, hc⟩ := h
  exact ⟨c, rest ++ more, rfl, hc⟩

theorem Begins.skipBlanks_eq {cs : List Char} (h : Begins cs) : skipBlanks cs = cs := by
  obtain ⟨c, rest, rfl, hc, -⟩ := h
  exact skipBlanks_cons hc

/-! ### Strings -/

theorem hexUnit?_control {n : Nat} (hn : n < 32) (rest : List Char) :
    hexUnit? ('0' :: '0' :: Nat.digitChar (n / 16) :: Nat.digitChar (n % 16) :: rest) =
      some (n, rest) := by
  have hdigits : ∀ n < 32, hexDigit? (Nat.digitChar (n / 16)) = some (n / 16) ∧
      hexDigit? (Nat.digitChar (n % 16)) = some (n % 16) := by decide
  obtain ⟨hhigh, hlow⟩ := hdigits n hn
  have hzero : hexDigit? '0' = some 0 := by decide
  simp only [hexUnit?, hzero, hhigh, hlow, bind, Option.bind, pure]
  congr 2
  omega

theorem stringBody?_plain {fuel : Nat} {acc rest : List Char} {c : Char} (hquote : c ≠ '"')
    (hslash : c ≠ '\\') (hcontrol : ¬ c.toNat < 32) :
    stringBody? (fuel + 1) acc (c :: rest) = stringBody? fuel (c :: acc) rest := by
  rw [stringBody?, if_neg (not_or.2 ⟨hcontrol, hslash⟩)]
  · exact hquote
  · exact fun _ heq => absurd heq hslash
  · exact fun _ _ heq => absurd heq hslash

/-- A character is read from its escape. -/
theorem stringBody?_escaped (fuel : Nat) (acc rest : List Char) (c : Char) :
    stringBody? (fuel + 1) acc (escaped c ++ rest) = stringBody? fuel (c :: acc) rest := by
  unfold escaped
  split
  case h_8 hquote hslash hnewline hreturn htab hback hfeed =>
    split
    · next hcontrol =>
      have hunit := hexUnit?_control hcontrol rest
      simp only [List.cons_append, List.nil_append, stringBody?, unicodeEscape?, hunit, bind,
        Option.bind, pure]
      rw [if_neg (by omega), if_neg (by omega)]
      simp
    · next hcontrol => exact stringBody?_plain hquote hslash hcontrol
  all_goals rfl

theorem stringBody?_quoted (s rest : List Char) : ∀ (fuel : Nat) (acc : List Char),
    s.length < fuel → stringBody? fuel acc (s.flatMap escaped ++ '"' :: rest) =
      some (String.ofList (acc.reverse ++ s), rest) := by
  induction s with
  | nil =>
    intro fuel acc hfuel
    obtain ⟨fuel, rfl⟩ := Nat.exists_eq_succ_of_ne_zero (Nat.ne_of_gt hfuel)
    simp [stringBody?]
  | cons c s ih =>
    intro fuel acc hfuel
    obtain ⟨fuel, rfl⟩ := Nat.exists_eq_succ_of_ne_zero (Nat.ne_of_gt (Nat.zero_lt_of_lt hfuel))
    rw [List.flatMap_cons, List.append_assoc, stringBody?_escaped,
      ih fuel (c :: acc) (by simpa using hfuel)]
    simp

/-! ### Numbers -/

/-- The number that digits make, from the left. -/
def natOf (acc : Nat) (ds : List Nat) : Nat := ds.foldl (fun n d => n * 10 + d) acc

theorem le_natOf (ds : List Nat) : ∀ acc, acc ≤ natOf acc ds := by
  induction ds with
  | nil => exact fun acc => Nat.le_refl acc
  | cons d ds ih =>
    intro acc
    have hrest := ih (acc * 10 + d)
    rw [natOf, List.foldl_cons]
    change acc * 10 + d ≤ List.foldl _ _ _ at hrest
    omega

theorem takeWord_eq (ds : List Nat) : ∀ acc, natOf acc ds < Nat.pow 2 64 →
    Literal.takeWord acc ds = (natOf acc ds, []) := by
  induction ds with
  | nil => exact fun _ _ => rfl
  | cons d ds ih =>
    intro acc h
    have hnext : acc * 10 + d < Nat.pow 2 64 := Nat.lt_of_le_of_lt (le_natOf ds (acc * 10 + d)) h
    rw [Literal.takeWord, if_pos hnext, ih _ h]
    rfl

/-- The digits of a number in the base ten. -/
def digitsOf (n : Nat) : List Nat := (Nat.toDigits 10 n).map fun c => c.toNat - 48

theorem natOf_digitsOf (n : Nat) : natOf 0 (digitsOf n) = n := by
  rw [natOf, digitsOf, List.foldl_map]
  refine Eq.trans ?_ (Nat.ofDigitChars_toDigits (b := 10) (n := n) (by decide) (by decide))
  rw [Nat.ofDigitChars_eq_foldl]
  congr 1
  funext m c
  rw [Nat.mul_comm]
  rfl

/-- Only the number zero begins with the digit zero. -/
theorem digitsOf_cons (n : Nat) : ∃ d rest, digitsOf n = d :: rest ∧ (d = 0 → rest = []) := by
  induction n using Nat.strongRecOn with
  | _ n ih =>
    by_cases hn : n < 10
    · refine ⟨n, [], ?_, fun _ => rfl⟩
      have : ∀ n < 10, digitsOf n = [n] := by decide
      exact this n hn
    · obtain ⟨d, rest, hdigits, hzero⟩ := ih (n / 10) (by omega)
      refine ⟨d, rest ++ [n % 10], ?_, fun hd => ?_⟩
      · have hlast : ∀ m < 10, (Nat.digitChar m).toNat - 48 = m := by decide
        rw [digitsOf, Nat.toDigits_of_base_le (by decide) (by omega), List.map_append, ← digitsOf, hdigits]
        simp [hlast (n % 10) (by omega)]
      · -- The number without its last digit would be zero.
        have hsmall := natOf_digitsOf (n / 10)
        rw [hdigits, hzero hd, hd] at hsmall
        simp [natOf] at hsmall
        omega

theorem digits_append {ds rest : List Char} (hds : ∀ c ∈ ds, c.isDigit = true) (hrest : Parts rest) :
    digits (ds ++ rest) = (ds.map fun c => c.toNat - 48, rest) := by
  have htake : rest.takeWhile Char.isDigit = [] ∧ rest.dropWhile Char.isDigit = rest := by
    cases rest with
    | nil => exact ⟨rfl, rfl⟩
    | cons c rest =>
      have hc := (hrest c rest rfl).1
      exact ⟨by rw [List.takeWhile_cons, hc]; rfl, by rw [List.dropWhile_cons, hc]; rfl⟩
  rw [digits, List.takeWhile_append_of_pos hds, List.dropWhile_append_of_pos hds, htake.1, htake.2,
    List.append_nil]

theorem number?_toDigits {n : Nat} (hn : n < Nat.pow 2 64) {rest : List Char} (hrest : Parts rest) :
    number? (Nat.toDigits 10 n ++ rest) = some (.int n, rest) := by
  have hds : ∀ c ∈ Nat.toDigits 10 n, c.isDigit = true :=
    fun c hc => Nat.isDigit_of_mem_toDigits (by decide) (by decide) hc
  have hdigits : digits (Nat.toDigits 10 n ++ rest) = (digitsOf n, rest) := digits_append hds hrest
  have hfraction : fraction? rest = some (none, rest) := by
    unfold fraction?
    split
    · exact absurd rfl (hrest _ _ rfl).2.1
    · rfl
  have hexponent : exponent? rest = some (none, rest) := by
    unfold exponent?
    split
    · next c cs =>
      rw [if_neg fun h => h.elim (hrest _ _ rfl).2.2.1 (hrest _ _ rfl).2.2.2]
    · rfl
  have hvalue : (⟨false, digitsOf n, [], false, 0⟩ : Literal).value? = some (.int n) := by
    have hword := takeWord_eq (digitsOf n) 0 (by rwa [natOf_digitsOf])
    simp [Literal.value?, hword, natOf_digitsOf]
  have hsign : ∀ cs', Nat.toDigits 10 n ++ rest ≠ '-' :: cs' := by
    intro cs' h
    obtain ⟨c, more, hcons⟩ := List.exists_cons_of_ne_nil (Nat.toDigits_ne_nil (n := n) (b := 10))
    rw [hcons] at h hds
    cases h
    exact absurd (hds '-' (by simp)) (by decide)
  obtain ⟨d, more, hcons, hzero⟩ := digitsOf_cons n
  rw [hcons] at hdigits hvalue
  unfold number?
  split
  next negative cs heq =>
  split at heq
  · next cs' hminus => exact absurd hminus (hsign cs')
  cases heq
  cases more with
  | nil => simp [hdigits, hfraction, hexponent, hvalue]
  | cons d' more =>
    have hd : d ≠ 0 := fun hd => absurd (hzero hd) (by simp)
    simp [hdigits, hfraction, hexponent, hvalue, hd]

/-! ### Values -/

mutual

/-- The value nests containers at most `depth` deep, and its numbers are natural numbers of 64
bits. -/
def Readable (depth : Nat) : Json → Prop
  | .null | .bool _ | .string _ => True
  | .int n => 0 ≤ n ∧ n < Nat.pow 2 64
  | .float _ => False
  | .array items => 0 < depth ∧ ItemsReadable (depth - 1) items
  | .object members => 0 < depth ∧ MembersReadable (depth - 1) members

def ItemsReadable (depth : Nat) : List Json → Prop
  | [] => True
  | j :: rest => Readable depth j ∧ ItemsReadable depth rest

def MembersReadable (depth : Nat) : List (String × Json) → Prop
  | [] => True
  | (_, j) :: rest => Readable depth j ∧ MembersReadable depth rest

end

mutual

/-- How deep the calls of the readers are nested for the value. -/
def weight : Json → Nat
  | .array items => 1 + itemsWeight items
  | .object members => 1 + membersWeight members
  | _ => 1

def itemsWeight : List Json → Nat
  | [] => 0
  | j :: rest => 1 + weight j + itemsWeight rest

def membersWeight : List (String × Json) → Nat
  | [] => 0
  | (_, j) :: rest => 1 + weight j + membersWeight rest

end

/-- Parts on lines of their own, from the first on; `closing` is what follows the last. -/
def lines (closing inner : List Char) (first : List Char) : List (List Char) → List Char
  | [] => first ++ closing
  | next :: rest => first ++ ',' :: '\n' :: (inner ++ lines closing inner next rest)

theorem toList_block (opening closing indent first : String) (rest : List String) :
    (block opening closing indent (first :: rest)).toList =
      opening.toList ++ '\n' :: ((indent ++ "  ").toList ++
        lines ('\n' :: (indent.toList ++ closing.toList)) (indent ++ "  ").toList first.toList
          (rest.map String.toList)) := by
  have hlines : ∀ (rest : List String) (first : String),
      (",\n".intercalate ((first :: rest).map (indent ++ "  " ++ ·)) ++ "\n" ++ indent ++ closing).toList =
        (indent ++ "  ").toList ++ lines ('\n' :: (indent.toList ++ closing.toList))
          (indent ++ "  ").toList first.toList (rest.map String.toList) := by
    intro rest
    induction rest with
    | nil =>
      intro first
      simp [lines]
    | cons next rest ih =>
      intro first
      have hnext := ih next
      simp only [List.map_cons, String.intercalate_cons_cons, String.toList_append, lines,
        List.append_assoc] at hnext ⊢
      rw [hnext]
      simp
  rw [block, if_neg (by simp)]
  simp only [String.toList_append, List.append_assoc] at hlines ⊢
  rw [hlines]
  simp

theorem toList_quoted (s : String) : (quoted s).toList = '"' :: (s.toList.flatMap escaped ++ ['"']) := by
  rw [quoted, String.toList_ofList]

theorem toList_natural (n : Nat) : (compact (.int n)).toList = Nat.toDigits 10 n := by
  rw [compact]
  exact Nat.toList_repr

theorem isSpace_of_isDigit {c : Char} (h : c.isDigit = true) :
    isSpace c = false ∧ c ≠ ']' ∧ c ≠ '\x7d' := by
  refine ⟨?_, ?_, ?_⟩
  · simp only [isSpace, Bool.or_eq_false_iff, beq_eq_false_iff_ne]
    refine ⟨⟨⟨?_, ?_⟩, ?_⟩, ?_⟩ <;> rintro rfl <;> cases h
  · rintro rfl
    cases h
  · rintro rfl
    cases h

theorem begins_quoted (s : String) : Begins (quoted s).toList := by
  rw [toList_quoted]
  exact ⟨'"', _, rfl, by decide⟩

theorem begins_block {opening : String} (h : Begins opening.toList) (closing indent : String)
    (parts : List String) : Begins (block opening closing indent parts).toList := by
  rw [block]
  split <;> simp only [String.toList_append, List.append_assoc] <;> exact h.append

/-- The text of a value begins with something to read. -/
theorem begins_prettyAt {depth : Nat} {j : Json} (h : Readable depth j) (indent : String) :
    Begins (prettyAt indent j).toList := by
  cases j with
  | null => exact ⟨'n', ['u', 'l', 'l'], by simp [prettyAt, compact], by decide⟩
  | bool b =>
    cases b with
    | true => exact ⟨'t', ['r', 'u', 'e'], by simp [prettyAt, compact], by decide⟩
    | false => exact ⟨'f', ['a', 'l', 's', 'e'], by simp [prettyAt, compact], by decide⟩
  | int n =>
    obtain ⟨n, rfl⟩ := Int.eq_ofNat_of_zero_le h.1
    obtain ⟨c, rest, hcons⟩ := List.exists_cons_of_ne_nil (Nat.toDigits_ne_nil (n := n) (b := 10))
    refine ⟨c, rest, (toList_natural n).trans hcons, isSpace_of_isDigit ?_⟩
    exact Nat.isDigit_of_mem_toDigits (n := n) (b := 10) (by decide) (by decide) (by simp [hcons])
  | float x => exact h.elim
  | string s => exact begins_quoted s
  | array items => exact begins_block ⟨'[', [], by simp, by decide⟩ _ _ _
  | object members => exact begins_block ⟨'\x7b', [], by simp, by decide⟩ _ _ _

theorem begins_lines {closing inner first : List Char} (h : Begins first) (rest : List (List Char)) :
    Begins (lines closing inner first rest) := by
  cases rest with
  | nil => exact h.append
  | cons next rest => exact h.append

theorem parts_cons {c : Char} {cs : List Char} (hdigit : c.isDigit = false) (hpoint : c ≠ '.')
    (hexponent : c ≠ 'e' ∧ c ≠ 'E') : Parts (c :: cs) := by
  intro d rest h
  cases h
  exact ⟨hdigit, hpoint, hexponent⟩

theorem parts_newline (cs : List Char) : Parts ('\n' :: cs) :=
  parts_cons rfl (by decide) (by decide)

theorem parts_comma (cs : List Char) : Parts (',' :: cs) :=
  parts_cons rfl (by decide) (by decide)

theorem value?_digits {fuel depth n : Nat} (hn : n < Nat.pow 2 64) {rest : List Char}
    (hrest : Parts rest) :
    value? (fuel + 1) depth (Nat.toDigits 10 n ++ rest) = some (.int n, rest) := by
  obtain ⟨c, more, hcons⟩ := List.exists_cons_of_ne_nil (Nat.toDigits_ne_nil (n := n) (b := 10))
  have hdigit : c.isDigit = true :=
    Nat.isDigit_of_mem_toDigits (n := n) (b := 10) (by decide) (by decide) (by simp [hcons])
  rw [← number?_toDigits hn hrest, hcons, List.cons_append]
  unfold value?
  -- Nothing else that a value begins with is a digit.
  split
  case h_7 => rfl
  all_goals
    next heq =>
    injection heq with hc
    rw [hc] at hdigit
    cases hdigit

theorem length_le_escaped (s : List Char) : s.length ≤ (s.flatMap escaped).length := by
  have hone (c : Char) : 0 < (escaped c).length := by
    unfold escaped
    split
    case h_8 => split <;> simp
    all_goals simp
  induction s with
  | nil => simp
  | cons c s ih =>
    have hc := hone c
    simp only [List.flatMap_cons, List.length_cons, List.length_append]
    omega

theorem value?_quoted (s : String) (fuel depth : Nat) (rest : List Char) :
    value? (fuel + 1) depth ((quoted s).toList ++ rest) = some (.string s, rest) := by
  have hlength := length_le_escaped s.toList
  rw [toList_quoted, List.cons_append, List.append_assoc, value?,
    List.singleton_append, stringBody?_quoted s.toList rest _ [] (by simp only [List.length_append]; omega)]
  simp

/-- Behind an opening bracket something is read unless the container is closed at once. -/
theorem value?_open {fuel depth : Nat} {cs : List Char} (h : Begins (skipBlanks cs)) :
    value? (fuel + 1) (depth + 1) ('[' :: cs) = items? fuel depth [] (skipBlanks cs) ∧
      value? (fuel + 1) (depth + 1) ('\x7b' :: cs) = members? fuel depth [] (skipBlanks cs) := by
  obtain ⟨c, rest, hcs, -, hbracket, hbrace⟩ := h
  constructor
  · conv_lhs => unfold value?
    simp only [hcs]
    split
    · next heq => cases heq
    · next heq => exact absurd (List.cons.inj heq).1 hbracket
    · next hsucc _ =>
      cases hsucc
      rfl
  · conv_lhs => unfold value?
    simp only [hcs]
    split
    · next heq => cases heq
    · next heq => exact absurd (List.cons.inj heq).1 hbrace
    · next hsucc _ =>
      cases hsucc
      rfl

/-- Between two parts, or behind the last, stand blanks only. -/
theorem skipBlanks_newline {blanks cs : List Char} (hblanks : ∀ c ∈ blanks, isSpace c = true) :
    skipBlanks ('\n' :: (blanks ++ cs)) = skipBlanks cs := by
  rw [← List.cons_append, skipBlanks_append]
  exact List.forall_mem_cons.2 ⟨rfl, hblanks⟩

theorem isSpace_inner {indent : String} (h : ∀ c ∈ indent.toList, isSpace c = true) :
    ∀ c ∈ (indent ++ "  ").toList, isSpace c = true := by
  intro c hc
  rw [String.toList_append, List.mem_append] at hc
  rcases hc with hc | hc
  · exact h c hc
  · have hblank : ∀ c ∈ "  ".toList, isSpace c = true := by simp [isSpace]
    exact hblank c hc

/-- The text of the value is read from the front as that value. -/
def Reads (j : Json) : Prop :=
  ∀ (indent : String) (fuel depth : Nat) (rest : List Char),
    (∀ c ∈ indent.toList, isSpace c = true) → Readable depth j → weight j ≤ fuel → Parts rest →
      value? fuel depth ((prettyAt indent j).toList ++ rest) = some (j, rest)

section
variable {indent inner : String} (hindent : ∀ c ∈ indent.toList, isSpace c = true)
  (hinner : ∀ c ∈ inner.toList, isSpace c = true) {depth : Nat} (rest : List Char)
include hindent hinner

omit hinner in
/-- What stands behind the last part of a container. -/
theorem skipBlanks_closing {c : Char} (hc : isSpace c = false) :
    skipBlanks ('\n' :: (indent.toList ++ [c]) ++ rest) = c :: rest := by
  rw [List.cons_append, List.append_assoc, skipBlanks_newline hindent]
  exact skipBlanks_cons hc

omit hindent in
/-- What stands behind the comma after a part. -/
theorem skipBlanks_lines (closing : List Char) {first : List Char} (hfirst : Begins first)
    (parts : List (List Char)) :
    skipBlanks ('\n' :: (inner.toList ++ lines closing inner.toList first parts) ++ rest) =
      lines closing inner.toList first parts ++ rest := by
  rw [List.cons_append, List.append_assoc, skipBlanks_newline hinner]
  exact (begins_lines hfirst parts).append.skipBlanks_eq

omit hindent in
theorem items?_item {fuel : Nat} {acc : List Json} {j : Json} (hread : Reads j)
    (h : Readable depth j) (hweight : weight j ≤ fuel) (hparts : Parts rest) :
    items? (fuel + 1) depth acc ((prettyAt inner j).toList ++ rest) =
      match skipBlanks rest with
      | ',' :: rest => items? fuel depth (j :: acc) (skipBlanks rest)
      | ']' :: rest => some (.array (j :: acc).reverse, rest)
      | _ => none := by
  rw [items?, hread inner fuel depth rest hinner h hweight hparts]
  rfl

theorem items?_lines (items : List Json) : ∀ (j : Json) (fuel : Nat) (acc : List Json),
    (∀ x ∈ j :: items, Reads x) → Readable depth j → ItemsReadable depth items →
    1 + weight j + itemsWeight items ≤ fuel →
    items? fuel depth acc (lines ('\n' :: (indent.toList ++ [']'])) inner.toList
      (prettyAt inner j).toList ((prettyItems inner items).map String.toList) ++ rest) =
        some (.array (acc.reverse ++ j :: items), rest) := by
  induction items with
  | nil =>
    intro j fuel acc hreads h _ hweight
    obtain ⟨fuel, rfl⟩ : ∃ n, fuel = n + 1 := ⟨fuel - 1, by omega⟩
    rw [prettyItems, List.map_nil, lines, List.append_assoc, List.cons_append,
      items?_item hinner _ (hreads j (by simp)) h (by omega) (parts_newline _),
      ← List.cons_append, skipBlanks_closing hindent rest (c := ']') rfl]
    simp
  | cons next items ih =>
    intro j fuel acc hreads h hitems hweight
    rw [itemsWeight] at hweight
    obtain ⟨fuel, rfl⟩ : ∃ n, fuel = n + 1 := ⟨fuel - 1, by omega⟩
    have hnext := ih next fuel (j :: acc) (fun x hx => hreads x (by simp [hx])) hitems.1 hitems.2 (by omega)
    rw [prettyItems, List.map_cons, lines, List.append_assoc, List.cons_append,
      items?_item hinner _ (hreads j (by simp)) h (by omega) (parts_comma _),
      skipBlanks_cons (c := ',') rfl]
    simp only [skipBlanks_lines hinner rest _ (begins_prettyAt hitems.1 inner), hnext]
    simp

omit hindent in
/-- The text of a member is read as its name and its value. -/
theorem members?_member {fuel : Nat} {acc : List (String × Json)} {name : String} {j : Json}
    (hread : Reads j) (h : Readable depth j) (hweight : weight j ≤ fuel) (hparts : Parts rest) :
    members? (fuel + 1) depth acc ((quoted name ++ ": " ++ prettyAt inner j).toList ++ rest) =
      match skipBlanks rest with
      | ',' :: rest => members? fuel depth ((name, j) :: acc) (skipBlanks rest)
      | '\x7d' :: rest => some (.object ((name, j) :: acc).reverse, rest)
      | _ => none := by
  have hlength := length_le_escaped name.toList
  have hname := stringBody?_quoted name.toList (':' :: ' ' :: ((prettyAt inner j).toList ++ rest))
    ((name.toList.flatMap escaped ++ '"' :: ':' :: ' ' :: ((prettyAt inner j).toList ++ rest)).length + 1) []
    (by simp only [List.length_append]; omega)
  have hvalue := hread inner fuel depth rest hinner h hweight hparts
  have hbegins : skipBlanks (' ' :: ((prettyAt inner j).toList ++ rest)) =
      (prettyAt inner j).toList ++ rest :=
    (begins_prettyAt h inner).append.skipBlanks_eq
  have htext : (quoted name ++ ": " ++ prettyAt inner j).toList ++ rest =
      '"' :: (name.toList.flatMap escaped ++ '"' :: ':' :: ' ' :: ((prettyAt inner j).toList ++ rest)) := by
    simp [toList_quoted]
  rw [htext, members?, hname]
  simp only [Option.bind_eq_bind, Option.bind_some, skipBlanks_cons (c := ':') rfl, hbegins, hvalue,
    List.reverse_nil, List.nil_append, String.ofList_toList]
  rfl

theorem members?_lines (members : List (String × Json)) :
    ∀ (m : String × Json) (fuel : Nat) (acc : List (String × Json)),
    (∀ x ∈ m :: members, Reads x.2) → Readable depth m.2 → MembersReadable depth members →
    1 + weight m.2 + membersWeight members ≤ fuel →
    members? fuel depth acc (lines ('\n' :: (indent.toList ++ ['\x7d'])) inner.toList
      (quoted m.1 ++ ": " ++ prettyAt inner m.2).toList
      ((prettyMembers inner members).map String.toList) ++ rest) =
        some (.object (acc.reverse ++ m :: members), rest) := by
  induction members with
  | nil =>
    intro m fuel acc hreads h _ hweight
    obtain ⟨fuel, rfl⟩ : ∃ n, fuel = n + 1 := ⟨fuel - 1, by omega⟩
    rw [prettyMembers, List.map_nil, lines, List.append_assoc, List.cons_append,
      members?_member hinner _ (hreads m (by simp)) h (by omega) (parts_newline _),
      ← List.cons_append, skipBlanks_closing hindent rest (c := '\x7d') rfl]
    simp
  | cons next members ih =>
    intro m fuel acc hreads h hmembers hweight
    rw [membersWeight] at hweight
    obtain ⟨fuel, rfl⟩ : ∃ n, fuel = n + 1 := ⟨fuel - 1, by omega⟩
    have hnext := ih next fuel (m :: acc) (fun x hx => hreads x (by simp [hx])) hmembers.1 hmembers.2
      (by omega)
    have hfirst : Begins (quoted next.1 ++ ": " ++ prettyAt inner next.2).toList := by
      simp only [String.toList_append, List.append_assoc]
      exact (begins_quoted next.1).append
    rw [prettyMembers, List.map_cons, lines, List.append_assoc, List.cons_append,
      members?_member hinner _ (hreads m (by simp)) h (by omega) (parts_comma _),
      skipBlanks_cons (c := ',') rfl]
    simp only [skipBlanks_lines hinner rest _ hfirst, hnext]
    simp

omit hinner in
theorem value?_array {fuel : Nat} (items : List Json) (hreads : ∀ x ∈ items, Reads x)
    (h : ItemsReadable depth items) (hweight : itemsWeight items ≤ fuel) :
    value? (fuel + 1) (depth + 1) ((prettyAt indent (.array items)).toList ++ rest) =
      some (.array items, rest) := by
  cases items with
  | nil => simp [prettyAt, prettyItems, block, value?, skipBlanks]
  | cons j items =>
    have hinner := isSpace_inner hindent
    have hskip := skipBlanks_lines hinner rest ('\n' :: (indent.toList ++ [']']))
      (begins_prettyAt h.1 (indent ++ "  "))
      ((prettyItems (indent ++ "  ") items).map String.toList)
    have hitems := items?_lines hindent hinner rest items j fuel [] hreads h.1 h.2 hweight
    have htext : (prettyAt indent (.array (j :: items))).toList ++ rest =
        '[' :: ('\n' :: ((indent ++ "  ").toList ++ lines ('\n' :: (indent.toList ++ [']']))
          (indent ++ "  ").toList (prettyAt (indent ++ "  ") j).toList
          ((prettyItems (indent ++ "  ") items).map String.toList)) ++ rest) := by
      rw [prettyAt, prettyItems, toList_block]
      simp
    rw [htext, (value?_open ?_).1, hskip, hitems]
    · rfl
    · rw [hskip]
      exact (begins_lines (begins_prettyAt h.1 _) _).append

omit hinner in
theorem value?_object {fuel : Nat} (members : List (String × Json)) (hreads : ∀ m ∈ members, Reads m.2)
    (h : MembersReadable depth members) (hweight : membersWeight members ≤ fuel) :
    value? (fuel + 1) (depth + 1) ((prettyAt indent (.object members)).toList ++ rest) =
      some (.object members, rest) := by
  cases members with
  | nil => simp [prettyAt, prettyMembers, block, value?, skipBlanks]
  | cons m members =>
    have hinner := isSpace_inner hindent
    have hfirst : Begins (quoted m.1 ++ ": " ++ prettyAt (indent ++ "  ") m.2).toList := by
      simp only [String.toList_append, List.append_assoc]
      exact (begins_quoted m.1).append
    have hskip := skipBlanks_lines hinner rest ('\n' :: (indent.toList ++ ['\x7d'])) hfirst
      ((prettyMembers (indent ++ "  ") members).map String.toList)
    have hmembers := members?_lines hindent hinner rest members m fuel [] hreads h.1 h.2 hweight
    have htext : (prettyAt indent (.object (m :: members))).toList ++ rest =
        '\x7b' :: ('\n' :: ((indent ++ "  ").toList ++ lines ('\n' :: (indent.toList ++ ['\x7d']))
          (indent ++ "  ").toList (quoted m.1 ++ ": " ++ prettyAt (indent ++ "  ") m.2).toList
          ((prettyMembers (indent ++ "  ") members).map String.toList)) ++ rest) := by
      rw [prettyAt, prettyMembers, toList_block]
      simp
    rw [htext, (value?_open ?_).2, hskip, hmembers]
    · rfl
    · rw [hskip]
      exact (begins_lines hfirst _).append

end

mutual

/-- Every value is read from its text. -/
theorem reads (j : Json) : Reads j := by
  intro indent fuel depth rest hindent h hweight hparts
  obtain ⟨fuel, rfl⟩ : ∃ n, fuel = n + 1 := ⟨fuel - 1, by cases j <;> simp [weight] at hweight <;> omega⟩
  cases j with
  | null => simp [prettyAt, compact, value?]
  | bool b => cases b <;> simp [prettyAt, compact, value?]
  | int n =>
    obtain ⟨n, rfl⟩ := Int.eq_ofNat_of_zero_le h.1
    rw [prettyAt, toList_natural]
    · exact value?_digits (Int.ofNat_lt.1 h.2) hparts
    all_goals simp
  | float x => exact h.elim
  | string s =>
    exact value?_quoted s fuel depth rest
  | array items =>
    obtain ⟨depth, rfl⟩ : ∃ n, depth = n + 1 := ⟨depth - 1, by have := h.1; omega⟩
    rw [weight] at hweight
    exact value?_array hindent rest items (reads_all items) h.2 (by omega)
  | object members =>
    obtain ⟨depth, rfl⟩ : ∃ n, depth = n + 1 := ⟨depth - 1, by have := h.1; omega⟩
    rw [weight] at hweight
    exact value?_object hindent rest members (reads_members members) h.2 (by omega)

theorem reads_all (items : List Json) : ∀ j ∈ items, Reads j := by
  cases items with
  | nil => simp
  | cons j items =>
    exact List.forall_mem_cons.2 ⟨reads j, reads_all items⟩

theorem reads_members (members : List (String × Json)) : ∀ m ∈ members, Reads m.2 := by
  cases members with
  | nil => simp
  | cons m members =>
    obtain ⟨name, j⟩ := m
    exact List.forall_mem_cons.2 ⟨reads j, reads_members members⟩

end

/-! ### Whole texts -/

theorem le_length_lines (closing inner : List Char) (parts : List (List Char)) :
    ∀ first : List Char, first.length + (parts.map List.length).sum + closing.length ≤
      (lines closing inner first parts).length := by
  induction parts with
  | nil =>
    intro first
    simp [lines]
  | cons next parts ih =>
    intro first
    have hrest := ih next
    simp only [lines, List.map_cons, List.sum_cons, List.length_append, List.length_cons]
    omega

/-- The text of a container is longer than its parts together. -/
theorem le_length_block {opening closing : String} (hopening : 0 < opening.length)
    (hclosing : 0 < closing.length) (indent : String) (parts : List String) :
    (parts.map String.length).sum + 2 ≤ (block opening closing indent parts).length := by
  cases parts with
  | nil =>
    simp [block]
    omega
  | cons first parts =>
    have hlines := le_length_lines ('\n' :: (indent.toList ++ closing.toList)) (indent ++ "  ").toList
      (parts.map String.toList) first.toList
    have hparts : (parts.map String.toList).map List.length = parts.map String.length := by
      simp [String.length_toList]
    rw [hparts] at hlines
    rw [← String.length_toList, toList_block]
    simp only [List.map_cons, List.sum_cons, List.length_append, List.length_cons,
      String.length_toList] at hlines ⊢
    omega

theorem Begins.length_pos {s : String} (h : Begins s.toList) : 0 < s.length := by
  obtain ⟨c, rest, hs, -⟩ := h
  rw [← String.length_toList, hs]
  exact Nat.zero_lt_succ _

mutual

/-- Twice the length of a text suffices for the readers. -/
theorem weight_lt (indent : String) {depth : Nat} {j : Json} (h : Readable depth j) :
    weight j < 2 * (prettyAt indent j).length := by
  have hlength := (begins_prettyAt h indent).length_pos
  cases j with
  | array items =>
    have hblock := le_length_block (by decide : 0 < "[".length) (by decide : 0 < "]".length) indent
      (prettyItems (indent ++ "  ") items)
    have hitems := itemsWeight_le (indent ++ "  ") h.2
    rw [weight, prettyAt]
    omega
  | object members =>
    have hblock := le_length_block (by decide : 0 < "\x7b".length) (by decide : 0 < "\x7d".length)
      indent (prettyMembers (indent ++ "  ") members)
    have hmembers := membersWeight_le (indent ++ "  ") h.2
    rw [weight, prettyAt]
    omega
  | _ =>
    rw [weight]
    · omega
    all_goals simp

theorem itemsWeight_le (indent : String) {depth : Nat} {items : List Json}
    (h : ItemsReadable depth items) :
    itemsWeight items ≤ 2 * ((prettyItems indent items).map String.length).sum := by
  cases items with
  | nil => simp [itemsWeight]
  | cons j items =>
    have hj := weight_lt indent h.1
    have hrest := itemsWeight_le indent h.2
    simp only [itemsWeight, prettyItems, List.map_cons, List.sum_cons]
    omega

theorem membersWeight_le (indent : String) {depth : Nat} {members : List (String × Json)}
    (h : MembersReadable depth members) :
    membersWeight members ≤ 2 * ((prettyMembers indent members).map String.length).sum := by
  cases members with
  | nil => simp [membersWeight]
  | cons m members =>
    obtain ⟨name, j⟩ := m
    have hj := weight_lt indent h.1
    have hrest := membersWeight_le indent h.2
    simp only [membersWeight, prettyMembers, List.map_cons, List.sum_cons, String.length_append]
    omega

end

/-- A value is read from its text. -/
theorem read?_pretty {j : Json} (h : Readable maxDepth j) : read? j.pretty = some j := by
  have hbegins : skipBlanks j.pretty.toList = j.pretty.toList := (begins_prettyAt h "").skipBlanks_eq
  have hweight : weight j ≤ 2 * j.pretty.toList.length + 2 := by
    have hlt : weight j < 2 * j.pretty.length := weight_lt "" h
    rw [String.length_toList]
    omega
  have hread : value? (2 * j.pretty.toList.length + 2) maxDepth (j.pretty.toList ++ []) = some (j, []) :=
    reads j "" _ maxDepth [] (by simp) h hweight (by simp [Parts])
  rw [List.append_nil] at hread
  rw [read?, readWithin?, hbegins]
  simp only [hread]
  rfl

end RelationalStore.Json

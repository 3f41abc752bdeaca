import Mathlib.Data.List.Forall2
import Mathlib.Data.List.Induction
import Mathlib.Data.List.Nodup
import RelationalStore.Proofs.ValueOrder

/- What the operations of a sorted map do to its entries, where the order of the keys is transitive
   on the keys that are in play (`P`) and not necessarily on all of them. The entries are in
   increasing order (`InOrder`), so a search finds the one entry with an equal key; `insert` puts
   one entry in and takes the one with an equal key out, `erase` only takes it out. Two lists of
   entries that match each other entry by entry are the same list up to the form of the keys
   (`Alike`), because both are sorted. -/
namespace RelationalStore.SortedMap

section Partners
variable {α β : Type} {R : α → β → Prop} {xs : List α} {ys : List β}

theorem exists_of_forall₂_left (h : List.Forall₂ R xs ys) {a : α} (ha : a ∈ xs) :
    ∃ b ∈ ys, R a b := by
  induction h with
  | nil => cases ha
  | cons hab _ ih =>
    rcases List.mem_cons.1 ha with rfl | ha
    · exact ⟨_, List.mem_cons_self, hab⟩
    · obtain ⟨b, hb, h⟩ := ih ha
      exact ⟨b, List.mem_cons_of_mem _ hb, h⟩

theorem exists_of_forall₂_right (h : List.Forall₂ R xs ys) {b : β} (hb : b ∈ ys) :
    ∃ a ∈ xs, R a b :=
  exists_of_forall₂_left (R := fun b a => R a b) h.flip hb

theorem forall₂_trans {γ : Type} {S : β → γ → Prop} {zs : List γ} (h : List.Forall₂ R xs ys)
    (h' : List.Forall₂ S ys zs) :
    List.Forall₂ (fun a c => ∃ b, R a b ∧ S b c) xs zs := by
  induction h generalizing zs with
  | nil =>
    cases h'
    exact .nil
  | cons hab _ ih =>
    cases h' with
    | cons hbc hrest => exact .cons ⟨_, hab, hbc⟩ (ih hrest)

theorem exists_of_rel {x : Option α} {y : Option β} (h : Option.Rel R x y) {a : α} (hx : x = some a) :
    ∃ b, y = some b ∧ R a b := by
  subst hx
  cases h with
  | some hab => exact ⟨_, rfl, hab⟩

theorem eq_none_of_rel {x : Option α} {y : Option β} (h : Option.Rel R x y) (hx : x = none) :
    y = none := by
  subst hx
  cases h
  rfl

/-- Two options that look the same through a function. -/
theorem exists_of_map_eq {γ : Type} {x y : Option α} {f : α → γ} (h : x.map f = y.map f) {a : α}
    (hx : x = some a) : ∃ b, y = some b ∧ f b = f a := by
  rw [hx, Option.map_some, eq_comm, Option.map_eq_some_iff] at h
  exact h

theorem map_eq_of_rel {γ : Type} {x : Option α} {y : Option β} {f : α → γ} {g : β → γ}
    (h : Option.Rel R x y) (hfg : ∀ a b, R a b → f a = g b) : x.map f = y.map g := by
  cases h with
  | some hab => exact congrArg some (hfg _ _ hab)
  | none => rfl

theorem rel_imp {S : α → β → Prop} {x : Option α} {y : Option β} (h : Option.Rel R x y)
    (hRS : ∀ a b, R a b → S a b) : Option.Rel S x y := by
  cases h with
  | some hab => exact .some (hRS _ _ hab)
  | none => exact .none

/-- Partners that pass one test alike are found together. -/
theorem rel_find? {p : α → Bool} {q : β → Bool} (h : List.Forall₂ R xs ys)
    (hpq : ∀ a ∈ xs, ∀ b ∈ ys, R a b → p a = q b) : Option.Rel R (xs.find? p) (ys.find? q) := by
  induction h with
  | nil => exact .none
  | @cons a b xs ys hab _ ih =>
    rw [List.find?_cons, List.find?_cons, hpq a List.mem_cons_self b List.mem_cons_self hab]
    cases q b with
    | true => exact .some hab
    | false =>
      exact ih fun x hx y hy => hpq x (List.mem_cons_of_mem a hx) y (List.mem_cons_of_mem b hy)

theorem filterMap_eq_of_forall₂ {γ : Type} {f : α → Option γ} {g : β → Option γ}
    (h : List.Forall₂ R xs ys) (hfg : ∀ a ∈ xs, ∀ b ∈ ys, R a b → f a = g b) :
    xs.filterMap f = ys.filterMap g := by
  induction h with
  | nil => rfl
  | @cons a b xs ys hab _ ih =>
    rw [List.filterMap_cons, List.filterMap_cons,
      hfg a List.mem_cons_self b List.mem_cons_self hab,
      ih fun x hx y hy => hfg x (List.mem_cons_of_mem a hx) y (List.mem_cons_of_mem b hy)]

/-- Where no two elements have the same name, each is found by its own. -/
theorem find?_of_nodup {γ : Type} [BEq γ] [LawfulBEq γ] {name : α → γ}
    (hnodup : (xs.map name).Nodup) {a : α} (ha : a ∈ xs) : xs.find? (name · == name a) = some a := by
  cases hfind : xs.find? (name · == name a) with
  | none =>
    have := List.find?_eq_none.1 hfind a ha
    simp at this
  | some b =>
    have hname : name b = name a := by simpa using List.find?_some hfind
    rw [List.inj_on_of_nodup_map hnodup (List.mem_of_find?_eq_some hfind) ha hname]

end Partners

variable {κ ν : Type}

@[simp] theorem entries_empty : (∅ : SortedMap κ ν).entries = [] := rfl

@[simp] theorem keys_empty : (∅ : SortedMap κ ν).keys = [] := rfl

variable [Ord κ]

/-- Strictly increasing keys, on which the order is transitive. -/
structure InOrder (P : κ → Prop) (entries : List (κ × ν)) : Prop where
  sorted : entries.Pairwise fun a b => compare a.1 b.1 = .lt
  keys : ∀ e ∈ entries, P e.1

theorem InOrder.nil {P : κ → Prop} : InOrder P ([] : List (κ × ν)) := ⟨.nil, by simp⟩

theorem InOrder.tail {P : κ → Prop} {e : κ × ν} {rest : List (κ × ν)} (h : InOrder P (e :: rest)) :
    InOrder P rest :=
  ⟨(List.pairwise_cons.1 h.sorted).2, fun a ha => h.keys a (List.mem_cons_of_mem e ha)⟩

theorem InOrder.head_lt {P : κ → Prop} {e : κ × ν} {rest : List (κ × ν)}
    (h : InOrder P (e :: rest)) : ∀ a ∈ rest, compare e.1 a.1 = .lt :=
  (List.pairwise_cons.1 h.sorted).1

/-- A list in increasing order of some key is determined by what it has. -/
theorem eq_of_increasing [Std.OrientedOrd κ] {α : Type} (f : α → κ) {xs ys : List α}
    (hx : xs.Pairwise fun a b => compare (f a) (f b) = .lt)
    (hy : ys.Pairwise fun a b => compare (f a) (f b) = .lt) (h : ∀ a, a ∈ xs ↔ a ∈ ys) :
    xs = ys := by
  have nodup {l : List α} (hl : l.Pairwise fun a b => compare (f a) (f b) = .lt) : l.Nodup :=
    hl.imp fun hlt heq => by simp [heq, Std.ReflOrd.compare_self] at hlt
  refine List.Perm.eq_of_pairwise (fun a b _ _ hab hba => ?_) hx hy
    ((List.perm_ext_iff_of_nodup (nodup hx) (nodup hy)).2 h)
  rw [Std.OrientedOrd.eq_swap, hba] at hab
  cases hab

/-! ### Searching -/

theorem mem_of_entryAt? {k : κ} {entries : List (κ × ν)} {e : κ × ν}
    (h : entryAt? k entries = some e) : e ∈ entries ∧ compare k e.1 = .eq := by
  induction entries with
  | nil => simp [entryAt?] at h
  | cons a rest ih =>
    simp only [entryAt?] at h
    split at h
    · cases h
    · next hk =>
      cases h
      exact ⟨List.mem_cons_self, hk⟩
    · obtain ⟨hm, hk⟩ := ih h
      exact ⟨List.mem_cons_of_mem a hm, hk⟩

theorem mem_values_of_get? {m : SortedMap κ ν} {k : κ} {v : ν} (h : m.get? k = some v) :
    v ∈ m.values := by
  obtain ⟨e, he, rfl⟩ := Option.map_eq_some_iff.1 h
  exact List.mem_map_of_mem (mem_of_entryAt? he).1

theorem eraseEntry_sublist (k : κ) : ∀ entries : List (κ × ν), (eraseEntry k entries).Sublist entries
  | [] => .slnil
  | e :: rest => by
    simp only [eraseEntry]
    split
    · exact .refl _
    · exact List.sublist_cons_self e rest
    · exact (eraseEntry_sublist k rest).cons_cons e

/-- What holds of the keys and of one more holds of the keys after that one is put in. -/
theorem forall_insertEntry {P : κ → Prop} {k : κ} {v : ν} {entries : List (κ × ν)} (hk : P k)
    (h : ∀ e ∈ entries, P e.1) : ∀ e ∈ insertEntry k v entries, P e.1 := by
  induction entries with
  | nil => simpa [insertEntry] using hk
  | cons e rest ih =>
    simp only [List.forall_mem_cons] at h
    simp only [insertEntry]
    split <;> simp only [List.forall_mem_cons]
    · exact ⟨hk, h⟩
    · exact h
    · exact ⟨h.1, ih h.2⟩

theorem InOrder.erase {P : κ → Prop} {entries : List (κ × ν)} (k : κ) (ho : InOrder P entries) :
    InOrder P (eraseEntry k entries) :=
  ⟨ho.sorted.sublist (eraseEntry_sublist k entries),
    fun e he => ho.keys e ((eraseEntry_sublist k entries).subset he)⟩

/-- The form in which `insert` stores a key: the one that is there already, if any. -/
def storedForm (k : κ) (entries : List (κ × ν)) : κ := (entryAt? k entries).elim k (·.1)

theorem storedForm_of_absent {k : κ} {entries : List (κ × ν)} (h : entryAt? k entries = none) :
    storedForm k entries = k := by
  simp [storedForm, h]

theorem storedForm_in {P : κ → Prop} {k : κ} {entries : List (κ × ν)} (ho : InOrder P entries)
    (hk : P k) : P (storedForm k entries) := by
  unfold storedForm
  cases h : entryAt? k entries with
  | none => exact hk
  | some e => exact ho.keys e (mem_of_entryAt? h).1

theorem compare_storedForm [Std.OrientedOrd κ] (k : κ) (entries : List (κ × ν)) :
    compare k (storedForm k entries) = .eq := by
  unfold storedForm
  cases h : entryAt? k entries with
  | none => exact Std.ReflOrd.compare_self
  | some e => exact (mem_of_entryAt? h).2

section Lawful
variable [Std.OrientedOrd κ] {P : κ → Prop} (hP : TransOn (compare : κ → κ → Ordering) P)
  {k : κ} {v : ν} {entries : List (κ × ν)}
include hP

/-- Below the first key there is nothing to be found. -/
theorem gt_of_lt_head {e : κ × ν} {rest : List (κ × ν)} (ho : InOrder P (e :: rest)) (hk : P k)
    (hlt : compare k e.1 = .lt) : ∀ a ∈ e :: rest, compare k a.1 = .lt := by
  intro a ha
  rcases List.mem_cons.1 ha with rfl | ha
  · exact hlt
  · exact hP.lt_trans hk (ho.keys e List.mem_cons_self) (ho.keys a (List.mem_cons_of_mem e ha)) hlt
      (ho.head_lt a ha)

theorem entryAt?_eq_some_iff (ho : InOrder P entries) (hk : P k) {e : κ × ν} :
    entryAt? k entries = some e ↔ e ∈ entries ∧ compare k e.1 = .eq := by
  refine ⟨mem_of_entryAt?, ?_⟩
  induction entries with
  | nil => simp
  | cons a rest ih =>
    intro hboth
    obtain ⟨hm, he⟩ := hboth
    have hPa := ho.keys a List.mem_cons_self
    have hPe := ho.keys e hm
    simp only [entryAt?]
    cases hka : compare k a.1 with
    | lt =>
      -- The search stops here, and rightly: what lies beyond is greater still.
      have := gt_of_lt_head hP ho hk hka e hm
      rw [he] at this
      cases this
    | eq =>
      rcases List.mem_cons.1 hm with rfl | hm
      · rfl
      · have := ho.head_lt e hm
        rw [← hP.congr_left hk hPa hPe hka, he] at this
        cases this
    | gt =>
      rcases List.mem_cons.1 hm with rfl | hm
      · rw [he] at hka
        cases hka
      · exact ih ho.tail ⟨hm, he⟩

theorem entryAt?_eq_none_iff (ho : InOrder P entries) (hk : P k) :
    entryAt? k entries = none ↔ ∀ e ∈ entries, compare k e.1 ≠ .eq := by
  constructor
  · intro h e hm he
    rw [(entryAt?_eq_some_iff hP ho hk).2 ⟨hm, he⟩] at h
    cases h
  · intro h
    cases hs : entryAt? k entries with
    | none => rfl
    | some e =>
      obtain ⟨hm, he⟩ := mem_of_entryAt? hs
      exact absurd he (h e hm)

/-- Equal keys find the same entry. -/
theorem entryAt?_congr (ho : InOrder P entries) {k' : κ} (hk : P k) (hk' : P k')
    (h : compare k k' = .eq) : entryAt? k entries = entryAt? k' entries := by
  ext e
  rw [entryAt?_eq_some_iff hP ho hk, entryAt?_eq_some_iff hP ho hk']
  constructor
  · intro hboth
    obtain ⟨hm, he⟩ := hboth
    exact ⟨hm, by rw [← hP.congr_left hk hk' (ho.keys e hm) h, he]⟩
  · intro hboth
    obtain ⟨hm, he⟩ := hboth
    exact ⟨hm, by rw [hP.congr_left hk hk' (ho.keys e hm) h, he]⟩

/-- Two entries with equal keys are one entry. -/
theorem eq_of_compare_eq (ho : InOrder P entries) {a b : κ × ν} (ha : a ∈ entries)
    (hb : b ∈ entries) (h : compare a.1 b.1 = .eq) : a = b := by
  have hPa := ho.keys a ha
  have h₁ := (entryAt?_eq_some_iff hP ho hPa).2 ⟨ha, Std.ReflOrd.compare_self⟩
  have h₂ := (entryAt?_eq_some_iff hP ho hPa).2 ⟨hb, h⟩
  rw [h₁] at h₂
  exact Option.some.inj h₂

/-! ### Taking an entry out -/

theorem mem_eraseEntry (ho : InOrder P entries) (hk : P k) {e : κ × ν} :
    e ∈ eraseEntry k entries ↔ e ∈ entries ∧ compare k e.1 ≠ .eq := by
  induction entries with
  | nil => simp [eraseEntry]
  | cons a rest ih =>
    have hPa := ho.keys a List.mem_cons_self
    simp only [eraseEntry]
    cases hka : compare k a.1 with
    | lt =>
      constructor
      · intro hm
        refine ⟨hm, ?_⟩
        rw [gt_of_lt_head hP ho hk hka e hm]
        simp
      · exact fun h => h.1
    | eq =>
      constructor
      · intro hm
        refine ⟨List.mem_cons_of_mem a hm, ?_⟩
        rw [hP.congr_left hk hPa (ho.keys e (List.mem_cons_of_mem a hm)) hka, ho.head_lt e hm]
        simp
      · intro hboth
        obtain ⟨hm, he⟩ := hboth
        rcases List.mem_cons.1 hm with rfl | hm
        · exact absurd hka he
        · exact hm
    | gt =>
      simp only [List.mem_cons, ih ho.tail]
      constructor
      · intro hcase
        rcases hcase with rfl | ⟨hm, he⟩
        · exact ⟨.inl rfl, by simp [hka]⟩
        · exact ⟨.inr hm, he⟩
      · intro hboth
        obtain ⟨rfl | hm, he⟩ := hboth
        · exact .inl rfl
        · exact .inr ⟨hm, he⟩

/-! ### Putting an entry in -/

theorem mem_insertEntry (ho : InOrder P entries) (hk : P k) {e : κ × ν} :
    e ∈ insertEntry k v entries ↔
      e = (storedForm k entries, v) ∨ e ∈ entries ∧ compare k e.1 ≠ .eq := by
  induction entries with
  | nil => simp [insertEntry, storedForm, entryAt?]
  | cons a rest ih =>
    have hPa := ho.keys a List.mem_cons_self
    simp only [insertEntry, storedForm, entryAt?]
    cases hka : compare k a.1 with
    | lt =>
      simp only [Option.elim, List.mem_cons]
      constructor
      · intro hcase
        rcases hcase with rfl | hm
        · exact .inl rfl
        · refine .inr ⟨hm, ?_⟩
          rw [gt_of_lt_head hP ho hk hka e (List.mem_cons.2 hm)]
          simp
      · intro hcase
        rcases hcase with rfl | ⟨hm, -⟩
        · exact .inl rfl
        · exact .inr hm
    | eq =>
      simp only [Option.elim, List.mem_cons]
      constructor
      · intro hcase
        rcases hcase with rfl | hm
        · exact .inl rfl
        · refine .inr ⟨.inr hm, ?_⟩
          rw [hP.congr_left hk hPa (ho.keys e (List.mem_cons_of_mem a hm)) hka, ho.head_lt e hm]
          simp
      · intro hcase
        rcases hcase with rfl | ⟨rfl | hm, he⟩
        · exact .inl rfl
        · exact absurd hka he
        · exact .inr hm
    | gt =>
      simp only [List.mem_cons, ih ho.tail, storedForm]
      constructor
      · intro hcase
        rcases hcase with rfl | rfl | ⟨hm, he⟩
        · exact .inr ⟨.inl rfl, by simp [hka]⟩
        · exact .inl rfl
        · exact .inr ⟨.inr hm, he⟩
      · intro hcase
        rcases hcase with rfl | ⟨rfl | hm, he⟩
        · exact .inr (.inl rfl)
        · exact .inl rfl
        · exact .inr (.inr ⟨hm, he⟩)

theorem InOrder.insert (ho : InOrder P entries) (hk : P k) :
    InOrder P (insertEntry k v entries) := by
  refine ⟨?_, ?_⟩
  · induction entries with
    | nil => simp [insertEntry]
    | cons a rest ih =>
      have hPa := ho.keys a List.mem_cons_self
      simp only [insertEntry]
      cases hka : compare k a.1 with
      | lt => exact List.pairwise_cons.2 ⟨gt_of_lt_head hP ho hk hka, ho.sorted⟩
      | eq => exact List.pairwise_cons.2 ⟨ho.head_lt, ho.tail.sorted⟩
      | gt =>
        refine List.pairwise_cons.2 ⟨?_, ih ho.tail⟩
        intro b hb
        rcases (mem_insertEntry hP ho.tail hk).1 hb with rfl | ⟨hb, -⟩
        · have hform := compare_storedForm k rest
          rw [← hP.congr_right hPa hk (storedForm_in ho.tail hk) hform]
          exact Std.OrientedCmp.lt_of_gt hka
        · exact ho.head_lt b hb
  · intro e he
    -- The key is stored in the form that is there already, which keeps to `P` as the others do.
    rcases (mem_insertEntry hP ho hk).1 he with rfl | ⟨he, -⟩
    · exact storedForm_in ho hk
    · exact ho.keys e he

/-! ### Looking up -/

variable {k' : κ} {m : SortedMap κ ν}

/-- The entries need not be sorted for this. -/
theorem get?_insert (hm : ∀ e ∈ m.entries, P e.1) (hk : P k) (hk' : P k') :
    (m.insert k v).get? k' = if compare k k' = .eq then some v else m.get? k' := by
  obtain ⟨entries⟩ := m
  simp only [get?, SortedMap.insert]
  induction entries with
  | nil =>
    simp only [insertEntry, entryAt?]
    cases h : compare k' k with
    | eq => simp [Std.OrientedCmp.eq_symm h]
    | lt => simp [Std.OrientedCmp.gt_of_lt h]
    | gt => simp [Std.OrientedCmp.lt_of_gt h]
  | cons a rest ih =>
    simp only [List.mem_cons, forall_eq_or_imp] at hm
    simp only [insertEntry]
    cases hka : compare k a.1 with
    | lt =>
      cases h : compare k' k with
      | eq => simp [entryAt?, h, Std.OrientedCmp.eq_symm h]
      | lt => simp [entryAt?, h, Std.OrientedCmp.gt_of_lt h, hP.lt_trans hk' hk hm.1 h hka]
      | gt => simp [entryAt?, h, Std.OrientedCmp.lt_of_gt h]
    | eq =>
      rw [hP.congr_left hk hm.1 hk' hka]
      cases h : compare k' a.1 with
      | eq => simp [entryAt?, h, Std.OrientedCmp.eq_symm h]
      | lt => simp [entryAt?, h, Std.OrientedCmp.gt_of_lt h]
      | gt => simp [entryAt?, h, Std.OrientedCmp.lt_of_gt h]
    | gt =>
      cases h : compare k' a.1 with
      | eq =>
        -- The entry that is found lies before the place where the new one goes.
        have hkk' : compare k k' = .gt := by rw [hP.congr_right hk hk' hm.1 h, hka]
        simp [entryAt?, h, hkk']
      | lt =>
        have hkk' : compare k' k = .lt :=
          hP.lt_trans hk' hm.1 hk h (Std.OrientedCmp.lt_of_gt hka)
        simp [entryAt?, h, Std.OrientedCmp.gt_of_lt hkk']
      | gt =>
        simp only [entryAt?, h]
        exact ih hm.2

theorem get?_erase (ho : InOrder P m.entries) (hk : P k) (hk' : P k') :
    (m.erase k).get? k' = if compare k k' = .eq then none else m.get? k' := by
  have hfind : ∀ e, entryAt? k' (eraseEntry k m.entries) = some e ↔
      entryAt? k' m.entries = some e ∧ compare k k' ≠ .eq := by
    intro e
    rw [entryAt?_eq_some_iff hP (ho.erase k) hk', entryAt?_eq_some_iff hP ho hk',
      mem_eraseEntry hP ho hk]
    constructor
    · intro hboth
      obtain ⟨⟨hm, hne⟩, he⟩ := hboth
      refine ⟨⟨hm, he⟩, fun h => hne ?_⟩
      rw [hP.congr_left hk hk' (ho.keys e hm) h, he]
    · intro hboth
      obtain ⟨⟨hm, he⟩, hne⟩ := hboth
      refine ⟨⟨hm, fun h => hne ?_⟩, he⟩
      exact hP.eq_trans hk (ho.keys e hm) hk' h (Std.OrientedCmp.eq_symm he)
  simp only [get?, SortedMap.erase]
  split
  · next h =>
    cases hs : entryAt? k' (eraseEntry k m.entries) with
    | none => rfl
    | some e => exact absurd h ((hfind e).1 hs).2
  · next h =>
    congr 1
    ext e
    rw [hfind e]
    exact ⟨fun h => h.1, fun hs => ⟨hs, h⟩⟩

theorem get?_congr (ho : InOrder P m.entries) (hk : P k) (hk' : P k') (h : compare k k' = .eq) :
    m.get? k = m.get? k' := by
  rw [get?, get?, entryAt?_congr hP ho hk hk' h]

end Lawful

/-! ### Keys without several forms -/

/-- A value that replaces another one leaves the keys as they are. -/
theorem keys_insert {m : SortedMap κ ν} {k : κ} {v : ν} (h : (m.get? k).isSome) :
    (m.insert k v).keys = m.keys := by
  have hentries (entries : List (κ × ν)) (h : (entryAt? k entries).isSome) :
      (insertEntry k v entries).map (·.1) = entries.map (·.1) := by
    induction entries with
    | nil => cases h
    | cons e rest ih =>
      rw [insertEntry]
      rw [entryAt?] at h
      cases hc : compare k e.1 with
      | lt => simp [hc] at h
      | eq => rfl
      | gt =>
        simp only [hc] at h
        simp [ih h]
  exact hentries m.entries (by simpa [get?] using h)

section Total
variable [Std.TransOrd κ] [Std.LawfulEqOrd κ] {k k' : κ} {v : ν} {m : SortedMap κ ν}

omit [Std.LawfulEqOrd κ] in
theorem transOn_true : TransOn (compare : κ → κ → Ordering) fun _ => True :=
  fun _ _ _ _ _ _ => Std.TransCmp.isLE_trans

theorem get?_insert_eq [DecidableEq κ] :
    (m.insert k v).get? k' = if k = k' then some v else m.get? k' := by
  rw [get?_insert transOn_true (fun _ _ => trivial) trivial trivial]
  simp only [Std.LawfulEqCmp.compare_eq_iff_eq]

theorem get?_insert_of_ne (h : k ≠ k') : (m.insert k v).get? k' = m.get? k' := by
  classical rw [get?_insert_eq, if_neg h]

/-- The entries are in order on all keys. -/
abbrev Ordered (m : SortedMap κ ν) : Prop := InOrder (fun _ => True) m.entries

omit [Std.LawfulEqOrd κ] in
theorem Ordered.insert (h : Ordered m) : Ordered (m.insert k v) :=
  InOrder.insert transOn_true h trivial

omit [Std.TransOrd κ] in
theorem mem_entries_of_get? (h : m.get? k = some v) : (k, v) ∈ m.entries := by
  obtain ⟨e, he, rfl⟩ := Option.map_eq_some_iff.1 h
  obtain ⟨hm, hk⟩ := mem_of_entryAt? he
  rw [Std.LawfulEqCmp.compare_eq_iff_eq.1 hk]
  exact hm

theorem Ordered.get?_eq_some_iff (h : Ordered m) : m.get? k = some v ↔ (k, v) ∈ m.entries := by
  refine ⟨mem_entries_of_get?, fun hm => Option.map_eq_some_iff.2 ⟨(k, v), ?_, rfl⟩⟩
  exact (entryAt?_eq_some_iff transOn_true h trivial).2 ⟨hm, Std.ReflOrd.compare_self⟩

theorem Ordered.mem_values_iff (h : Ordered m) : v ∈ m.values ↔ ∃ k, m.get? k = some v := by
  rw [values, List.mem_map]
  constructor
  · intro hex
    obtain ⟨e, he, rfl⟩ := hex
    exact ⟨e.1, h.get?_eq_some_iff.2 he⟩
  · intro hex
    obtain ⟨k, hk⟩ := hex
    exact ⟨(k, v), h.get?_eq_some_iff.1 hk, rfl⟩

theorem Ordered.mem_keys_iff (h : Ordered m) : k ∈ m.keys ↔ (m.get? k).isSome := by
  rw [keys, List.mem_map, Option.isSome_iff_exists]
  constructor
  · intro hex
    obtain ⟨e, he, rfl⟩ := hex
    exact ⟨e.2, h.get?_eq_some_iff.2 he⟩
  · intro hex
    obtain ⟨v, hv⟩ := hex
    exact ⟨(k, v), h.get?_eq_some_iff.1 hv, rfl⟩

omit [Std.TransOrd κ] in
theorem Ordered.nodup_keys (h : Ordered m) : m.keys.Nodup := by
  refine List.pairwise_map.2 (h.sorted.imp fun hlt heq => ?_)
  rw [heq, Std.ReflOrd.compare_self] at hlt
  cases hlt

omit [Std.TransOrd κ] [Std.LawfulEqOrd κ] in
theorem ofList_append (pairs : List (κ × ν)) (p : κ × ν) :
    ofList (pairs ++ [p]) = (ofList pairs).insert p.1 p.2 := by
  simp [ofList]

/-- Maps in order with equal values, up to a function, under every key. -/
theorem map_values_eq {ω : Type} {f : ν → ω} {a b : SortedMap κ ν} (ha : Ordered a) (hb : Ordered b)
    (h : ∀ k, (a.get? k).map f = (b.get? k).map f) : a.values.map f = b.values.map f := by
  let image (e : κ × ν) : κ × ω := (e.1, f e.2)
  have hmem {c : SortedMap κ ν} (hc : Ordered c) (k : κ) (w : ω) :
      (k, w) ∈ c.entries.map image ↔ (c.get? k).map f = some w := by
    rw [List.mem_map, Option.map_eq_some_iff]
    constructor
    · rintro ⟨⟨k', v⟩, he, heq⟩
      cases heq
      exact ⟨v, hc.get?_eq_some_iff.2 he, rfl⟩
    · rintro ⟨v, hv, rfl⟩
      exact ⟨(k, v), hc.get?_eq_some_iff.1 hv, rfl⟩
  have heq : a.entries.map image = b.entries.map image :=
    eq_of_increasing (·.1) (List.pairwise_map.2 ha.sorted) (List.pairwise_map.2 hb.sorted)
      fun (k, w) => by rw [hmem ha, hmem hb, h]
  have hvalues (c : SortedMap κ ν) : c.values.map f = (c.entries.map image).map (·.2) := by
    rw [values, List.map_map, List.map_map]
    rfl
  rw [hvalues, hvalues, heq]

omit [Std.LawfulEqOrd κ] in
theorem ordered_ofList (pairs : List (κ × ν)) : Ordered (ofList pairs) := by
  induction pairs using List.reverseRecOn with
  | nil => exact .nil
  | append_singleton pairs p ih =>
    rw [ofList_append]
    exact ih.insert

/-- What is found in the map of a list is in the list. -/
theorem mem_of_get?_ofList {pairs : List (κ × ν)} (h : (ofList pairs).get? k = some v) :
    (k, v) ∈ pairs := by
  classical
  induction pairs using List.reverseRecOn with
  | nil => cases h
  | append_singleton pairs p ih =>
    rw [ofList_append, get?_insert_eq] at h
    split at h
    · next hk =>
      cases h
      rw [← hk]
      simp
    · exact List.mem_append_left _ (ih h)

theorem isSome_get?_ofList {pairs : List (κ × ν)} :
    ((ofList pairs).get? k).isSome ↔ k ∈ pairs.map (·.1) := by
  classical
  induction pairs using List.reverseRecOn with
  | nil => simp [ofList]
  | append_singleton pairs p ih =>
    rw [ofList_append, get?_insert_eq, List.map_append, List.mem_append, ← ih]
    split
    · next hk => simp [hk]
    · next hk => simp [Ne.symm hk]

theorem get?_ofList_of_mem {pairs : List (κ × ν)} (hnodup : (pairs.map (·.1)).Nodup)
    (h : (k, v) ∈ pairs) : (ofList pairs).get? k = some v := by
  obtain ⟨w, hw⟩ := Option.isSome_iff_exists.1 (isSome_get?_ofList.2 (List.mem_map_of_mem h))
  have hmem := mem_of_get?_ofList hw
  rw [hw, (Prod.mk.inj (List.inj_on_of_nodup_map hnodup hmem h rfl)).2]

/-- Pairs that are put into a map hide what it has. -/
theorem get?_foldl_insert (pairs : List (κ × ν)) :
    (pairs.foldl (fun m e => m.insert e.1 e.2) m).get? k =
      ((ofList pairs).get? k).or (m.get? k) := by
  classical
  induction pairs using List.reverseRecOn with
  | nil => rfl
  | append_singleton pairs p ih =>
    rw [List.foldl_append, ofList_append, List.foldl_cons, List.foldl_nil, get?_insert_eq, ih,
      get?_insert_eq]
    split <;> rfl

theorem get?_insertAll {other : SortedMap κ ν} (h : Ordered other) :
    (m.insertAll other).get? k = (other.get? k).or (m.get? k) := by
  rw [insertAll, get?_foldl_insert]
  congr 1
  refine Option.ext fun v => ?_
  rw [h.get?_eq_some_iff]
  exact ⟨mem_of_get?_ofList, get?_ofList_of_mem h.nodup_keys⟩

/-- The members of the set of a list. -/
theorem mem_keys_set {items : List κ} : k ∈ (SortedSet.ofList items).keys ↔ k ∈ items := by
  rw [SortedSet.ofList, (ordered_ofList _).mem_keys_iff, isSome_get?_ofList, List.map_map]
  simp

/-- The keys of the map of a list do not depend on the values. -/
theorem keys_ofList (pairs : List (κ × ν)) :
    (ofList pairs).keys = (SortedSet.ofList (pairs.map (·.1))).keys := by
  refine eq_of_increasing id (List.pairwise_map.2 (ordered_ofList pairs).sorted)
    (List.pairwise_map.2 (ordered_ofList _).sorted) fun k => ?_
  rw [mem_keys_set, (ordered_ofList pairs).mem_keys_iff, isSome_get?_ofList]

omit [Std.LawfulEqOrd κ] in
/-- Only the keys are in order. -/
theorem Ordered.of_keys {items : List κ} (h : m.keys = (SortedSet.ofList items).keys) :
    Ordered m := by
  have hsorted : m.keys.Pairwise fun a b => compare a b = .lt := by
    rw [h]
    exact List.pairwise_map.2 (ordered_ofList _).sorted
  exact ⟨List.pairwise_map.1 hsorted, fun _ _ => trivial⟩

end Total

/-! ### Matching entries -/

/-- The same entries one by one, up to the form of the keys, with values related by `R`. -/
def Alike (R : ν → ν → Prop) (xs ys : List (κ × ν)) : Prop :=
  List.Forall₂ (fun a b => compare a.1 b.1 = .eq ∧ R a.2 b.2) xs ys

namespace Alike
variable {R : ν → ν → Prop} {xs ys zs : List (κ × ν)}

theorem exists_right (h : Alike R xs ys) {a : κ × ν} (ha : a ∈ xs) :
    ∃ b ∈ ys, compare a.1 b.1 = .eq ∧ R a.2 b.2 :=
  exists_of_forall₂_left h ha

theorem refl [Std.OrientedOrd κ] (hR : ∀ v, R v v) : ∀ xs : List (κ × ν), Alike R xs xs
  | [] => .nil
  | _ :: rest => .cons ⟨Std.ReflOrd.compare_self, hR _⟩ (refl hR rest)

theorem symm [Std.OrientedOrd κ] (hR : ∀ v w, R v w → R w v) (h : Alike R xs ys) :
    Alike R ys xs := by
  induction h with
  | nil => exact .nil
  | cons hab _ ih => exact .cons ⟨Std.OrientedCmp.eq_symm hab.1, hR _ _ hab.2⟩ ih

/-- A key that cannot tell the forms of matching keys apart finds matching entries. -/
theorem rel_entryAt? (h : Alike R xs ys) {k : κ}
    (hk : ∀ a ∈ xs, ∀ b ∈ ys, compare a.1 b.1 = .eq → compare k a.1 = compare k b.1) :
    Option.Rel (fun a b => compare a.1 b.1 = .eq ∧ R a.2 b.2) (entryAt? k xs) (entryAt? k ys) := by
  induction h with
  | nil => exact .none
  | @cons a b xs ys hab _ ih =>
    have hsame := hk a List.mem_cons_self b List.mem_cons_self hab.1
    simp only [entryAt?, ← hsame]
    cases compare k a.1 with
    | lt => exact .none
    | eq => exact .some hab
    | gt => exact ih fun x hx y hy => hk x (List.mem_cons_of_mem a hx) y (List.mem_cons_of_mem b hy)

theorem values_eq (h : Alike Eq xs ys) : xs.map (·.2) = ys.map (·.2) := by
  rw [← List.forall₂_eq_eq_eq, List.forall₂_map_left_iff, List.forall₂_map_right_iff]
  exact h.imp fun _ _ hab => hab.2

theorem rel_getLast? (h : Alike R xs ys) :
    Option.Rel (fun a b => compare a.1 b.1 = .eq ∧ R a.2 b.2) xs.getLast? ys.getLast? := by
  induction h with
  | nil => exact .none
  | @cons a b xs ys hab hrest ih =>
    cases hrest with
    | nil => exact .some hab
    | cons => simpa only [List.getLast?_cons_cons] using ih

section Lawful
variable [Std.OrientedOrd κ] {P : κ → Prop} (hP : TransOn (compare : κ → κ → Ordering) P)
include hP

theorem trans (hR : ∀ u v w, R u v → R v w → R u w) (hx : ∀ e ∈ xs, P e.1) (hy : ∀ e ∈ ys, P e.1)
    (hz : ∀ e ∈ zs, P e.1) (h₁ : Alike R xs ys) (h₂ : Alike R ys zs) : Alike R xs zs := by
  induction h₁ generalizing zs with
  | nil => exact h₂
  | cons hab _ ih =>
    cases h₂ with
    | cons hbc h₂ =>
      simp only [List.mem_cons, forall_eq_or_imp] at hx hy hz
      refine .cons ⟨hP.eq_trans hx.1 hy.1 hz.1 hab.1 hbc.1, hR _ _ _ hab.2 hbc.2⟩ ?_
      exact ih hx.2 hy.2 hz.2 h₂

/-- Sorted entries match one by one as soon as each has a partner on the other side. -/
theorem of_mem (hx : InOrder P xs) (hy : InOrder P ys)
    (hxy : ∀ a ∈ xs, ∃ b ∈ ys, compare a.1 b.1 = .eq ∧ R a.2 b.2)
    (hyx : ∀ b ∈ ys, ∃ a ∈ xs, compare a.1 b.1 = .eq ∧ R a.2 b.2) : Alike R xs ys := by
  induction xs generalizing ys with
  | nil =>
    cases ys with
    | nil => exact .nil
    | cons b rest =>
      obtain ⟨a, ha, -⟩ := hyx b List.mem_cons_self
      cases ha
  | cons a xs ih =>
    obtain ⟨b, hb, hab⟩ := hxy a List.mem_cons_self
    cases ys with
    | nil => cases hb
    | cons b₀ ys =>
      have hPa := hx.keys a List.mem_cons_self
      have hPb := hy.keys b hb
      have hPb₀ := hy.keys b₀ List.mem_cons_self
      -- The first entries are partners: whatever else `b₀` matched would lie beyond `a`.
      have hfirst : compare a.1 b₀.1 = .eq ∧ R a.2 b₀.2 := by
        obtain ⟨a', ha', hab'⟩ := hyx b₀ List.mem_cons_self
        rcases List.mem_cons.1 ha' with rfl | ha'
        · exact hab'
        · have hPa' := hx.keys a' (List.mem_cons_of_mem a ha')
          have hlt : compare a.1 b₀.1 = .lt := by
            rw [← hP.congr_right hPa hPa' hPb₀ hab'.1]
            exact hx.head_lt a' ha'
          rcases List.mem_cons.1 hb with rfl | hb
          · exact hab
          · have := hP.lt_trans hPa hPb₀ hPb hlt (hy.head_lt b hb)
            rw [hab.1] at this
            cases this
      refine .cons hfirst (ih hx.tail hy.tail ?_ ?_)
      · intro x hxm
        have hPx := hx.keys x (List.mem_cons_of_mem a hxm)
        obtain ⟨y, hym, hmatch⟩ := hxy x (List.mem_cons_of_mem a hxm)
        rcases List.mem_cons.1 hym with rfl | hym
        · have := hx.head_lt x hxm
          rw [hP.congr_left hPa hPb₀ hPx hfirst.1, Std.OrientedCmp.eq_symm hmatch.1] at this
          cases this
        · exact ⟨y, hym, hmatch⟩
      · intro y hym
        have hPy := hy.keys y (List.mem_cons_of_mem b₀ hym)
        obtain ⟨x, hxm, hmatch⟩ := hyx y (List.mem_cons_of_mem b₀ hym)
        rcases List.mem_cons.1 hxm with rfl | hxm
        · have := hy.head_lt y hym
          rw [← hP.congr_left hPa hPb₀ hPy hfirst.1, hmatch.1] at this
          cases this
        · exact ⟨x, hxm, hmatch⟩

end Lawful

end Alike

end RelationalStore.SortedMap

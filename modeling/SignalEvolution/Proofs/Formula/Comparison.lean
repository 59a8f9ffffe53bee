import SignalEvolution.Proofs.Formula.Grammar

/-! # Cuts at comparators

A clause is cut at the first comparator outside parentheses. A text without signs
at depth zero holds none, and in front of a spelled comparator such a text is all
that stands left of the cut.
-/
namespace SignalEvolution.Formula
open Text

/-- A character that occurs in comparators. -/
def isSign (c : Char) : Bool := ['≥', '≤', '≠', '>', '<', '=', '!'].contains c

def Signless (cs : List Char) : Prop :=
  ∀ before c after, cs = before ++ c :: after → depth before = 0 → isSign c = false

variable {cs ds left right sign after : List Char} {c : Char} {cmp : Comparator}

theorem signless_of_forall (h : ∀ c ∈ cs, isSign c = false) : Signless cs := by
  rintro before c after rfl _
  exact h c (by simp)

theorem signless_of_wordChars (h : ∀ c ∈ cs, isWordChar c = true) : Signless cs := by
  apply signless_of_forall
  intro c hc
  have hn := toNat_of_isWordChar (h c hc)
  rw [Bool.eq_false_iff]
  intro hs
  simp only [isSign, List.contains_eq_mem, List.mem_cons, List.not_mem_nil, or_false,
    decide_eq_true_eq] at hs
  rcases hs with rfl | rfl | rfl | rfl | rfl | rfl | rfl
  all_goals
    have hw := h _ hc
    revert hw
    decide

theorem signless_of_blank (h : Blank cs) : Signless cs := by
  apply signless_of_forall
  intro c hc
  rw [Bool.eq_false_iff]
  intro hs
  simp only [isSign, List.contains_eq_mem, List.mem_cons, List.not_mem_nil, or_false,
    decide_eq_true_eq] at hs
  have hb := h c hc
  rcases hs with rfl | rfl | rfl | rfl | rfl | rfl | rfl <;> exact absurd hb (by decide)

theorem signless_append_iff (hd : depth cs = 0) : Signless (cs ++ ds) ↔ Signless cs ∧ Signless ds := by
  constructor
  · intro h
    constructor
    · rintro before c after rfl h0
      exact h before c (after ++ ds) (by simp) h0
    · rintro before c after rfl h0
      exact h (cs ++ before) c after (by simp) (by simp [hd, h0])
  · rintro ⟨hc, hds⟩ before c after h h0
    rcases List.append_eq_append_iff.mp h with ⟨mid, rfl, hmid⟩ | ⟨mid, rfl, hmid⟩
    · exact hds mid c after hmid (by simpa [hd] using h0)
    · cases mid with
      | nil => exact hds [] c after hmid.symm rfl
      | cons d mid =>
        obtain ⟨rfl, _⟩ := List.cons.inj hmid
        exact hc before c mid rfl h0

theorem signless_enclosed (h : Balanced cs) : Signless ('(' :: (cs ++ [')'])) := by
  intro before c after he h0
  cases before with
  | nil =>
    obtain ⟨rfl, _⟩ := List.cons.inj he
    decide
  | cons d before =>
    have hpos := h.depth_pos_of_enclosed he (by simp) (by simp)
    omega

theorem signless_pad_iff {l r : List Char} (hl : Blank l) (hr : Blank r) (hd : depth cs = 0) :
    Signless (l ++ cs ++ r) ↔ Signless cs := by
  have hdl := (flat_of_blank hl).depth_eq
  rw [signless_append_iff (by simp [hdl, hd]), signless_append_iff hdl]
  have hbl := signless_of_blank hl
  have hbr := signless_of_blank hr
  tauto

theorem comparatorAt?_eq_none (h : isSign c = false) : comparatorAt? (c :: cs) = none := by
  unfold comparatorAt?
  split
  case h_12 => rfl
  all_goals
    next he =>
      obtain ⟨rfl, _⟩ := List.cons.inj he
      exact absurd h (by decide)

theorem comparatorAt?_sound {rest : List Char} (h : comparatorAt? cs = some (cmp, rest)) :
    ∃ sign ∈ spellings cmp, cs = sign ++ rest := by
  unfold comparatorAt? at h
  split at h
  case h_12 => cases h
  all_goals
    obtain ⟨rfl, rfl⟩ := Prod.mk.inj (Option.some.inj h)
    first
      | exact ⟨[_], by simp [spellings], rfl⟩
      | exact ⟨[_, _], by simp [spellings], rfl⟩

/-- A spelled comparator is read as a whole where no sign follows it. -/
theorem comparatorAt?_spelling (hs : sign ∈ spellings cmp) (hr : ∀ c ∈ right.head?, isSign c = false) :
    comparatorAt? (sign ++ right) = some (cmp, right) := by
  have heq : ∀ rest, right ≠ '=' :: rest := by
    rintro rest rfl
    exact absurd (hr '=' rfl) (by decide)
  have hgt : ∀ rest, right ≠ '>' :: rest := by
    rintro rest rfl
    exact absurd (hr '>' rfl) (by decide)
  cases cmp <;> simp only [spellings, List.mem_cons, List.not_mem_nil, or_false] at hs
  case different => rcases hs with rfl | rfl | rfl <;> rfl
  case greaterEqual => rcases hs with rfl | rfl <;> rfl
  case lessEqual => rcases hs with rfl | rfl <;> rfl
  case equal =>
    rcases hs with rfl | rfl
    · rfl
    · simp [comparatorAt?]
  case greater => subst hs; simp [comparatorAt?]
  case less => subst hs; simp [comparatorAt?]

theorem isSign_of_mem_spellings (hs : sign ∈ spellings cmp) :
    sign ≠ [] ∧ ∀ c ∈ sign, isSign c = true := by
  revert sign
  cases cmp <;> decide

theorem ne_of_isSign (h : isSign c = true) :
    c ≠ '(' ∧ c ≠ ')' ∧ isBlank c = false ∧ isWordChar c = false := by
  simp only [isSign, List.contains_eq_mem, List.mem_cons, List.not_mem_nil, or_false,
    decide_eq_true_eq] at h
  rcases h with rfl | rfl | rfl | rfl | rfl | rfl | rfl <;> decide

/-- The scan passes over text without signs. -/
theorem cutFrom_append (level : Int)
    (h : ∀ before c after, left = before ++ c :: after → level + depth before = 0 → isSign c = false) :
    cutFrom level (left ++ cs) =
      (cutFrom (level + depth left) cs).map fun (l, cut) => (left ++ l, cut) := by
  induction left generalizing level with
  | nil => simp
  | cons c rest ih =>
    have hnone : (if level = 0 ∧ c ≠ '(' ∧ c ≠ ')' then comparatorAt? (c :: (rest ++ cs)) else none) =
        none := by
      split
      · next hlevel => exact comparatorAt?_eq_none (h [] c rest rfl (by simp [hlevel.1]))
      · rfl
    rw [List.cons_append, cutFrom, hnone, ih]
    · simp [nesting_eq, Int.add_assoc, Function.comp_def]
    · intro before d after hrest h0
      rw [nesting_eq] at h0
      exact h (c :: before) d after (by rw [hrest, List.cons_append]) (by rw [depth_cons]; omega)

theorem comparison?_eq_none (h : Signless cs) : comparison? cs = none := by
  have hscan : cutFrom 0 (cs ++ []) = none := by
    rw [cutFrom_append 0 fun before c after he h0 => h before c after he (by omega)]
    rfl
  rwa [List.append_nil] at hscan

/-- The first comparator is where the text before it shows no sign. -/
theorem comparison?_eq_some (hl : Signless left) (h0 : depth left = 0) (hs : sign ∈ spellings cmp)
    (hr : ∀ c ∈ right.head?, isSign c = false) :
    comparison? (left ++ sign ++ right) = some (left, cmp, right) := by
  have hcut : cutFrom 0 (sign ++ right) = some ([], cmp, right) := by
    have hat := comparatorAt?_spelling hs hr
    obtain ⟨hne, hsign⟩ := isSign_of_mem_spellings hs
    obtain ⟨c, rest, rfl⟩ := List.exists_cons_of_ne_nil hne
    have hc := ne_of_isSign (hsign c List.mem_cons_self)
    rw [List.cons_append] at hat ⊢
    simp [cutFrom, hc.1, hc.2.1, hat]
  rw [comparison?, List.append_assoc, cutFrom_append 0 fun before c after he h0' =>
    hl before c after he (by omega), h0, Int.add_zero, hcut]
  simp

theorem cutFrom_sound {level : Int} (h : cutFrom level cs = some (left, cmp, right)) :
    ∃ sign ∈ spellings cmp, cs = left ++ sign ++ right := by
  induction cs generalizing level left with
  | nil => cases h
  | cons c rest ih =>
    rw [cutFrom] at h
    split at h
    · next found after hcut =>
      split at hcut
      · obtain ⟨rfl, rfl, rfl⟩ : [] = left ∧ found = cmp ∧ after = right := by simpa using h
        exact comparatorAt?_sound hcut
      · cases hcut
    · obtain ⟨⟨l, cut⟩, hrest, heq⟩ := Option.map_eq_some_iff.mp h
      obtain ⟨rfl, rfl⟩ := Prod.mk.inj heq
      obtain ⟨sign, hs, rfl⟩ := ih hrest
      exact ⟨sign, hs, rfl⟩

theorem comparison?_sound (h : comparison? cs = some (left, cmp, right)) :
    ∃ sign ∈ spellings cmp, cs = left ++ sign ++ right := cutFrom_sound h

end SignalEvolution.Formula

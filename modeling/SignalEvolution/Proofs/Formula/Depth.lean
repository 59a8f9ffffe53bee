import SignalEvolution.Formula.Split
import SignalEvolution.Proofs.Text.Trim

/-! # Nesting depth of formula text

The depth of a text is the number of parentheses it opens less the number it
closes. In a balanced text no prefix closes more than it opens and the whole is
even. Parentheses enclose a text exactly when what stands between them is
balanced, and `strip` sees through white space and such parentheses alone.
-/
namespace SignalEvolution.Formula
open Text

def weight (c : Char) : Int := if c = '(' then 1 else if c = ')' then -1 else 0

def depth : List Char → Int
  | [] => 0
  | c :: cs => weight c + depth cs

/-- No prefix closes more parentheses than it opens, and in the end all are closed. -/
structure Balanced (cs : List Char) : Prop where
  even : depth cs = 0
  nonneg : ∀ before after, cs = before ++ after → 0 ≤ depth before

variable {cs ds l r inner : List Char} {c : Char}

theorem nesting_eq (level : Int) (c : Char) : nesting level c = level + weight c := by
  unfold nesting weight
  split
  · rfl
  · split <;> omega

@[simp] theorem depth_nil : depth [] = 0 := rfl

@[simp] theorem depth_cons (c : Char) (cs : List Char) : depth (c :: cs) = weight c + depth cs := rfl

@[simp] theorem depth_append (cs ds : List Char) : depth (cs ++ ds) = depth cs + depth ds := by
  induction cs with
  | nil => simp
  | cons c cs ih => simp [ih, Int.add_assoc]

@[simp] theorem weight_open : weight '(' = 1 := rfl

@[simp] theorem weight_close : weight ')' = -1 := rfl

theorem weight_other (ho : c ≠ '(') (hc : c ≠ ')') : weight c = 0 := by simp [weight, ho, hc]

/-- Text without parentheses is flat. -/
def Flat (cs : List Char) : Prop := ∀ c ∈ cs, c ≠ '(' ∧ c ≠ ')'

instance (cs : List Char) : Decidable (Flat cs) := inferInstanceAs (Decidable (∀ c ∈ cs, c ≠ '(' ∧ c ≠ ')'))

theorem Flat.append (hc : Flat cs) (hd : Flat ds) : Flat (cs ++ ds) := by
  intro c h
  rcases List.mem_append.mp h with h | h
  · exact hc c h
  · exact hd c h

theorem Flat.left (h : Flat (cs ++ ds)) : Flat cs := fun c hc => h c (List.mem_append_left ds hc)

theorem Flat.depth_eq (h : Flat cs) : depth cs = 0 := by
  induction cs with
  | nil => rfl
  | cons c rest ih =>
    have hc := h c List.mem_cons_self
    rw [depth_cons, weight_other hc.1 hc.2, ih fun d hd => h d (List.mem_cons_of_mem c hd)]
    rfl

theorem Flat.balanced (h : Flat cs) : Balanced cs := by
  refine ⟨h.depth_eq, ?_⟩
  rintro before after rfl
  exact Int.le_of_eq h.left.depth_eq.symm

theorem flat_of_blank (h : Blank cs) : Flat cs := by
  intro c hc
  have hb := h c hc
  constructor <;> rintro rfl <;> exact absurd hb (by decide)

theorem Balanced.append (hc : Balanced cs) (hd : Balanced ds) : Balanced (cs ++ ds) := by
  refine ⟨by rw [depth_append, hc.even, hd.even]; rfl, ?_⟩
  intro before after h
  rcases List.append_eq_append_iff.mp h with ⟨mid, rfl, hds⟩ | ⟨mid, hcs, _⟩
  · have h0 := hd.nonneg mid after hds
    rw [depth_append, hc.even]
    omega
  · exact hc.nonneg before mid hcs

theorem Balanced.enclosed (h : Balanced cs) : Balanced ('(' :: (cs ++ [')'])) := by
  refine ⟨by simp [h.even], ?_⟩
  intro before after hb
  cases before with
  | nil => simp
  | cons c rest =>
    obtain ⟨rfl, hrest⟩ := List.cons.inj hb
    rcases List.append_eq_append_iff.mp hrest with ⟨mid, rfl, hmid⟩ | ⟨mid, hcs, _⟩
    · cases mid with
      | nil => simp [h.even]
      | cons d mid =>
        obtain ⟨rfl, hnil⟩ := List.cons.inj hmid
        obtain ⟨rfl, _⟩ := List.append_eq_nil_iff.mp hnil.symm
        simp [h.even]
    · have h0 := h.nonneg rest mid hcs
      rw [depth_cons, weight_open]
      omega

/-- Between enclosing parentheses the depth is positive throughout. -/
theorem Balanced.depth_pos_of_enclosed (h : Balanced cs) {before after : List Char}
    (he : '(' :: (cs ++ [')']) = before ++ after) (hb : before ≠ []) (ha : after ≠ []) :
    0 < depth before := by
  obtain ⟨c, rest, rfl⟩ := List.exists_cons_of_ne_nil hb
  obtain ⟨rfl, hrest⟩ := List.cons.inj he
  rcases List.append_eq_append_iff.mp hrest with ⟨mid, rfl, hmid⟩ | ⟨mid, hcs, _⟩
  · -- The prefix reaches beyond the enclosed text, so it is all of the text but the last character.
    cases mid with
    | nil => simp [h.even]
    | cons d mid =>
      obtain ⟨_, hnil⟩ := List.cons.inj hmid
      exact absurd (List.append_eq_nil_iff.mp hnil.symm).2 ha
  · have h0 := h.nonneg rest mid hcs
    rw [depth_cons, weight_open]
    omega

/-- Started inside a parenthesis, the scan succeeds where that parenthesis is closed last. -/
theorem balancedFrom_iff (level : Int) (hl : 0 < level) (cs : List Char) :
    balancedFrom level (cs ++ [')']) = true ↔
      level + depth cs = 1 ∧ ∀ before after, cs = before ++ after → 0 < level + depth before := by
  induction cs generalizing level with
  | nil =>
    simp only [List.nil_append, balancedFrom, nesting_eq, weight_close, depth_nil]
    constructor
    · intro h
      have hlevel : level = 1 := by simp at h; omega
      refine ⟨by omega, ?_⟩
      intro before after hnil
      obtain ⟨rfl, _⟩ := List.append_eq_nil_iff.mp hnil.symm
      simpa using hl
    · rintro ⟨h, _⟩
      have hlevel : level = 1 := by omega
      simp [hlevel]
  | cons c rest ih =>
    have hstep : balancedFrom level ((c :: rest) ++ [')']) = true ↔
        0 < level + weight c ∧ balancedFrom (level + weight c) (rest ++ [')']) = true := by
      simp only [List.cons_append, balancedFrom, nesting_eq]
      by_cases hc : c = ')'
      · subst hc
        by_cases h1 : level - 1 = 0
        · simp [h1]; omega
        · simp [h1]; omega
      · have hw : 0 ≤ weight c := by
          simp only [weight, if_neg hc]
          split <;> omega
        simp [hc]; omega
    rw [hstep]
    constructor
    · rintro ⟨hpos, h⟩
      obtain ⟨hend, hpre⟩ := (ih (level + weight c) hpos).mp h
      refine ⟨by rw [depth_cons]; omega, ?_⟩
      intro before after hb
      cases before with
      | nil => simpa using hl
      | cons d before =>
        obtain ⟨rfl, hrest⟩ := List.cons.inj hb
        have h0 := hpre before after hrest
        rw [depth_cons]
        omega
    · rintro ⟨hend, hpre⟩
      have hpos : 0 < level + weight c := by simpa using hpre [c] rest rfl
      refine ⟨hpos, (ih (level + weight c) hpos).mpr ⟨by rw [depth_cons] at hend; omega, ?_⟩⟩
      intro before after hb
      have h0 := hpre (c :: before) after (by rw [hb, List.cons_append])
      rw [depth_cons] at h0
      omega

/-- Parentheses are taken off exactly where they enclose balanced text. -/
theorem inside?_eq_some_iff : inside? cs = some inner ↔ cs = '(' :: (inner ++ [')']) ∧ Balanced inner := by
  have hbal : balancedFrom 1 (inner ++ [')']) = true ↔ Balanced inner := by
    rw [balancedFrom_iff 1 (by omega)]
    constructor
    · rintro ⟨h0, hpre⟩
      refine ⟨by omega, fun before after hb => ?_⟩
      have := hpre before after hb
      omega
    · intro h
      refine ⟨by rw [h.even]; rfl, fun before after hb => ?_⟩
      have := h.nonneg before after hb
      omega
  constructor
  · intro h
    unfold inside? at h
    split at h
    · next rest =>
      split at h
      · next hc =>
        obtain ⟨hlast, hscan⟩ := hc
        have hrest : rest = inner ++ [')'] := by
          rw [← Option.some.inj h]
          exact (List.dropLast_append_getLast? ')' hlast).symm
        rw [hrest] at hscan
        exact ⟨by rw [hrest], hbal.mp hscan⟩
      · cases h
    · cases h
  · rintro ⟨rfl, h⟩
    simp [inside?, hbal.mpr h]

/-- A text that shows a character other than a parenthesis at depth zero is not enclosed. -/
theorem inside?_eq_none {before after : List Char} (h0 : depth before = 0) (ho : c ≠ '(') :
    inside? (before ++ c :: after) = none := by
  rw [Option.eq_none_iff_forall_ne_some]
  intro inner h
  obtain ⟨he, hb⟩ := inside?_eq_some_iff.mp h
  cases before with
  | nil => exact ho (List.cons.inj he).1
  | cons d before =>
    have hpos := hb.depth_pos_of_enclosed he.symm (by simp) (by simp)
    omega

theorem strip_of_inside (h : inside? (trim cs) = some inner) : strip cs = strip inner := by
  rw [strip]
  split
  · next found hfound => rw [Option.some.inj (hfound.symm.trans h)]
  · next hnone => rw [h] at hnone; cases hnone

theorem strip_of_not_inside (h : inside? (trim cs) = none) : strip cs = trim cs := by
  rw [strip]
  split
  · next found hfound => rw [h] at hfound; cases hfound
  · rfl

theorem strip_congr (h : trim cs = trim ds) : strip cs = strip ds := by
  cases hi : inside? (trim cs) with
  | none => rw [strip_of_not_inside hi, strip_of_not_inside (h ▸ hi), h]
  | some inner =>
    have hi' : inside? (trim ds) = some inner := h ▸ hi
    rw [strip_of_inside hi, strip_of_inside hi']

theorem strip_trim (cs : List Char) : strip (trim cs) = strip cs := strip_congr (trim_trim cs)

theorem strip_append (hl : Blank l) (hr : Blank r) (cs : List Char) :
    strip (l ++ cs ++ r) = strip cs := strip_congr (trim_append hl hr cs)

theorem trimmed_enclosed (cs : List Char) : Trimmed ('(' :: (cs ++ [')'])) := by
  constructor
  · intro c hc
    obtain rfl := Option.some.inj hc
    rfl
  · intro c hc
    rw [← List.cons_append, List.getLast?_concat] at hc
    obtain rfl := Option.some.inj hc
    rfl

theorem strip_enclosed (h : Balanced cs) : strip ('(' :: (cs ++ [')'])) = strip cs := by
  apply strip_of_inside
  rw [trim_of_trimmed (trimmed_enclosed cs)]
  exact inside?_eq_some_iff.mpr ⟨rfl, h⟩

/-- What is left is trimmed, and no parentheses enclose it. -/
theorem strip_spec (cs : List Char) : Trimmed (strip cs) ∧ inside? (strip cs) = none := by
  fun_induction strip cs with
  | case1 cs inner h ih => exact ih
  | case2 cs h => exact ⟨trimmed_trim cs, h⟩

theorem strip_strip (cs : List Char) : strip (strip cs) = strip cs := by
  obtain ⟨ht, hi⟩ := strip_spec cs
  rw [strip_of_not_inside (by rwa [trim_of_trimmed ht]), trim_of_trimmed ht]

/-- Whatever survives white space and enclosing parentheses around it holds of a text
if it holds of the stripped text. -/
theorem of_strip {P : List Char → Prop} (hpad : ∀ l cs r, Blank l → Blank r → P cs → P (l ++ cs ++ r))
    (henc : ∀ cs, Balanced cs → P cs → P ('(' :: (cs ++ [')']))) (h : P (strip cs)) : P cs := by
  fun_induction strip cs with
  | case1 cs inner hi ih =>
    obtain ⟨he, hb⟩ := inside?_eq_some_iff.mp hi
    obtain ⟨l, r, hl, hr, hcs⟩ := exists_trim cs
    rw [hcs, he]
    exact hpad l _ r hl hr (henc inner hb (ih h))
  | case2 cs hi =>
    obtain ⟨l, r, hl, hr, hcs⟩ := exists_trim cs
    rw [hcs]
    exact hpad l _ r hl hr h

/-- Either nothing encloses the text, or stripping takes off more than white space. -/
theorem strip_eq_or_lt (cs : List Char) :
    (inside? (trim cs) = none ∧ strip cs = trim cs) ∨
      ∃ inner, inside? (trim cs) = some inner ∧ strip cs = strip inner ∧
        (strip cs).length < (trim cs).length := by
  cases hi : inside? (trim cs) with
  | none => exact .inl ⟨rfl, strip_of_not_inside hi⟩
  | some inner =>
    refine .inr ⟨inner, rfl, strip_of_inside hi, ?_⟩
    rw [strip_of_inside hi]
    exact Nat.lt_of_le_of_lt (length_strip_le inner) (length_inside_lt hi)

theorem strip_eq_trim (h : (strip cs).length = (trim cs).length) : strip cs = trim cs := by
  rcases strip_eq_or_lt cs with ⟨_, he⟩ | ⟨_, _, _, hlt⟩
  · exact he
  · omega

end SignalEvolution.Formula

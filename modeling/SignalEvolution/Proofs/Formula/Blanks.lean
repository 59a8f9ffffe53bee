import SignalEvolution.Proofs.Formula.Rendering

/-! # Blanks between words

A blank outside parentheses that stands inside an operand separates the name of a call
from its arguments. A text with any other blank is no operand, and without connectives it
is no formula.
-/
namespace SignalEvolution.Formula
open Text

variable {cs ds before after left right mid sign : List Char} {k : Kind} {a b t u : Tree} {op : Operator}
variable {cmp : Comparator} {i : Indicator} {params : Table Float} {ps : List (List Char)}

/-- A character of two texts stands in the first or in the second. -/
theorem position_cases {c : Char} (h : cs ++ ds = before ++ c :: after) :
    (∃ rest, cs = before ++ c :: rest ∧ after = rest ++ ds) ∨
      ∃ front, before = cs ++ front ∧ ds = front ++ c :: after := by
  rcases List.append_eq_append_iff.mp h with ⟨front, rfl, hds⟩ | ⟨rest, rfl, hrest⟩
  · exact .inr ⟨front, rfl, hds⟩
  · cases rest with
    | nil => exact .inr ⟨[], by simp, hrest.symm⟩
    | cons d rest =>
      obtain ⟨rfl, rfl⟩ := List.cons.inj hrest
      exact .inl ⟨rest, rfl, rfl⟩

theorem not_blank_of_wordChars (h : ∀ c ∈ cs, isWordChar c = true) {c : Char} (hc : c ∈ cs) :
    isBlank c ≠ true := by
  intro hb
  have hnot := not_isWordChar_of_isBlank hb
  rw [h c hc] at hnot
  cases hnot

/-- A blank outside parentheses stands at the end of an operand or after the name of a call. -/
theorem IsOperand.blank_inside (h : IsOperand cs t) : ∀ {before after : List Char} {c : Char},
    cs = before ++ c :: after → isBlank c = true → depth before = 0 →
      Blank before ∨ Blank after ∨ ∃ i : Indicator, lower (trim before) = lower i.mnemonic.toList := by
  induction h with
  | number hx =>
    rintro before after c rfl hb _
    have hnot := (numerals_spec c ((finite?_subset hx).2 (by simp))).1
    rw [hb] at hnot
    cases hnot
  | series hs =>
    rintro before after c rfl hb _
    exact absurd hb (not_blank_of_wordChars (wordChars_of_series hs) (by simp))
  | @call name gap args i settings hname hgap hargs =>
    intro before after c he hb h0
    have hw := wordChars_of_mnemonic hname
    have hd : depth (name ++ gap) = 0 := by
      rw [depth_append, (flat_of_wordChars hw).depth_eq, (flat_of_blank hgap).depth_eq]
      rfl
    rcases position_cases he with ⟨rest, hcall, _⟩ | ⟨front, rfl, hargs'⟩
    · rcases position_cases hcall with ⟨rest, rfl, _⟩ | ⟨front, rfl, hgap'⟩
      · exact absurd hb (not_blank_of_wordChars hw (by simp))
      · have hfront : Blank front := fun c hc => hgap c (by simp [hgap', hc])
        have hpad := trim_append blank_nil hfront name
        rw [List.nil_append, trim_of_trimmed (trimmed_of_wordChars hw)] at hpad
        exact .inr (.inr ⟨i, by rw [hpad, hname]⟩)
    · cases front with
      | nil =>
        obtain ⟨rfl, _⟩ := List.cons.inj hargs'
        exact absurd hb (by decide)
      | cons d front =>
        have hpos := hargs.flat.balanced.depth_pos_of_enclosed hargs' (by simp) (by simp)
        rw [depth_append, hd] at h0
        omega
  | enclosed h ih =>
    intro before after c he hb h0
    cases before with
    | nil => exact .inl blank_nil
    | cons d before =>
      have hpos := h.inert.balanced.depth_pos_of_enclosed he (by simp) (by simp)
      omega
  | @padded l cs r t hl hr h ih =>
    intro before after c he hb h0
    rcases position_cases he with ⟨rest, hcs, rfl⟩ | ⟨front, rfl, hr'⟩
    · rcases position_cases hcs with ⟨_, rfl, _⟩ | ⟨front, rfl, hfront⟩
      · exact .inl fun d hd => hl d (List.mem_append_left _ hd)
      · rw [depth_append, (flat_of_blank hl).depth_eq, Int.zero_add] at h0
        rcases ih hfront hb h0 with hblank | hblank | ⟨i, hi⟩
        · exact .inl (hl.append hblank)
        · exact .inr (.inl (hblank.append hr))
        · have hpad := trim_append hl blank_nil front
          rw [List.append_nil] at hpad
          exact .inr (.inr ⟨i, by rw [hpad, hi]⟩)
    · exact .inr (.inl fun d hd => hr d (by simp [hr', hd]))

/-- A text before a blank that is no part of an operand: it ends neither blank nor with a sign, and
no end of it names an indicator. -/
structure Foreign (cs : List Char) : Prop where
  even : depth cs = 0
  back : ∃ front c, cs = front ++ [c] ∧ isBlank c = false ∧ isSign c = false
  nameless : ∀ front mid, cs = front ++ mid → ∀ i : Indicator, lower (trim mid) ≠ lower i.mnemonic.toList

theorem Foreign.not_blank (h : Foreign cs) : ¬ Blank cs := by
  intro hb
  obtain ⟨front, c, rfl, hc, _⟩ := h.back
  rw [hb c (by simp)] at hc
  cases hc

theorem Firm.not_blank (h : Firm cs) : ¬ Blank cs := by
  intro hb
  obtain ⟨c, rest, rfl, hc, _⟩ := h.front
  rw [hb c (by simp)] at hc
  cases hc

theorem not_isOperand_of_foreign (hf : Foreign cs) (hd : ¬ Blank ds) : ¬ IsOperand (cs ++ ' ' :: ds) t := by
  intro h
  rcases h.blank_inside rfl (by decide) hf.even with hblank | hblank | ⟨i, hi⟩
  · exact hf.not_blank hblank
  · exact hd hblank
  · exact hf.nameless [] cs rfl i hi

/-- No formula either: a comparison would leave the blank in one of its operands. -/
theorem not_comparison_of_foreign (hf : Foreign cs) (hd : Firm ds) (hl : IsOperand left a)
    (hs : sign ∈ spellings cmp) (hr : IsOperand right b) : cs ++ ' ' :: ds ≠ left ++ sign ++ right := by
  intro he
  obtain ⟨hne, hsign⟩ := isSign_of_mem_spellings hs
  have hblank : isBlank ' ' = true := by decide
  rcases position_cases he.symm with ⟨rest, hfront, rfl⟩ | ⟨mid, hcs, hright⟩
  · rcases position_cases hfront with ⟨mid, rfl, rfl⟩ | ⟨mid, _, hmid⟩
    · -- The blank stands in the left operand.
      apply not_isOperand_of_foreign hf _ hl
      intro hmid
      obtain ⟨c, tail, hcons, hc, hcs⟩ := hd.front
      cases mid with
      | nil =>
        obtain ⟨d, rest, rfl⟩ := List.exists_cons_of_ne_nil hne
        obtain ⟨rfl, _⟩ := List.cons.inj hcons
        rw [hsign d (by simp)] at hcs
        cases hcs
      | cons d mid =>
        obtain ⟨rfl, _⟩ := List.cons.inj hcons
        rw [hmid d (by simp)] at hc
        cases hc
    · have hnot := (ne_of_isSign (hsign ' ' (by simp [hmid]))).2.2.1
      rw [hblank] at hnot
      cases hnot
  · -- The blank stands in the right operand.
    have hflat : Flat sign := fun c hc => ⟨(ne_of_isSign (hsign c hc)).1, (ne_of_isSign (hsign c hc)).2.1⟩
    have h0 : depth mid = 0 := by
      have heven := hf.even
      rw [hcs, depth_append, depth_append, hl.inert.balanced.even, hflat.depth_eq] at heven
      omega
    rcases hr.blank_inside hright hblank h0 with hmid | hafter | ⟨i, hi⟩
    · obtain ⟨front, c, hback, hc, hcsign⟩ := hf.back
      rcases List.eq_nil_or_concat mid with rfl | ⟨init, d, rfl⟩
      · rw [List.append_nil] at hcs
        have hlast : c ∈ sign := by
          have h := congrArg List.getLast? (hback.symm.trans hcs)
          rw [List.getLast?_concat, List.getLast?_append_of_ne_nil _ hne] at h
          exact List.mem_of_getLast? h.symm
        rw [hsign c hlast] at hcsign
        cases hcsign
      · have hlast : c = d := by
          have h := congrArg List.getLast? (hback.symm.trans hcs)
          rw [List.concat_eq_append, ← List.append_assoc, List.getLast?_concat, List.getLast?_concat] at h
          exact Option.some.inj h
        rw [hlast, hmid d (by simp)] at hc
        cases hc
    · exact hd.not_blank hafter
    · exact hf.nameless (left ++ sign) mid hcs i hi

theorem mem_trim {c : Char} (hc : c ∈ cs) (hb : isBlank c = false) : c ∈ trim cs := by
  obtain ⟨l, r, hl, hr, hcs⟩ := exists_trim cs
  rw [hcs] at hc
  rcases List.mem_append.mp hc with hc | hc
  · rcases List.mem_append.mp hc with hc | hc
    · rw [hl c hc] at hb
      cases hb
    · exact hc
  · rw [hr c hc] at hb
    cases hb

theorem foreign_not : Foreign ['N', 'O', 'T'] where
  even := rfl
  back := ⟨['N', 'O'], 'T', rfl, by decide, by decide⟩
  nameless front mid he i := by
    have hall : ∀ mid ∈ ['N', 'O', 'T'].tails, lower (trim mid) ≠ lower i.mnemonic.toList := by
      cases i <;> decide
    exact hall mid (List.mem_tails _ _ |>.mpr ⟨front, he.symm⟩)

theorem foreign_symbol (hc : Firm cs) (hop : op.family = .arithmetic) :
    Foreign (cs ++ ' ' :: op.symbol.toList) := by
  obtain ⟨c, hsymbol, hblank, hsign, hword, hflat⟩ : ∃ c, op.symbol.toList = [c] ∧ isBlank c = false ∧
      isSign c = false ∧ isWordChar c = false ∧ Flat [' ', c] := by
    cases op <;> first | exact ⟨_, rfl, by decide⟩ | cases hop
  rw [hsymbol]
  refine ⟨?_, ⟨cs ++ [' '], c, by simp, hblank, hsign⟩, fun front mid he i hi => ?_⟩
  · rw [depth_append, hc.balanced.even, hflat.depth_eq]
    rfl
  · rcases List.eq_nil_or_concat mid with rfl | ⟨init, d, rfl⟩
    · exact (mnemonic_spec i).2.2.1 (List.map_eq_nil_iff.mp hi.symm)
    · have hlast : c = d := by
        have h := congrArg List.getLast? he
        rw [List.concat_eq_append, ← List.append_assoc, List.getLast?_concat,
          List.append_cons, List.getLast?_concat] at h
        exact Option.some.inj h
      have hmem := mem_trim (show c ∈ init.concat d by simp [hlast]) hblank
      rw [wordChars_of_mnemonic hi c hmem] at hword
      cases hword

/-- Two texts with a symbol between them are no operand. -/
theorem not_isOperand_spaced (hc : Firm cs) (hflat : Flat mid) (ht : Trimmed mid) (hne : mid ≠ [])
    (hd : Firm ds) : ¬ IsOperand (cs ++ (' ' :: mid ++ [' ']) ++ ds) t := by
  intro h
  have hcut : cs ++ (' ' :: mid ++ [' ']) ++ ds = (cs ++ ' ' :: mid) ++ ' ' :: ds := by simp
  have h0 : depth (cs ++ ' ' :: mid) = 0 := by
    rw [depth_append, depth_cons, hc.balanced.even, hflat.depth_eq]
    rfl
  have htrimmed : Trimmed (cs ++ ' ' :: mid) := by
    constructor
    · rw [List.head?_append_of_ne_nil _ hc.ne_nil]
      exact hc.trimmed.front
    · rw [List.append_cons, List.getLast?_append_of_ne_nil _ hne]
      exact ht.back
  rcases h.blank_inside hcut (by decide) h0 with hblank | hblank | ⟨i, hi⟩
  · exact hc.not_blank fun c hmem => hblank c (List.mem_append_left _ hmem)
  · exact hd.not_blank hblank
  · rw [trim_of_trimmed htrimmed] at hi
    have hword := wordChars_of_mnemonic hi ' ' (by simp)
    exact absurd hword (by decide)

/-- A firm text that shows something outside parentheses is not enclosed. -/
theorem strip_of_firm (hc : Firm cs) {c : Char} (he : cs = before ++ c :: after) (h0 : depth before = 0)
    (hopen : c ≠ '(') : strip cs = cs := by
  have htrim := trim_of_trimmed hc.trimmed
  rw [strip_of_not_inside, htrim]
  rw [htrim, he]
  exact inside?_eq_none h0 hopen

theorem comparison_of_formula (hc : Firm cs) (hstrip : strip cs = cs)
    (hu : ∀ keyword ∈ connectives, Unbroken keyword cs) (h : IsFormula .strict cs t) :
    ∃ left cmp right a b, comparison? cs = some (left, cmp, right) ∧ operand .strict left = .ok a ∧
      operand .strict right = .ok b ∧ t = Tree.compare cmp a b := by
  have hread := h.formulaRead.read
  rw [outline_whole (hstrip.symm ▸ hc.ne_nil) (by rw [hstrip]; exact not_cut_of_unbroken hu), hstrip] at hread
  exact comparison_of_clause hread

theorem not_isFormula_of_foreign (hf : Foreign cs) (hd : Firm ds) (h : Firm (cs ++ ' ' :: ds))
    (hu : ∀ keyword ∈ connectives, Unbroken keyword (cs ++ ' ' :: ds)) :
    ¬ IsFormula .strict (cs ++ ' ' :: ds) t := by
  intro hformula
  have hstrip := strip_of_firm h rfl hf.even (by decide)
  obtain ⟨left, cmp, right, a, b, hcut, ha, hb, _⟩ := comparison_of_formula h hstrip hu hformula
  obtain ⟨sign, hs, he⟩ := comparison?_sound hcut
  exact not_comparison_of_foreign hf hd (isOperand_of_operand ha) hs (isOperand_of_operand hb) he

theorem not_isFormula_of_inert (hc : Firm cs) (hi : Inert cs) (hstrip : strip cs = cs) :
    ¬ IsFormula .strict cs t := by
  intro h
  obtain ⟨left, cmp, right, a, b, hcut, _⟩ := comparison_of_formula hc hstrip hi.unbroken h
  rw [comparison?_eq_none hi.signless] at hcut
  cases hcut

end SignalEvolution.Formula

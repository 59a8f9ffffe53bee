import SignalEvolution.Proofs.Formula.Arguments
import SignalEvolution.Proofs.Formula.Comparison

/-! # Operands

The operands of the grammar are read in both modes, and strict reading admits no
others. An operand shows no connective and no comparator outside parentheses.
-/
namespace SignalEvolution.Formula
open Text Decimal

variable {mode : Mode} {i : Indicator} {s : Series} {cs ds name gap args : List Char} {x : Float}
variable {t : Tree} {keyword : List Char} {settings : List (String × Float)}

def connectives : List (List Char) := [andWord, orWord]

theorem isKeyword_of_mem (h : keyword ∈ connectives) : IsKeyword keyword := by
  rcases List.mem_cons.mp h with rfl | h
  · exact isKeyword_and
  · rw [List.mem_singleton.mp h]
    exact isKeyword_or

/-- A balanced text that shows no connective and no comparator, and more than white space
and enclosing parentheses. -/
structure Inert (cs : List Char) : Prop where
  balanced : Balanced cs
  unbroken : ∀ keyword ∈ connectives, Unbroken keyword cs
  signless : Signless cs
  visible : strip cs ≠ []

theorem Inert.pad {l r : List Char} (hl : Blank l) (hr : Blank r) (h : Inert cs) :
    Inert (l ++ cs ++ r) where
  balanced := ((flat_of_blank hl).balanced.append h.balanced).append (flat_of_blank hr).balanced
  unbroken keyword hk :=
    (unbroken_pad_iff (isKeyword_of_mem hk) hl hr h.balanced.even).mpr (h.unbroken keyword hk)
  signless := (signless_pad_iff hl hr h.balanced.even).mpr h.signless
  visible := by rw [strip_append hl hr]; exact h.visible

theorem Inert.enclosed (h : Inert cs) : Inert ('(' :: (cs ++ [')'])) where
  balanced := h.balanced.enclosed
  unbroken _ hk := unbroken_enclosed (isKeyword_of_mem hk) h.balanced
  signless := signless_enclosed h.balanced
  visible := by rw [strip_enclosed h.balanced]; exact h.visible

theorem wordChars_of_lower (h : ∀ c ∈ lower cs, isWordChar c = true) :
    ∀ c ∈ cs, isWordChar c = true := by
  intro c hc
  rw [← isWordChar_toLower]
  exact h _ (List.mem_map_of_mem hc)

theorem numerals_lower : ∀ c ∈ numerals, c.toLower ∈ numerals ∧ ∀ keyword ∈ connectives, c.toUpper ∉ keyword := by
  decide

/-- What the reader relies on about the names of series. -/
theorem series_spec (s : Series) : (∀ c ∈ s.name.toList, isWordChar c = true) ∧
    (∀ keyword ∈ connectives, lower keyword ≠ s.name.toList) ∧ ¬ s.name.toList ⊆ numerals := by
  cases s <;> decide

/-- What the reader relies on about the names of indicators. -/
theorem mnemonic_spec (i : Indicator) : (∀ c ∈ lower i.mnemonic.toList, isWordChar c = true) ∧
    (∀ keyword ∈ connectives, lower keyword ≠ lower i.mnemonic.toList) ∧
    i.mnemonic.toList ≠ [] ∧ ∀ c ∈ (lower i.mnemonic.toList).head?, c.isDigit = false := by
  cases i <;> decide

theorem series_find?_eq_some (h : Series.find? cs = some s) : lower (trim cs) = s.name.toList := by
  have hs := List.find?_some h
  simpa [eq_comm] using hs

theorem series_find?_of_lower (h : lower (trim cs) = s.name.toList) : Series.find? cs = some s := by
  rw [Series.find?]
  simp only [h]
  cases s <;> decide

theorem indicator_find?_eq_some (h : Indicator.find? name = some i) :
    lower name = lower i.mnemonic.toList := by
  have hi := List.find?_some h
  simpa [eq_comm, lower] using hi

theorem indicator_find?_of_lower (h : lower name = lower i.mnemonic.toList) :
    Indicator.find? name = some i := by
  rw [lower, lower] at h
  rw [Indicator.find?]
  simp only [h]
  cases i <;> decide

theorem wordChars_of_series (h : lower cs = s.name.toList) : ∀ c ∈ cs, isWordChar c = true :=
  wordChars_of_lower (h ▸ (series_spec s).1)

theorem wordChars_of_mnemonic (h : lower name = lower i.mnemonic.toList) :
    ∀ c ∈ name, isWordChar c = true :=
  wordChars_of_lower (h ▸ (mnemonic_spec i).1)

theorem trimmed_of_wordChars (h : ∀ c ∈ cs, isWordChar c = true) : Trimmed cs := by
  have hblank : ∀ c ∈ cs, isBlank c = false := by
    intro c hc
    rw [Bool.eq_false_iff]
    intro hb
    have hw := h c hc
    rw [not_isWordChar_of_isBlank hb] at hw
    cases hw
  exact ⟨fun c hc => hblank c (List.mem_of_mem_head? hc), fun c hc => hblank c (List.mem_of_getLast? hc)⟩

theorem flat_of_wordChars (h : ∀ c ∈ cs, isWordChar c = true) : Flat cs :=
  fun c hc => ne_paren_of_isWordChar (h c hc)

/-- A word in another case than the keyword's is another word. -/
theorem unbroken_of_lower_ne (hw : ∀ c ∈ cs, isWordChar c = true) (hne : lower keyword ≠ lower cs) :
    Unbroken keyword cs := by
  apply unbroken_of_wordChars hw
  rintro rfl
  exact hne (lower_upper cs)

theorem strip_of_trimmed (ht : Trimmed cs) (h : ∀ c ∈ cs.head?, c ≠ '(') : strip cs = cs := by
  have htrim := trim_of_trimmed ht
  rw [strip_of_not_inside, htrim]
  rw [htrim]
  cases cs with
  | nil => rfl
  | cons c rest => exact inside?_eq_none (show depth [] = 0 from rfl) (h c rfl)

theorem strip_of_flat (ht : Trimmed cs) (hf : Flat cs) : strip cs = cs :=
  strip_of_trimmed ht fun c hc => (hf c (List.mem_of_mem_head? hc)).1

theorem inert_of_finite? (h : finite? cs = some x) : Inert cs where
  balanced := (flat_of_finite? h).balanced
  unbroken keyword hk := unbroken_of_forall_not_mem (isKeyword_of_mem hk) fun c hc =>
    (numerals_lower c ((finite?_subset h).2 hc)).2 keyword hk
  signless := signless_of_forall fun c hc => by
    have hall : ∀ c ∈ numerals, isSign c = false := by decide
    exact hall c ((finite?_subset h).2 hc)
  visible := by
    rw [strip_of_flat (trimmed_of_finite? h) (flat_of_finite? h)]
    exact (finite?_subset h).1

theorem inert_of_wordChars (hw : ∀ c ∈ cs, isWordChar c = true) (hne : cs ≠ [])
    (h : ∀ keyword ∈ connectives, lower keyword ≠ lower cs) : Inert cs where
  balanced := (flat_of_wordChars hw).balanced
  unbroken keyword hk := unbroken_of_lower_ne hw (h keyword hk)
  signless := signless_of_wordChars hw
  visible := by rwa [strip_of_flat (trimmed_of_wordChars hw) (flat_of_wordChars hw)]

theorem ne_nil_of_mnemonic (h : lower name = lower i.mnemonic.toList) : name ≠ [] := by
  rintro rfl
  exact (mnemonic_spec i).2.2.1 (List.map_eq_nil_iff.mp h.symm)

theorem trimmed_call (gap args : List Char) (h : lower name = lower i.mnemonic.toList) :
    Trimmed (name ++ gap ++ '(' :: (args ++ [')'])) ∧
      ∀ c ∈ (name ++ gap ++ '(' :: (args ++ [')'])).head?, c ≠ '(' := by
  have hw := wordChars_of_mnemonic h
  have hhead : ∀ c ∈ (name ++ gap ++ '(' :: (args ++ [')'])).head?, c ∈ name.head? := by
    intro c hc
    rwa [List.append_assoc, List.head?_append_of_ne_nil _ (ne_nil_of_mnemonic h)] at hc
  refine ⟨⟨fun c hc => (trimmed_of_wordChars hw).front c (hhead c hc), ?_⟩, ?_⟩
  · intro c hc
    rw [List.getLast?_append_of_ne_nil _ (by simp), ← List.cons_append, List.getLast?_concat] at hc
    obtain rfl := Option.some.inj hc
    decide
  · intro c hc
    exact (ne_paren_of_isWordChar (hw c (List.mem_of_mem_head? (hhead c hc)))).1

theorem inert_call (h : lower name = lower i.mnemonic.toList) (hgap : Blank gap) (hargs : Flat args) :
    Inert (name ++ gap ++ '(' :: (args ++ [')'])) := by
  have hw := wordChars_of_mnemonic h
  have hname : Inert name := inert_of_wordChars hw (ne_nil_of_mnemonic h) fun keyword hk => by
    rw [h]
    exact (mnemonic_spec i).2.1 keyword hk
  have hd : depth (name ++ gap) = 0 := by simp [hname.balanced.even, (flat_of_blank hgap).depth_eq]
  constructor
  · exact (hname.balanced.append (flat_of_blank hgap).balanced).append hargs.balanced.enclosed
  · intro keyword hk
    have hkey := isKeyword_of_mem hk
    have hfront : Apart (name ++ gap) ('(' :: (args ++ [')'])) := apart_of_front fun c hc => by
      obtain rfl := Option.some.inj hc
      decide
    rw [unbroken_append_iff hkey hd hfront,
      unbroken_append_iff hkey hname.balanced.even (apart_of_blank_right hgap)]
    exact ⟨⟨hname.unbroken keyword hk, unbroken_of_blank hkey hgap⟩,
      unbroken_enclosed hkey hargs.balanced⟩
  · rw [signless_append_iff hd, signless_append_iff hname.balanced.even]
    exact ⟨⟨hname.signless, signless_of_blank hgap⟩, signless_enclosed hargs.balanced⟩
  · obtain ⟨htrim, hhead⟩ := trimmed_call gap args h
    rw [strip_of_trimmed htrim hhead]
    simp

theorem IsOperand.inert (h : IsOperand cs t) : Inert cs := by
  induction h with
  | number h => exact inert_of_finite? h
  | @series cs s h =>
    refine inert_of_wordChars (wordChars_of_series h) ?_ fun keyword hk => ?_
    · rintro rfl
      exact (series_spec s).2.2 (h ▸ List.nil_subset _)
    · rw [h]
      exact (series_spec s).2.1 keyword hk
  | call h hgap hargs => exact inert_call h hgap hargs.flat
  | enclosed _ ih => exact ih.enclosed
  | padded hl hr _ ih => exact ih.pad hl hr

/-- An operand is read by its stripped text alone. -/
theorem operand_congr (h : strip cs = strip ds) : operand mode cs = operand mode ds := by
  rw [operand, operand, h]

theorem series_find?_of_finite? (h : finite? cs = some x) : Series.find? cs = none := by
  rw [Option.eq_none_iff_forall_ne_some]
  intro s hs
  have hname := series_find?_eq_some hs
  rw [trim_of_trimmed (trimmed_of_finite? h)] at hname
  apply (series_spec s).2.2
  rw [← hname]
  intro d hd
  obtain ⟨c, hc, rfl⟩ := List.mem_map.mp hd
  exact (numerals_lower c ((finite?_subset h).2 hc)).1

theorem finite?_of_series (h : lower cs = s.name.toList) : finite? cs = none := by
  rw [Option.eq_none_iff_forall_ne_some]
  intro x hx
  have hnone := series_find?_of_finite? hx
  rw [series_find?_of_lower (s := s)] at hnone
  · cases hnone
  · rwa [trim_of_trimmed (trimmed_of_finite? hx)]

theorem finite?_of_mem (h : '(' ∈ cs) : finite? cs = none := by
  rw [Option.eq_none_iff_forall_ne_some]
  intro x hx
  exact (flat_of_finite? hx '(' h).1 rfl

theorem series_find?_of_mem (ht : Trimmed cs) (h : '(' ∈ cs) : Series.find? cs = none := by
  rw [Option.eq_none_iff_forall_ne_some]
  intro s hs
  have hname := series_find?_eq_some hs
  rw [trim_of_trimmed ht] at hname
  exact (ne_paren_of_isWordChar (wordChars_of_series hname '(' h)).1 rfl

theorem call?_eq_some (h : lower name = lower i.mnemonic.toList) (hgap : Blank gap)
    (hargs : Flat args) : call? (name ++ gap ++ '(' :: (args ++ [')'])) = some (name, args) := by
  have hw := wordChars_of_mnemonic h
  have hopen : '(' ∉ name ++ gap := by
    intro hmem
    rcases List.mem_append.mp hmem with hc | hc
    · exact (ne_paren_of_isWordChar (hw _ hc)).1 rfl
    · exact (flat_of_blank hgap _ hc).1 rfl
  have htrim : trim (name ++ gap) = name := by
    have hpad := trim_append blank_nil hgap name
    rwa [List.nil_append, trim_of_trimmed (trimmed_of_wordChars hw)] at hpad
  have hdigit : name.head?.any Char.isDigit = false := by
    rw [Option.any_eq_false]
    intro c hc
    have hhead : c.toLower ∈ (lower i.mnemonic.toList).head? := by
      rw [← h, lower, List.head?_map, hc]
      rfl
    rw [← isDigit_toLower, (mnemonic_spec i).2.2.2 c.toLower hhead]
  have hflat : args.all (fun c => c != '(' && c != ')') = true := by
    simpa [Flat, List.all_eq_true] using hargs
  have hword : name.all isWordChar = true := List.all_eq_true.mpr hw
  rw [call?, splitFirst?_append hopen]
  simp [htrim, hdigit, hflat, hword, ne_nil_of_mnemonic h, -List.all_eq_true]

/-- Operands of the grammar are read in either mode. -/
theorem operand_of_isOperand (h : IsOperand cs t) : operand mode cs = .ok t := by
  induction h with
  | @number cs x h =>
    have hvisible := (inert_of_finite? h).visible
    rw [strip_of_flat (trimmed_of_finite? h) (flat_of_finite? h)] at hvisible
    rw [operand, strip_of_flat (trimmed_of_finite? h) (flat_of_finite? h)]
    simp [hvisible, h]
  | @series cs s h =>
    have hw := wordChars_of_series h
    have hname : lower (trim cs) = s.name.toList := by rwa [trim_of_trimmed (trimmed_of_wordChars hw)]
    have hvisible := (IsOperand.series h).inert.visible
    rw [strip_of_flat (trimmed_of_wordChars hw) (flat_of_wordChars hw)] at hvisible
    rw [operand, strip_of_flat (trimmed_of_wordChars hw) (flat_of_wordChars hw)]
    simp [hvisible, finite?_of_series h, series_find?_of_lower hname]
  | @call name gap args i settings h hgap hargs =>
    obtain ⟨htrim, hhead⟩ := trimmed_call gap args h
    have hopen : '(' ∈ name ++ gap ++ '(' :: (args ++ [')']) := by simp
    rw [operand, strip_of_trimmed htrim hhead]
    simp only [finite?_of_mem hopen, series_find?_of_mem htrim hopen, call?_eq_some h hgap hargs.flat,
      indicatorCall, indicator_find?_of_lower h, storeArguments_of_isArguments hargs]
    rw [if_neg (by simp)]
    rfl
  | enclosed h ih => rw [operand_congr (strip_enclosed h.inert.balanced), ih]
  | padded hl hr _ ih => rw [operand_congr (strip_append hl hr _), ih]

theorem call?_sound (h : call? cs = some (name, args)) :
    Flat args ∧ ∃ l gap, Blank l ∧ Blank gap ∧ cs = l ++ (name ++ gap ++ '(' :: (args ++ [')'])) ++ [] := by
  obtain ⟨⟨before, after⟩, hsplit, hrest⟩ := Option.bind_eq_some_iff.mp h
  simp only [Option.ite_none_right_eq_some] at hrest
  obtain ⟨⟨hlast, _, hflat⟩, heq⟩ := hrest
  obtain ⟨rfl, rfl⟩ := Prod.mk.inj (Option.some.inj heq)
  obtain ⟨l, gap, hl, hgap, hbefore⟩ := exists_trim before
  refine ⟨by simpa [Flat, List.all_eq_true] using hflat, l, gap, hl, hgap, ?_⟩
  rw [(splitFirst?_eq_some hsplit).1, List.dropLast_append_getLast? ')' hlast]
  conv_lhs => rw [hbefore]
  simp

theorem isOperand_of_indicatorCall {source : List Char} (hargs : Flat args) (hgap : Blank gap)
    (h : indicatorCall .strict source name args = .ok t) :
    IsOperand (name ++ gap ++ '(' :: (args ++ [')'])) t := by
  cases hi : Indicator.find? name with
  | none => simp [indicatorCall, hi, fallback] at h
  | some i =>
    simp only [indicatorCall, hi] at h
    obtain ⟨params, hparams, ht⟩ := bind_eq_ok h
    obtain ⟨settings, hset, rfl⟩ := isArguments_of_storeArguments hargs hparams
    obtain rfl : Tree.indicator i (callParams i settings) = t := Except.ok.inj ht
    exact .call (indicator_find?_eq_some hi) hgap hset

/-- Strict reading admits the operands of the grammar only. -/
theorem isOperand_of_operand (h : operand .strict cs = .ok t) : IsOperand cs t := by
  apply IsOperand.of_strip
  obtain ⟨htrim, _⟩ := strip_spec cs
  rw [operand] at h
  generalize strip cs = text at h htrim
  by_cases hempty : text.isEmpty
  · simp [hempty, fallback] at h
  · rw [if_neg hempty] at h
    split at h
    · next x _ _ hx =>
      obtain rfl := Except.ok.inj h
      exact .number hx
    · next s _ hs =>
      obtain rfl := Except.ok.inj h
      have hname := series_find?_eq_some hs
      rw [trim_of_trimmed htrim] at hname
      exact .series hname
    · next name args _ _ hcall =>
      obtain ⟨hflat, l, gap, hl, hgap, rfl⟩ := call?_sound hcall
      exact .padded hl blank_nil (isOperand_of_indicatorCall hflat hgap h)
    · cases h

theorem IsOperand.congr (he : strip cs = strip ds) (h : IsOperand cs t) : IsOperand ds t := by
  apply isOperand_of_operand
  rw [← operand_congr he]
  exact operand_of_isOperand h

end SignalEvolution.Formula

import SignalEvolution.Proofs.Text.Trim

/-! # Texts at their separators

A text is split at its first separator, and at all of them piece by piece. White
space around a text stays around its pieces.
-/
namespace SignalEvolution.Text

variable {separator : Char} {l r cs before after : List Char}

theorem splitFirst?_append (h : separator ∉ before) (after : List Char) :
    splitFirst? separator (before ++ separator :: after) = some (before, after) := by
  induction before with
  | nil => simp [splitFirst?]
  | cons c rest ih =>
    obtain ⟨hc, hrest⟩ := not_or.mp (mt List.mem_cons.mpr h)
    simp [splitFirst?, Ne.symm hc, ih hrest]

theorem splitFirst?_eq_some (h : splitFirst? separator cs = some (before, after)) :
    cs = before ++ separator :: after ∧ separator ∉ before := by
  induction cs generalizing before with
  | nil => cases h
  | cons c rest ih =>
    rw [splitFirst?] at h
    split at h
    · next hc =>
      obtain ⟨rfl, rfl⟩ := Prod.mk.inj (Option.some.inj h)
      simp [hc]
    · next hc =>
      obtain ⟨⟨b, a⟩, hsplit, heq⟩ := Option.map_eq_some_iff.mp h
      obtain ⟨rfl, rfl⟩ := Prod.mk.inj heq
      obtain ⟨rfl, hb⟩ := ih hsplit
      exact ⟨rfl, mt List.mem_cons.mp (not_or.mpr ⟨Ne.symm hc, hb⟩)⟩

theorem splitFirst?_eq_none_iff : splitFirst? separator cs = none ↔ separator ∉ cs := by
  constructor
  · intro h hmem
    obtain ⟨before, after, rfl, hb⟩ := List.eq_append_cons_of_mem hmem
    rw [splitFirst?_append hb] at h
    cases h
  · intro h
    rw [Option.eq_none_iff_forall_ne_some]
    rintro ⟨before, after⟩ hs
    exact h (by rw [(splitFirst?_eq_some hs).1]; simp)

/-- Either no separator is left or there is a first one. -/
theorem separator_cases (separator : Char) (cs : List Char) :
    separator ∉ cs ∨ ∃ before after, cs = before ++ separator :: after ∧ separator ∉ before := by
  by_cases h : separator ∈ cs
  · exact .inr (List.eq_append_cons_of_mem h)
  · exact .inl h

theorem splitOn_of_not_mem (h : separator ∉ cs) : splitOn separator cs = [cs] := by
  induction cs with
  | nil => rfl
  | cons c rest ih =>
    obtain ⟨hc, hrest⟩ := not_or.mp (mt List.mem_cons.mpr h)
    simp [splitOn, Ne.symm hc, ih hrest]

theorem splitOn_append (h : separator ∉ before) (after : List Char) :
    splitOn separator (before ++ separator :: after) = before :: splitOn separator after := by
  induction before with
  | nil => simp [splitOn]
  | cons c rest ih =>
    obtain ⟨hc, hrest⟩ := not_or.mp (mt List.mem_cons.mpr h)
    simp [splitOn, Ne.symm hc, ih hrest]

/-- No piece holds the separator, and the pieces hold nothing that the text does not. -/
theorem mem_splitOn_spec {p : List Char} (h : p ∈ splitOn separator cs) : separator ∉ p ∧ p ⊆ cs := by
  induction hn : cs.length using Nat.strong_induction_on generalizing cs with
  | h n ih =>
    rcases separator_cases separator cs with hcs | ⟨before, after, rfl, hbefore⟩
    · rw [splitOn_of_not_mem hcs, List.mem_singleton] at h
      rw [h]
      exact ⟨hcs, List.Subset.refl _⟩
    · rw [splitOn_append hbefore, List.mem_cons] at h
      rcases h with rfl | h
      · exact ⟨hbefore, List.subset_append_left _ _⟩
      · obtain ⟨hp, hsub⟩ := ih after.length (by rw [← hn]; simp; omega) h rfl
        exact ⟨hp, fun c hc => List.mem_append_right _ (List.mem_cons_of_mem _ (hsub hc))⟩

theorem not_mem_of_blank (hs : isBlank separator = false) (h : Blank cs) : separator ∉ cs := by
  intro hmem
  rw [h separator hmem] at hs
  cases hs

/-- White space around a text changes its pieces by white space. -/
theorem map_trim_splitOn (hs : isBlank separator = false) (hl : Blank l) (hr : Blank r)
    (cs : List Char) :
    (splitOn separator (l ++ cs ++ r)).map trim = (splitOn separator cs).map trim := by
  induction hn : cs.length using Nat.strong_induction_on generalizing cs l with
  | h n ih =>
    have hl' := not_mem_of_blank hs hl
    have hr' := not_mem_of_blank hs hr
    rcases separator_cases separator cs with h | ⟨before, after, rfl, hb⟩
    · rw [splitOn_of_not_mem h, splitOn_of_not_mem (by simp [h, hl', hr'])]
      rw [List.map_singleton, List.map_singleton, trim_append hl hr]
    · have htail := ih after.length (by rw [← hn]; simp; omega) blank_nil after rfl
      have hfirst : separator ∉ l ++ before := by simp [hl', hb]
      have hsplit : l ++ (before ++ separator :: after) ++ r =
          l ++ before ++ separator :: ([] ++ after ++ r) := by simp
      have htrim := trim_append hl blank_nil before
      rw [List.append_nil] at htrim
      rw [hsplit, splitOn_append hfirst, splitOn_append hb, List.map_cons, List.map_cons, htail, htrim]

end SignalEvolution.Text

import SignalEvolution.Proofs.Formula.Operand

/-! # Formulas of the grammar are read

Parts of a formula are read by what they are between white space. A text that
shows a connective is not enclosed, and its pieces are the clauses that the
grammar joins; so every derivation is followed by the reader.
-/
namespace SignalEvolution.Formula
open Text

variable {mode : Mode} {op : Operator} {cs ds left right sign word rest source p q : List Char}
variable {t a b : Tree} {ts us : List Tree} {ps qs : List (List Char)} {cmp : Comparator}
variable {keyword : List Char}

/-- The outline of a piece between connectives. -/
def part (p : List Char) : Outline :=
  if isNested (trim p) (strip p) then outline (strip p) else .clause p (strip p)

theorem outline_blank (h : strip cs = []) : outline cs = .blank cs := by
  rw [outline]
  simp [h]

theorem outline_whole (hne : strip cs ≠ []) (h : ¬ 1 < (pieces (cutWord (strip cs)) (strip cs)).length) :
    outline cs = .clause (strip cs) (strip cs) := by
  rw [outline]
  simp only [List.isEmpty_iff, hne, if_false, h, dif_neg, not_false_iff]

theorem outline_joined (hne : strip cs ≠ []) (h : 1 < (pieces (cutWord (strip cs)) (strip cs)).length) :
    outline cs = .joined cs (occurs andWord (strip cs) && occurs orWord (strip cs))
      (cutOperator (strip cs)) ((pieces (cutWord (strip cs)) (strip cs)).map part) := by
  rw [outline]
  simp only [List.isEmpty_iff, hne, if_false, h, dif_pos]
  congr 1
  simp only [strip_trim]
  exact List.attach_map_val (f := part)

theorem outline_tree_blank (h : strip cs = []) :
    (outline cs).tree mode = fallback mode "empty formula" cs := by
  rw [outline_blank h]
  rfl

theorem clause_comparison (hne : cs ≠ []) (hc : comparison? cs = some (left, cmp, right)) :
    clause mode source cs = (do
      let a ← operand mode left
      let b ← operand mode right
      return Tree.compare cmp a b) := by
  simp [clause, hne, hc]

theorem clause_bare (hne : cs ≠ []) (hc : comparison? cs = none) :
    clause .lenient source cs = operand .lenient cs := by
  simp [clause, hne, hc]

theorem fallback_congr {reason : String} {other : List Char} (h : fallback mode reason source = .ok t) :
    fallback mode reason other = .ok t := by
  cases mode with
  | strict => cases h
  | lenient => exact h

theorem clause_congr {other : List Char} (h : clause mode source cs = .ok t) :
    clause mode other cs = .ok t := by
  unfold clause at h ⊢
  split at h
  · next hempty =>
    rw [if_pos hempty]
    exact fallback_congr h
  · next hempty =>
    rw [if_neg hempty]
    cases hc : comparison? cs with
    | some cut => simpa [hc] using h
    | none =>
      cases mode with
      | strict => simp [hc] at h
      | lenient => simpa [hc] using h

theorem outline_tree_congr (he : strip cs = strip ds) (h : (outline cs).tree mode = .ok t) :
    (outline ds).tree mode = .ok t := by
  by_cases hne : strip cs = []
  · rw [outline_tree_blank hne] at h
    rw [outline_tree_blank (he ▸ hne)]
    exact fallback_congr h
  · by_cases hcut : 1 < (pieces (cutWord (strip cs)) (strip cs)).length
    · rw [outline_joined hne hcut, Outline.tree] at h
      rw [outline_joined (he ▸ hne) (he ▸ hcut), Outline.tree, ← he]
      split at h
      · cases h
      · next hmixed => rwa [if_neg hmixed]
    · rw [outline_whole hne hcut] at h
      rwa [outline_whole (he ▸ hne) (he ▸ hcut), ← he]

/-- A part is read by what it is between white space. -/
theorem part_tree_congr (he : trim p = trim q) (h : (part p).tree mode = .ok t) :
    (part q).tree mode = .ok t := by
  unfold part at h ⊢
  rw [← he, ← strip_congr he]
  split at h
  · next hnested => rwa [if_pos hnested]
  · next hnested =>
    rw [if_neg hnested]
    exact clause_congr h

theorem trees_eq_ok_iff : Outline.trees mode (ps.map part) = .ok ts ↔
    List.Forall₂ (fun p t => (part p).tree mode = .ok t) ps ts := by
  induction ps generalizing ts with
  | nil =>
    rw [List.map_nil, Outline.trees, List.forall₂_nil_left_iff, Except.ok.injEq, eq_comm]
  | cons p ps ih =>
    rw [List.map_cons, Outline.trees, List.forall₂_cons_left_iff]
    constructor
    · intro h
      obtain ⟨t, ht, hrest⟩ := bind_eq_ok h
      obtain ⟨us, hus, heq⟩ := bind_eq_ok hrest
      exact ⟨t, us, ht, ih.mp hus, (Except.ok.inj heq).symm⟩
    · rintro ⟨t, us, ht, hus, rfl⟩
      rw [ht, ih.mpr hus]
      rfl

theorem forall₂_part_congr (he : ps.map trim = qs.map trim)
    (h : List.Forall₂ (fun p t => (part p).tree mode = .ok t) ps ts) :
    List.Forall₂ (fun p t => (part p).tree mode = .ok t) qs ts := by
  induction h generalizing qs with
  | nil =>
    obtain rfl := List.map_eq_nil_iff.mp he.symm
    exact .nil
  | cons ht _ ih =>
    obtain ⟨q, qs, rfl, hq, hqs⟩ := List.map_eq_cons_iff.mp he.symm
    exact .cons (part_tree_congr hq.symm ht) (ih hqs.symm)

end SignalEvolution.Formula

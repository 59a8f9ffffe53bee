import Mathlib
import SignalEvolution.Evolution.Population
import SignalEvolution.Proofs.Arithmetic.Extremes

/-! # When a history has converged

A history has converged when the greatest and the least rank of its last entries are close, and
then any two of them are. Over binary64 numbers that takes finite ranks: an infinity is not
close to anything, not even to itself.
-/
namespace SignalEvolution

section Window

variable {α : Type} [Scalar α] {best : List α} {window : Nat}

/-- The last entries of a history as they rank. -/
def trailingRanks (best : List α) (window : Nat) : List α :=
  (best.drop (best.length - window)).map Scalar.rank

theorem exists_trailingRanks (hwindow : 0 < window) (hlength : window ≤ best.length) :
    ∃ first rest, trailingRanks best window = first :: rest := by
  apply List.exists_cons_of_length_pos
  simp [trailingRanks]
  omega

theorem hasConverged_of_trailingRanks {first : α} {rest : List α} (hwindow : 0 < window)
    (hlength : window ≤ best.length) (hranks : trailingRanks best window = first :: rest) (epsilon : α) :
    hasConverged best window epsilon =
      decide (rest.foldl Scalar.max first - rest.foldl Scalar.min first < epsilon) := by
  have hopen : ¬ (window = 0 ∨ best.length < window) := by omega
  rw [hasConverged, if_neg hopen]
  rw [trailingRanks] at hranks
  simp only [hranks]

theorem hasConverged_append (earlier recent : List α) (epsilon : α) :
    hasConverged (earlier ++ recent) recent.length epsilon = hasConverged recent recent.length epsilon := by
  simp [hasConverged]

end Window

variable {window : Nat}

/-- Without rounding, a history has converged if and only if any two of its last entries are close. -/
theorem hasConverged_exact_iff {best : List ℚ} {epsilon : ℚ} (hwindow : 0 < window)
    (hlength : window ≤ best.length) : hasConverged best window epsilon = true ↔
      ∀ a ∈ trailingRanks best window, ∀ b ∈ trailingRanks best window, |a - b| < epsilon := by
  obtain ⟨first, rest, hranks⟩ := exists_trailingRanks hwindow hlength
  have hall : ∀ r ∈ rest, True := fun _ _ => trivial
  obtain ⟨hmax, habove⟩ := Exact.picks_max.foldl (trivial : True) hall
  obtain ⟨hmin, hbelow⟩ := Exact.picks_min.foldl (trivial : True) hall
  rw [hasConverged_of_trailingRanks hwindow hlength hranks, decide_eq_true_iff, hranks]
  constructor
  · intro hclose a ha b hb
    have hab : a - b ≤ rest.foldl Scalar.max first - rest.foldl Scalar.min first :=
      sub_le_sub (habove a ha) (hbelow b hb)
    have hba : b - a ≤ rest.foldl Scalar.max first - rest.foldl Scalar.min first :=
      sub_le_sub (habove b hb) (hbelow a ha)
    exact abs_sub_lt_iff.mpr ⟨hab.trans_lt hclose, hba.trans_lt hclose⟩
  · intro hclose
    exact (abs_sub_lt_iff.mp (hclose _ hmax _ hmin)).1

theorem isNaN_trailingRanks (best : List Float) (window : Nat) :
    ∀ r ∈ trailingRanks best window, r.isNaN = false := by
  intro r hr
  obtain ⟨x, -, rfl⟩ := List.mem_map.mp hr
  exact Binary.isNaN_rank x

/-- Numbers have converged if and only if the last ones rank as finite and any two of them are close. -/
theorem hasConverged_number_iff {best : List Float} {epsilon : Float} (hwindow : 0 < window)
    (hlength : window ≤ best.length) : hasConverged best window epsilon = true ↔
      (∀ r ∈ trailingRanks best window, r.isFinite = true) ∧
      ∀ a ∈ trailingRanks best window, ∀ b ∈ trailingRanks best window, a - b < epsilon := by
  obtain ⟨first, rest, hranks⟩ := exists_trailingRanks hwindow hlength
  have hnumbers : ∀ r ∈ first :: rest, r.isNaN = false := hranks ▸ isNaN_trailingRanks best window
  obtain ⟨hfirst, hrest⟩ := List.forall_mem_cons.mp hnumbers
  obtain ⟨hmax, habove⟩ := Binary.picks_max.foldl hfirst hrest
  obtain ⟨hmin, hbelow⟩ := Binary.picks_min.foldl hfirst hrest
  rw [hasConverged_of_trailingRanks hwindow hlength hranks, decide_eq_true_iff, hranks]
  constructor
  · intro hclose
    have horder := hbelow _ hmax
    obtain ⟨hhigh, hlow⟩ := Binary.isFinite_of_sub_lt horder hclose
    have hfinite : ∀ r ∈ first :: rest, r.isFinite = true := fun r hr =>
      Binary.isFinite_of_within (hbelow r hr) (habove r hr) hhigh hlow
    refine ⟨hfinite, ?_⟩
    intro a ha b hb
    exact Binary.sub_lt_of_within horder (habove a ha) (hbelow b hb) (hfinite a ha) (hfinite b hb) hclose
  · rintro ⟨-, hclose⟩
    exact hclose _ hmax _ hmin

theorem hasConverged_eq_spread {best : List Float} (epsilon : Float) (hwindow : 0 < window)
    (hlength : window ≤ best.length) : hasConverged best window epsilon =
      decide ((trailingRanks best window).foldl Scalar.max (-infinity) -
        (trailingRanks best window).foldl Scalar.min infinity < epsilon) := by
  obtain ⟨first, rest, hranks⟩ := exists_trailingRanks hwindow hlength
  have hfirst := isNaN_trailingRanks best window first (hranks ▸ List.mem_cons_self)
  rw [hasConverged_of_trailingRanks hwindow hlength hranks, hranks, List.foldl_cons, List.foldl_cons,
    Binary.max_neg_infinity hfirst, Binary.min_infinity hfirst]

/-- Whether a history has converged is settled by the ranks of its last entries, as many as the window
has, and never by what came before. Without rounding it has if and only if any two of them differ by
less than epsilon; over binary64 numbers they have to be finite as well. So ranks that are all
equal have converged if they are finite and have not if they are infinite. -/
theorem converged_iff_close (window : Nat) (hwindow : 0 < window) :
    (∀ (best : List ℚ) (epsilon : ℚ), window ≤ best.length → (hasConverged best window epsilon = true ↔
      ∀ a ∈ trailingRanks best window, ∀ b ∈ trailingRanks best window, |a - b| < epsilon)) ∧
    (∀ (best : List Float) (epsilon : Float), window ≤ best.length →
      hasConverged best window epsilon =
        decide ((trailingRanks best window).foldl Scalar.max (-infinity) -
          (trailingRanks best window).foldl Scalar.min infinity < epsilon) ∧
      (hasConverged best window epsilon = true ↔
        (∀ r ∈ trailingRanks best window, r.isFinite = true) ∧
        ∀ a ∈ trailingRanks best window, ∀ b ∈ trailingRanks best window, a - b < epsilon) ∧
      ((∀ a ∈ trailingRanks best window, ∀ b ∈ trailingRanks best window, (a == b) = true) → 0 < epsilon →
        (hasConverged best window epsilon = true ↔ ∀ r ∈ trailingRanks best window, r.isFinite = true))) ∧
    ∀ (α : Type) [Scalar α] (earlier other recent : List α) (epsilon : α), recent.length = window →
      hasConverged (earlier ++ recent) window epsilon = hasConverged (other ++ recent) window epsilon := by
  refine ⟨fun best epsilon => hasConverged_exact_iff hwindow, ?_, ?_⟩
  · intro best epsilon hlength
    have hiff : hasConverged best window epsilon = true ↔ _ := hasConverged_number_iff hwindow hlength
    refine ⟨hasConverged_eq_spread epsilon hwindow hlength, hiff, ?_⟩
    intro hequal hpos
    rw [hiff]
    constructor
    · exact And.left
    · intro hfinite
      refine ⟨hfinite, ?_⟩
      intro a ha b hb
      exact Binary.sub_lt_of_beq (hfinite a ha) (hfinite b hb) (hequal a ha b hb) hpos
  · rintro α _ earlier other recent epsilon rfl
    rw [hasConverged_append, hasConverged_append]

/-- Two scores that are close, after one that is NaN. -/
theorem converged_iff_close_after_nan :
    let best : List Float := [GenerationStats.notANumber, 0.5, 0.75]
    0 < 2 ∧ trailingRanks best 2 = [0.5, 0.75] ∧ hasConverged best 2 1 = true ∧
      (∀ a ∈ trailingRanks best 2, ∀ b ∈ trailingRanks best 2, a - b < 1) ∧
      hasConverged best 2 1 = hasConverged [0.5, 0.75] 2 1 := by
  intro best
  have hconverged : hasConverged best 2 1 = true := by decide +kernel
  obtain ⟨-, hnumbers, hrecent⟩ := converged_iff_close 2 (by decide)
  have hclose := ((hnumbers best 1 (by decide)).2.1.mp hconverged).2
  exact ⟨by decide, by decide +kernel, hconverged, hclose,
    hrecent Float [GenerationStats.notANumber] [] [0.5, 0.75] 1 rfl⟩

/-- Scores that stay NaN rank as one infinity and have not converged. -/
theorem not_hasConverged_lasting_nan :
    let best : List Float := [GenerationStats.notANumber, GenerationStats.notANumber]
    (∀ a ∈ trailingRanks best 2, ∀ b ∈ trailingRanks best 2, (a == b) = true) ∧
      hasConverged best 2 1 = false := by
  decide +kernel

end SignalEvolution

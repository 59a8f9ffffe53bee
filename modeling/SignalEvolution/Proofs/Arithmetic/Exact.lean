import Mathlib
import SignalEvolution.Arithmetic.Exact

/-! # Arithmetic without rounding

Over rational numbers every operation of a scalar is the one of the field.
-/
namespace SignalEvolution.Exact

theorem not_isNaN (x : ℚ) : ¬ Scalar.isNaN x = true := by
  simp [Scalar.isNaN]

theorem max_eq (x y : ℚ) : Scalar.max x y = max x y := by
  rw [Scalar.max, if_neg (not_isNaN x)]
  split
  · next h => exact (max_eq_right (le_of_lt h)).symm
  · next h => exact (max_eq_left (not_lt.mp h)).symm

theorem min_eq (x y : ℚ) : Scalar.min x y = min x y := by
  rw [Scalar.min, if_neg (not_isNaN x)]
  split
  · next h => exact (min_eq_right (le_of_lt h)).symm
  · next h => exact (min_eq_left (not_lt.mp h)).symm

theorem sum_eq (xs : List ℚ) : Scalar.sum xs = xs.sum := by
  have hfold : ∀ total : ℚ, xs.foldl (· + ·) total = total + xs.sum := by
    induction xs with
    | nil => simp
    | cons x rest ih =>
      intro total
      rw [List.foldl_cons, ih, List.sum_cons, add_assoc]
  calc Scalar.sum xs = -0 + xs.sum := hfold _
    _ = xs.sum := by simp

theorem mean_eq (xs : List ℚ) : Scalar.mean xs = if xs.isEmpty then 0 else xs.sum / (xs.length : ℚ) := by
  rw [← sum_eq]
  rfl

end SignalEvolution.Exact

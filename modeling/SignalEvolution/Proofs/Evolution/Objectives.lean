import Mathlib
import SignalEvolution.Evolution.Objectives
import SignalEvolution.Proofs.Arithmetic.Exact

/-! # Weights that add up to one

The share of an objective without a weight has three cases, and whether there is anything to
share is asked elsewhere. Over rational numbers the two agree: where objectives are accepted and
one of them has no weight, all that the given weights leave of 1 is shared out, and it is
something, whatever the signs of the given weights are.
-/
namespace SignalEvolution

namespace Weights

variable {weights : List (Option ℚ)}

theorem given_eq (weights : List (Option ℚ)) : given weights = (weights.filterMap id).sum := Exact.sum_eq _

theorem openCount_pos_iff : 0 < openCount weights ↔ none ∈ weights := by
  rw [openCount, List.length_filter_pos_iff]
  simp

theorem share_eq_of_lt (hlt : given weights < 1) (hopen : 0 < openCount weights) :
    share weights = (1 - given weights) / openCount weights := by
  have hcases : share weights = if openCount weights = 0 then 0
      else if given weights == 0 then 1 / (openCount weights : ℚ)
      else Scalar.max (1 - given weights) 0 / (openCount weights : ℚ) := rfl
  rw [hcases, if_neg hopen.ne']
  split
  · next hzero => rw [eq_of_beq hzero, sub_zero]
  · rw [Exact.max_eq, max_eq_left (sub_nonneg.mpr hlt.le)]

theorem share_pos_of_lt (hlt : given weights < 1) (hopen : 0 < openCount weights) : 0 < share weights := by
  rw [share_eq_of_lt hlt hopen]
  exact div_pos (sub_pos.mpr hlt) (Nat.cast_pos.mpr hopen)

theorem sum_getD (weights : List (Option ℚ)) (x : ℚ) :
    (weights.map fun w => w.getD x).sum = given weights + openCount weights * x := by
  rw [given_eq, openCount]
  induction weights with
  | nil => simp
  | cons w rest ih =>
    cases w with
    | none =>
      simp [ih]
      ring
    | some w => simp [ih, add_assoc]

theorem sum_effective (hlt : given weights < 1) (hopen : 0 < openCount weights) :
    (effective weights).sum = 1 := by
  have hcount : (openCount weights : ℚ) ≠ 0 := Nat.cast_ne_zero.mpr hopen.ne'
  calc (effective weights).sum
    _ = given weights + openCount weights * share weights := sum_getD weights _
    _ = given weights + (1 - given weights) := by rw [share_eq_of_lt hlt hopen, mul_div_cancel₀ _ hcount]
    _ = 1 := by ring

end Weights

namespace Objective

section Check

variable {α : Type} [Scalar α] {objectives : List (Objective α)}

/-- None is left without a weight if something is left, or nobody to leave it to. -/
theorem starved_eq_nil_iff : starved objectives = [] ↔
    Weights.given (objectives.map weight) < 1 ∨ ∀ o ∈ objectives, o.weight ≠ none := by
  unfold starved Weights.exhausted
  by_cases hlt : Weights.given (objectives.map weight) < 1
  · simp [hlt]
  · simp [hlt]

/-- Objectives are accepted if there are any, all weights are finite, and none of them is left without. -/
theorem check_eq_ok_iff : check objectives = .ok () ↔
    objectives ≠ [] ∧ (∀ w ∈ weights objectives, Scalar.isFinite w = true) ∧
      (Weights.given (objectives.map weight) < 1 ∨ ∀ o ∈ objectives, o.weight ≠ none) := by
  have hinfinite : ((weights objectives).any fun w => !Scalar.isFinite w) = true ↔
      ¬ ∀ w ∈ weights objectives, Scalar.isFinite w = true := by simp
  rw [← starved_eq_nil_iff, ← List.isEmpty_iff (l := starved objectives), Ne, ← List.isEmpty_iff, check]
  split
  · next hempty => simp [hempty]
  · next hsome =>
    split
    · next hany => simp [hinfinite.mp hany]
    · next hnone =>
      have hfinite : ∀ w ∈ weights objectives, Scalar.isFinite w = true := not_not.mp (mt hinfinite.mpr hnone)
      simpa [hsome] using fun _ => hfinite

end Check

variable {objectives : List (Objective ℚ)}

theorem room_of_check (hcheck : check objectives = .ok ()) (hopen : ∃ o ∈ objectives, o.weight = none) :
    Weights.given (objectives.map weight) < 1 ∧ 0 < Weights.openCount (objectives.map weight) := by
  obtain ⟨-, -, hroom⟩ := check_eq_ok_iff.mp hcheck
  obtain ⟨o, ho, hnone⟩ := hopen
  constructor
  · exact hroom.resolve_right fun hall => hall o ho hnone
  · exact Weights.openCount_pos_iff.mpr (List.mem_map.mpr ⟨o, ho, hnone⟩)

/-- The engine refuses just the objectives that fail their check, and is as it was. -/
theorem evolveObjectives_refused {σ : Type} [WordSource σ] (e : Engine σ) (initial : Option (List Gene))
    (objectives : List Objective) (p : Problem) (f : Engine σ) :
    e.evolveObjectives initial objectives = some (.error p, f) ↔ check objectives = .error p ∧ f = e := by
  unfold Engine.evolveObjectives
  cases check objectives with
  | error q => simp [eq_comm]
  | ok _ => simp

/-- Without rounding, the weights of accepted objectives of which one has none of its own add up to 1:
those that are given are kept, negative ones and zeros among them, and all others are the same
positive share. Objectives are refused by their check alone, and then the engine is as it was, its
words and its hall included. -/
theorem weights_complete :
    (∀ objectives : List (Objective ℚ), check objectives = .ok () → (∃ o ∈ objectives, o.weight = none) →
      (weights objectives).sum = 1 ∧
      ∃ share, 0 < share ∧ weights objectives = objectives.map fun o => o.weight.getD share) ∧
    ∀ {σ : Type} [WordSource σ] (e : Engine σ) (initial : Option (List Gene)) (objectives : List Objective)
      (p : Problem) (f : Engine σ),
      e.evolveObjectives initial objectives = some (.error p, f) ↔ check objectives = .error p ∧ f = e := by
  refine ⟨?_, evolveObjectives_refused⟩
  intro objectives hcheck hopen
  obtain ⟨hlt, hcount⟩ := room_of_check hcheck hopen
  refine ⟨Weights.sum_effective hlt hcount, _, Weights.share_pos_of_lt hlt hcount, ?_⟩
  exact List.map_map

/-- A negative weight, a zero and two objectives without a weight. -/
theorem weights_complete_mixed :
    let objectives : List (Objective ℚ) :=
      [⟨"profit", some (-1 / 2), fun _ _ _ => 1⟩, ⟨"depth", none, fun _ _ _ => 1⟩,
        ⟨"size", some 0, fun _ _ _ => 1⟩, ⟨"trades", none, fun _ _ _ => 1⟩]
    (check objectives = .ok () ∧ ∃ o ∈ objectives, o.weight = none) ∧
    (weights objectives).sum = 1 ∧ weights objectives = [-1 / 2, 3 / 4, 0, 3 / 4] := by
  intro objectives
  have hcheck : check objectives = .ok () := by
    rw [check_eq_ok_iff]
    exact ⟨List.cons_ne_nil _ _, fun _ _ => rfl, .inl (by decide +kernel)⟩
  have hopen : ∃ o ∈ objectives, o.weight = none := by simp [objectives]
  obtain ⟨hsum, -⟩ := weights_complete.1 objectives hcheck hopen
  exact ⟨⟨hcheck, hopen⟩, hsum, by decide +kernel⟩

end Objective
end SignalEvolution

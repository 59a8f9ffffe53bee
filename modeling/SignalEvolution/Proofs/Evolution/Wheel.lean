import Mathlib
import SignalEvolution.Proofs.Arithmetic.Extremes
import SignalEvolution.Proofs.Evolution.Selection
import SignalEvolution.Proofs.Random.Numbers
import SignalEvolution.Proofs.Random.Uniform

/-! # Where the roulette wheel stops

The wheel takes the weights in turn from what the spin has left. Without rounding it stops
where the weights so far first add up to the spin. With rounding it still stops at a
positive weight if there is one, and where there is none every member is drawn as often.
-/
namespace SignalEvolution

namespace Roulette
open Binary

section Exact

variable {β : Type} {weighted rest : List (ℚ × β)} {x : β} {target u w : ℚ} {i : ℕ}

/-- The entry at this place has weight, and with it the weights so far add up to the target. -/
def Reaches (weighted : List (ℚ × β)) (target : ℚ) (i : ℕ) : Prop :=
  ∃ e, weighted[i]? = some e ∧ 0 < e.1 ∧ target ≤ ((weighted.take (i + 1)).map Prod.fst).sum

theorem reaches_zero : Reaches ((w, x) :: rest) target 0 ↔ 0 < w ∧ target ≤ w := by
  simp [Reaches]

theorem reaches_succ : Reaches ((w, x) :: rest) target (i + 1) ↔ Reaches rest (target - w) i := by
  simp only [Reaches, List.getElem?_cons_succ, List.take_succ_cons, List.map_cons, List.sum_cons,
    sub_le_iff_le_add']

/-- The last positive weight reaches whatever all weights together do. -/
theorem exists_reaches (hnonneg : ∀ e ∈ weighted, 0 ≤ e.1) (hpos : ∃ e ∈ weighted, 0 < e.1)
    (htarget : target ≤ (weighted.map Prod.fst).sum) : ∃ i, Reaches weighted target i := by
  induction weighted generalizing target with
  | nil => simp at hpos
  | cons entry rest ih =>
    obtain ⟨w, x⟩ := entry
    obtain ⟨hw, hrest⟩ := List.forall_mem_cons.mp hnonneg
    rw [List.map_cons, List.sum_cons] at htarget
    by_cases hlater : ∃ e ∈ rest, 0 < e.1
    · obtain ⟨i, hi⟩ := ih hrest hlater (sub_le_iff_le_add'.mpr htarget)
      exact ⟨i + 1, reaches_succ.mpr hi⟩
    · have hzero : (rest.map Prod.fst).sum = 0 := by
        apply List.sum_eq_zero
        intro v hv
        obtain ⟨e, he, rfl⟩ := List.mem_map.mp hv
        exact (hrest e he).antisymm' (not_lt.mp fun hpos => hlater ⟨e, he, hpos⟩)
      have hfirst : 0 < w := by
        obtain ⟨e, he, hpos⟩ := hpos
        rcases List.mem_cons.mp he with rfl | he
        · exact hpos
        · exact absurd ⟨e, he, hpos⟩ hlater
      exact ⟨0, reaches_zero.mpr ⟨hfirst, by linarith⟩⟩

theorem stop?_cons (target w : ℚ) (x : β) (rest : List (ℚ × β)) : stop? target ((w, x) :: rest) =
    if w ≤ 0 then stop? target rest else if target - w ≤ 0 then some x else stop? (target - w) rest := rfl

/-- What is left of the spin is the target less the weights so far. -/
theorem stop?_eq (hnonneg : ∀ e ∈ weighted, 0 ≤ e.1) (h : Reaches weighted target i)
    (hfirst : ∀ j < i, ¬ Reaches weighted target j) :
    stop? target weighted = weighted[i]?.map Prod.snd := by
  induction weighted generalizing target i with
  | nil => simp [Reaches] at h
  | cons entry rest ih =>
    obtain ⟨w, x⟩ := entry
    obtain ⟨hw, hrest⟩ := List.forall_mem_cons.mp hnonneg
    rw [stop?_cons]
    cases i with
    | zero =>
      obtain ⟨hpos, hreached⟩ := reaches_zero.mp h
      rw [if_neg (not_le.mpr hpos), if_pos (sub_nonpos.mpr hreached)]
      rfl
    | succ i =>
      have hlater := ih hrest (reaches_succ.mp h) fun j hj hreached =>
        hfirst (j + 1) (Nat.succ_lt_succ hj) (reaches_succ.mpr hreached)
      have hpassed := hfirst 0 i.succ_pos
      rw [reaches_zero] at hpassed
      split
      · next hzero =>
        obtain rfl : w = 0 := le_antisymm hzero hw
        rwa [sub_zero] at hlater
      · next hpos =>
        rw [if_neg (fun hreached => hpassed ⟨not_le.mp hpos, sub_nonpos.mp hreached⟩)]
        exact hlater

/-- A spin over a share of all weights stops at the first entry that reaches it. -/
theorem spin?_exact (hnonneg : ∀ e ∈ weighted, 0 ≤ e.1) (hpos : ∃ e ∈ weighted, 0 < e.1) (hu : u ≤ 1) :
    ∃ i e, IsLeast {i | Reaches weighted (u * (weighted.map Prod.fst).sum) i} i ∧ weighted[i]? = some e ∧
      spin? u weighted = some e.2 := by
  have htotal : 0 ≤ (weighted.map Prod.fst).sum := by
    apply List.sum_nonneg
    intro v hv
    obtain ⟨e, he, rfl⟩ := List.mem_map.mp hv
    exact hnonneg e he
  obtain ⟨j, hj⟩ := exists_reaches hnonneg hpos (mul_le_of_le_one_left htotal hu)
  let reached := {i | Reaches weighted (u * (weighted.map Prod.fst).sum) i}
  have hleast : IsLeast reached (sInf reached) := ⟨Nat.sInf_mem ⟨j, hj⟩, fun k hk => Nat.sInf_le hk⟩
  obtain ⟨e, he, -⟩ := hleast.1
  have hstop := stop?_eq hnonneg hleast.1 fun k hk hreached => absurd (hleast.2 hreached) (not_le.mpr hk)
  rw [he, Option.map_some] at hstop
  refine ⟨sInf reached, e, hleast, he, ?_⟩
  rw [spin?, Exact.sum_eq, hstop]

end Exact

section Rounded

variable {acc x score : Float} {ws : List Float}

/-- A score as far as it is positive and finite. -/
def exactWeight (score : Float) : ℚ := if score.isFinite = true then max (value score) 0 else 0

theorem exactWeight_nonneg (score : Float) : 0 ≤ exactWeight score := by
  unfold exactWeight
  split
  · exact le_max_right _ _
  · exact le_rfl

theorem exactWeight_pos_iff (score : Float) : 0 < exactWeight score ↔ score.isFinite = true ∧ 0 < score := by
  unfold exactWeight
  split
  · next h =>
    rw [lt_iff_value hasValue_zero.number (isNaN_of_isFinite h), hasValue_zero.value]
    simp [h]
  · next h => simp [h]

def IsWeight (x : Float) : Prop := x.isFinite = true ∧ 0 ≤ value x

/-- No weight is rounded. -/
theorem value_weight (score : Float) : (weight score).isFinite = true ∧ value (weight score) = exactWeight score := by
  obtain ⟨hzero, hvalue⟩ := hasValue_zero
  have hzerofinite : (0 : Float).isFinite = true := by decide +kernel
  rw [weight, exactWeight]
  cases hfinite : score.isFinite with
  | false =>
    rw [if_neg (by simp [Scalar.isFinite, hfinite]), if_neg Bool.false_ne_true]
    exact ⟨hzerofinite, hvalue⟩
  | true =>
    have hscore := isNaN_of_isFinite hfinite
    rw [if_pos (by simpa [Scalar.isFinite] using hfinite), if_pos rfl]
    rcases max_cases hscore hzero with ⟨heq, hle⟩ | ⟨heq, hle⟩
    · rw [le_iff_value hscore hzero, hvalue] at hle
      rw [heq, hvalue, max_eq_right hle]
      exact ⟨hzerofinite, rfl⟩
    · rw [le_iff_value hzero hscore, hvalue] at hle
      rw [heq, max_eq_left hle]
      exact ⟨hfinite, rfl⟩

theorem isWeight_weight (score : Float) : IsWeight (weight score) :=
  ⟨(value_weight score).1, (value_weight score).2 ▸ exactWeight_nonneg score⟩

theorem add_weight (hacc : acc.isNaN = false) (hnonneg : 0 ≤ value acc) (hx : IsWeight x) :
    (acc + x).isNaN = false ∧ value acc ≤ value (acc + x) ∧ value x ≤ value (acc + x) := by
  obtain ⟨hfinite, hpos⟩ := hx
  cases haccfinite : acc.isFinite with
  | true =>
    have hsum := hasValue_add haccfinite hfinite
    refine ⟨hsum.number, ?_, ?_⟩
    · rw [hsum.value, ← nearestValue_value haccfinite]
      exact nearestValue_mono (by rw [nearestValue_value haccfinite]; linarith)
    · rw [hsum.value, ← nearestValue_value hfinite]
      exact nearestValue_mono (by rw [nearestValue_value hfinite]; linarith)
  | false =>
    have hsum := (hasValue_infinite hacc haccfinite hfinite).1
    refine ⟨hsum.number, hsum.value.ge, ?_⟩
    rw [hsum.value]
    rcases value_infinite hacc haccfinite with heq | heq
    · rw [heq]
      exact (value_bounds (isNaN_of_isFinite hfinite)).2
    · linarith [beyond_pos]

theorem foldl_weights (hacc : acc.isNaN = false) (hnonneg : 0 ≤ value acc) (hws : ∀ w ∈ ws, IsWeight w) :
    (ws.foldl (· + ·) acc).isNaN = false ∧ value acc ≤ value (ws.foldl (· + ·) acc) ∧
      ∀ w ∈ ws, value w ≤ value (ws.foldl (· + ·) acc) := by
  induction ws generalizing acc with
  | nil => simpa using hacc
  | cons w rest ih =>
    obtain ⟨hw, hrest⟩ := List.forall_mem_cons.mp hws
    obtain ⟨hnumber, hle, hwle⟩ := add_weight hacc hnonneg hw
    obtain ⟨hsum, hgrows, hbelow⟩ := ih hnumber (hnonneg.trans hle) hrest
    exact ⟨hsum, hle.trans hgrows, List.forall_mem_cons.mpr ⟨hwle.trans hgrows, hbelow⟩⟩

/-- A sum of weights is zero only if all of them are. -/
theorem sum_weights_le_zero_iff (hws : ∀ w ∈ ws, IsWeight w) :
    Scalar.sum ws ≤ 0 ↔ ∀ w ∈ ws, value w ≤ 0 := by
  have hstart : HasValue (-0) 0 := by simpa [hasValue_zero.value] using hasValue_neg hasValue_zero.number
  obtain ⟨hsum, -, hbelow⟩ := foldl_weights hstart.number hstart.value.ge hws
  constructor
  · intro hle w hw
    have hvalue := (le_iff_value hsum hasValue_zero.number).mp hle
    rw [hasValue_zero.value] at hvalue
    exact (hbelow w hw).trans hvalue
  · intro hnone
    apply IsZero.le_zero
    apply IsZero.sum
    intro w hw
    obtain ⟨hfinite, hnonneg⟩ := hws w hw
    exact isZero_of_value (isNaN_of_isFinite hfinite) ((hnone w hw).antisymm hnonneg)

end Rounded
end Roulette

namespace Scored
open Draw (Always)

variable {σ : Type} [WordSource σ] {population : List Scored}

/-- A score that is positive and finite. -/
def Eligible (s : Scored) : Prop := s.score.isFinite = true ∧ 0 < s.score

instance (s : Scored) : Decidable s.Eligible := inferInstanceAs (Decidable (_ ∧ _))

/-- The weight of a member on the wheel, with its score. -/
def weighted (population : List Scored) : List (Float × Scored) :=
  population.map fun s => (Roulette.weight s.score, s)

/-- The weight of a member as it is without rounding. -/
def exactWeight (s : Scored) : ℚ := Roulette.exactWeight s.score

/-- The wheel turns if and only if a member is eligible. -/
theorem total_le_zero_iff (population : List Scored) :
    Scalar.sum ((weighted population).map Prod.fst) ≤ 0 ↔ ∀ s ∈ population, ¬ s.Eligible := by
  have hweights : (weighted population).map Prod.fst = population.map fun s => Roulette.weight s.score := by
    rw [weighted, List.map_map]
    rfl
  rw [hweights, Roulette.sum_weights_le_zero_iff]
  · simp only [List.forall_mem_map, (Roulette.value_weight _).2, Eligible,
      ← Roulette.exactWeight_pos_iff, not_lt]
  · rw [List.forall_mem_map]
    exact fun s _ => Roulette.isWeight_weight s.score

theorem run_roulette_idle (hne : population ≠ []) (hnone : ∀ s ∈ population, ¬ s.Eligible) (words : σ) :
    (roulette population).run words =
      (population[((Draw.index population.length).run words).1]?,
        ((Draw.index population.length).run words).2) := by
  have hempty : ¬ population.isEmpty = true := mt List.isEmpty_iff.mp hne
  have hidle : roulette population = (member population : Draw σ (Option Scored)) :=
    (if_neg hempty).trans (if_pos ((total_le_zero_iff population).mpr hnone))
  rw [hidle, member, if_neg hempty]
  rfl

theorem run_roulette_turning (hsome : ∃ s ∈ population, s.Eligible) (words : σ) :
    (roulette population).run words =
      (Roulette.spin? ((Draw.unit : Draw σ Float).run words).1 (weighted population),
        ((Draw.unit : Draw σ Float).run words).2) := by
  obtain ⟨s, hs, heligible⟩ := hsome
  have hempty : ¬ population.isEmpty = true := by
    rw [List.isEmpty_iff]
    exact List.ne_nil_of_mem hs
  have hturning : roulette population = (do
      let u ← Draw.unit
      return Roulette.spin? u (weighted population) : Draw σ (Option Scored)) :=
    (if_neg hempty).trans (if_neg fun hidle => (total_le_zero_iff population).mp hidle s hs heligible)
  rw [hturning]
  rfl

theorem eligible_of_spin {u : Float} {s : Scored} (h : Roulette.spin? u (weighted population) = some s) :
    s ∈ population ∧ s.Eligible := by
  obtain ⟨w, hw, hpos⟩ := Roulette.spin?_mem h
  obtain ⟨member, hmember, heq⟩ := List.mem_map.mp hw
  obtain ⟨rfl, rfl⟩ := Prod.mk.inj heq
  obtain ⟨hfinite, hvalue⟩ := Roulette.value_weight member.score
  have hnumber := Binary.isNaN_of_isFinite hfinite
  refine ⟨hmember, (Roulette.exactWeight_pos_iff member.score).mp ?_⟩
  rw [← hvalue]
  rcases hpos with hpos | hpos
  · rw [Binary.le_iff_value hnumber Binary.hasValue_zero.number, Binary.hasValue_zero.value] at hpos
    exact not_le.mp hpos
  · rw [Binary.lt_iff_value Binary.hasValue_zero.number hnumber, Binary.hasValue_zero.value] at hpos
    exact hpos

theorem reaches_exact_iff {target : ℚ} {i : ℕ} :
    Roulette.Reaches (population.map fun m => (m.exactWeight, m)) target i ↔
      ∃ m, population[i]? = some m ∧ 0 < m.exactWeight ∧
        target ≤ ((population.take (i + 1)).map exactWeight).sum := by
  simp [Roulette.Reaches, List.map_take, Function.comp_def]

end Scored
end SignalEvolution

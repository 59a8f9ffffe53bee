import Mathlib
import SignalEvolution.Proofs.Arithmetic.Exact
import SignalEvolution.Proofs.Arithmetic.Round

/-! # Extremes and differences

The greatest and the least entry of a list, found in one pass, whatever the numbers are. The
difference of the two bounds all others, and over binary64 numbers it is below some number
only where both are finite.
-/
namespace SignalEvolution

section Extremes

variable {α : Type} {P : α → Prop} {le : α → α → Prop} {pick : α → α → α} {first : α} {rest : List α}

/-- Of two entries with the property, a choice that is above both in some order. -/
structure Picks (P : α → Prop) (le : α → α → Prop) (pick : α → α → α) : Prop where
  refl : ∀ a, P a → le a a
  trans : ∀ a b c, le a b → le b c → le a c
  cases : ∀ a b, P a → P b → pick a b = b ∧ le a b ∨ pick a b = a ∧ le b a

theorem Picks.foldl (h : Picks P le pick) (hfirst : P first) (hrest : ∀ a ∈ rest, P a) :
    rest.foldl pick first ∈ first :: rest ∧ ∀ a ∈ first :: rest, le a (rest.foldl pick first) := by
  induction rest generalizing first with
  | nil =>
    simpa using h.refl first hfirst
  | cons x rest ih =>
    obtain ⟨hx, hrest⟩ := List.forall_mem_cons.mp hrest
    rw [List.foldl_cons]
    rcases h.cases first x hfirst hx with ⟨heq, hle⟩ | ⟨heq, hle⟩
    · obtain ⟨hmem, habove⟩ := ih hx hrest
      rw [heq]
      refine ⟨List.mem_cons_of_mem first hmem, List.forall_mem_cons.mpr ⟨?_, habove⟩⟩
      exact h.trans _ _ _ hle (habove x List.mem_cons_self)
    · obtain ⟨hmem, habove⟩ := ih hfirst hrest
      rw [heq]
      obtain ⟨hself, hrest⟩ := List.forall_mem_cons.mp habove
      refine ⟨?_, List.forall_mem_cons.mpr ⟨hself, List.forall_mem_cons.mpr ⟨?_, hrest⟩⟩⟩
      · rcases List.mem_cons.mp hmem with hmem | hmem
        · exact List.mem_cons.mpr (.inl hmem)
        · exact List.mem_cons_of_mem _ (List.mem_cons_of_mem _ hmem)
      · exact h.trans _ _ _ hle hself

end Extremes

namespace Exact

theorem picks_max : Picks (fun _ => True) (· ≤ ·) (Scalar.max : ℚ → ℚ → ℚ) where
  refl a _ := le_rfl
  trans a b c := le_trans
  cases a b _ _ := by
    rw [Scalar.max, if_neg (not_isNaN a)]
    split
    · next h => exact .inl ⟨rfl, le_of_lt h⟩
    · next h => exact .inr ⟨rfl, not_lt.mp h⟩

theorem picks_min : Picks (fun _ => True) (· ≥ ·) (Scalar.min : ℚ → ℚ → ℚ) where
  refl a _ := le_rfl
  trans a b c := ge_trans
  cases a b _ _ := by
    rw [Scalar.min, if_neg (not_isNaN a)]
    split
    · next h => exact .inl ⟨rfl, le_of_lt h⟩
    · next h => exact .inr ⟨rfl, not_lt.mp h⟩

end Exact

namespace Binary

variable {x y z : Float}

theorem picks_max : Picks (fun x : Float => x.isNaN = false) (· ≤ ·) Scalar.max where
  refl _ := le_self
  trans _ _ _ := number_le_trans
  cases _ _ hx hy := max_cases hx hy

theorem picks_min : Picks (fun x : Float => x.isNaN = false) (· ≥ ·) Scalar.min where
  refl _ := le_self
  trans _ _ _ hxy hyz := number_le_trans hyz hxy
  cases _ _ hx hy := min_cases hx hy

theorem isNaN_rank (x : Float) : (Scalar.rank x).isNaN = false := by
  rw [Scalar.rank]
  split
  · rfl
  · next h =>
    have hself : (x == x) = true := by simpa [Scalar.isNaN] using h
    rcases beq_iff.mp hself with ⟨⟨s, hs⟩, -⟩ | ⟨hx, -⟩
    · exact isNaN_of_isFinite (isFinite_of_zero hs)
    · exact hx

theorem hasValue_infinity : HasValue infinity beyond := ⟨rfl, rfl⟩

theorem hasValue_neg_infinity : HasValue (-infinity) (-beyond) := ⟨rfl, rfl⟩

theorem max_neg_infinity (hx : x.isNaN = false) : Scalar.max (-infinity) x = x := by
  obtain ⟨hnumber, hlow⟩ := hasValue_neg_infinity
  rcases max_cases hnumber hx with ⟨heq, -⟩ | ⟨heq, hle⟩
  · exact heq
  · have hvalue := ((le_iff_value hx hnumber).mp hle).antisymm (hlow ▸ (value_bounds hx).1)
    have hne : value (-infinity) ≠ 0 := hlow ▸ neg_ne_zero.mpr beyond_pos.ne'
    rw [heq, eq_of_value hx hnumber hvalue hne]

theorem min_infinity (hx : x.isNaN = false) : Scalar.min infinity x = x := by
  obtain ⟨hnumber, hhigh⟩ := hasValue_infinity
  rcases min_cases hnumber hx with ⟨heq, -⟩ | ⟨heq, hle⟩
  · exact heq
  · have hvalue := (hhigh ▸ (value_bounds hx).2 : value x ≤ value infinity).antisymm
      ((le_iff_value hnumber hx).mp hle)
    have hne : value infinity ≠ 0 := hhigh ▸ beyond_pos.ne'
    rw [heq, eq_of_value hx hnumber hvalue hne]

/-- A difference to something smaller that is below any number is one of finite numbers. -/
theorem isFinite_of_sub_lt (hyx : y ≤ x) (h : x - y < z) : x.isFinite = true ∧ y.isFinite = true := by
  obtain ⟨hy, hx⟩ := numbers_of_le hyx
  obtain ⟨hdifference, hz⟩ := numbers_of_lt h
  have hbound := (value_bounds hz).2
  have hbelow := (lt_iff_value hdifference hz).mp h
  have horder := (le_iff_value hy hx).mp hyx
  cases hxf : x.isFinite with
  | true =>
    cases hyf : y.isFinite with
    | true => exact ⟨rfl, rfl⟩
    | false =>
      have hfinite := (isFinite_iff hx).mp hxf
      have hvalue := (hasValue_sub_infinite hy hyf hxf).2.value
      rcases value_infinite hy hyf with heq | heq <;> linarith
  | false =>
    cases hyf : y.isFinite with
    | true =>
      have hfinite := (isFinite_iff hy).mp hyf
      have hvalue := (hasValue_sub_infinite hx hxf hyf).1.value
      rcases value_infinite hx hxf with heq | heq <;> linarith
    | false =>
      -- Equal infinities have no difference, and others have an infinite one.
      rcases eq_infinity hxf hx with rfl | rfl <;> rcases eq_infinity hyf hy with rfl | rfl
      · exact absurd hdifference (by decide +kernel)
      · have hvalue : value (infinity - -infinity) = beyond := by
          have heq : infinity - -infinity = infinity := by decide +kernel
          rw [heq, hasValue_infinity.value]
        linarith
      · exact absurd hyx (by decide +kernel)
      · exact absurd hdifference (by decide +kernel)

/-- No two entries differ by more than the ends of a range that holds them. -/
theorem sub_lt_of_within {a b : Float} (hyx : y ≤ x) (hax : a ≤ x) (hyb : y ≤ b) (ha : a.isFinite = true)
    (hb : b.isFinite = true) (h : x - y < z) : a - b < z := by
  obtain ⟨hx, hy⟩ := isFinite_of_sub_lt hyx h
  have hdifference := hasValue_sub ha hb
  have hz := (numbers_of_lt h).2
  have hax := (le_iff_value (isNaN_of_isFinite ha) (isNaN_of_isFinite hx)).mp hax
  have hyb := (le_iff_value (isNaN_of_isFinite hy) (isNaN_of_isFinite hb)).mp hyb
  have hle : nearestValue (value a - value b) ≤ nearestValue (value x - value y) :=
    nearestValue_mono (by linarith)
  rw [lt_iff_value (hasValue_sub hx hy).number hz, (hasValue_sub hx hy).value] at h
  rw [lt_iff_value hdifference.number hz, hdifference.value]
  exact hle.trans_lt h

theorem isFinite_of_within {a : Float} (hyx : y ≤ a) (hax : a ≤ x) (hx : x.isFinite = true)
    (hy : y.isFinite = true) : a.isFinite = true := by
  have ha := (numbers_of_le hax).1
  have hlow := (isFinite_iff (isNaN_of_isFinite hy)).mp hy
  have hhigh := (isFinite_iff (isNaN_of_isFinite hx)).mp hx
  rw [le_iff_value (isNaN_of_isFinite hy) ha] at hyx
  rw [le_iff_value ha (isNaN_of_isFinite hx)] at hax
  exact (isFinite_iff ha).mpr ⟨by linarith, by linarith⟩

theorem sub_lt_of_beq (hx : x.isFinite = true) (hy : y.isFinite = true) (h : (x == y) = true) (hz : 0 < z) :
    x - y < z := by
  have hdifference := hasValue_sub hx hy
  obtain ⟨hzero, hnumber⟩ := numbers_of_lt hz
  rw [beq_iff_value (isNaN_of_isFinite hx) (isNaN_of_isFinite hy)] at h
  rw [lt_iff_value hzero hnumber, hasValue_zero.value] at hz
  rwa [lt_iff_value hdifference.number hnumber, hdifference.value, h, sub_self, nearestValue_zero]

end Binary

end SignalEvolution

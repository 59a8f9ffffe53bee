import SignalEvolution.Proofs.Random.Numbers

/-! # Normal draws are numbers

The ziggurat multiplies and adds finite numbers. Only its tail takes logarithms, of positive
numbers: where these are numbers, so is every draw.
-/
namespace SignalEvolution.Draw
open Binary Float.Model

variable {σ : Type} [WordSource σ] {x y deviation : Float}

/-- Logarithms of positive numbers are numbers. -/
def LogIsNumber : Prop := ∀ a : Float, 0 < a → a.log.isNaN = false

theorem edge_finite (i : Nat) : (edge i).isFinite = true := by
  have hedges : layerEdges.toList.all Float.isFinite = true := by decide +kernel
  rw [edge, Array.getD_eq_getD_getElem?, ← Array.getElem?_toList]
  cases hget : layerEdges.toList[i]? with
  | none => decide +kernel
  | some x => exact List.all_eq_true.mp hedges x (List.mem_of_getElem? hget)

/-- The least number of an open interval is the gap that is left below one. -/
theorem openUnit_pos : Always (openUnit : Draw σ Float) fun a => 0 < a := by
  apply Always.after
  intro w
  apply Always.pure
  obtain ⟨hfinite, hword⟩ := hasValue_oneWord w
  obtain ⟨hfinite', hbelow⟩ := hasValue_ofBits (b := 0x3fefffffffffffff) (e := 1022) (k := 2 ^ 52 - 1)
    (by decide) (by decide) (by decide) (by decide)
  have h := hasValue_sub hfinite hfinite'
  have hexact := nearestValue_exact (show 1 < 2 ^ 53 by decide) (show -1074 ≤ (-53 : Int) by decide)
    (by decide) .positive
  rw [withSign, Nat.cast_one, one_mul] at hexact
  have hgap : (2 : ℚ) ^ (-53 : Int) ≤ value (Float.ofBits ((w >>> 12) ||| 0x3ff0000000000000)) -
      value (Float.ofBits 0x3fefffffffffffff) := by
    have hshare := share_nonneg w
    rw [hword.value, hbelow.value]
    norm_num
    linarith
  have hleast := nearestValue_mono hgap
  rw [hexact, ← h.value] at hleast
  rw [lt_iff_value hasValue_zero.number h.number, hasValue_zero.value]
  exact lt_of_lt_of_le (two_zpow_pos _) hleast

theorem tailStart_spec : tailStart.isFinite = true ∧ 0 < value tailStart := by
  have hfinite : tailStart.isFinite = true := by decide +kernel
  have hpos : 0 < tailStart := by decide +kernel
  rw [lt_iff_value hasValue_zero.number (isNaN_of_isFinite hfinite), hasValue_zero.value] at hpos
  exact ⟨hfinite, hpos⟩

theorem tail_number (hlog : LogIsNumber) (hx : x.isNaN = false) (fuel : Nat) :
    Always (tail x y fuel : Draw σ Float) fun z => z.isNaN = false := by
  induction fuel generalizing x y with
  | zero => exact Always.pure hx
  | succ fuel ih =>
    apply Always.ite
    · intro _
      apply openUnit_pos.bind
      intro a ha
      apply Always.after
      intro b
      exact ih (isNaN_scaled (hlog a ha) tailStart_spec.1 tailStart_spec.2).2.2
    · intro _
      exact Always.pure hx

theorem place_finite (w : UInt64) : (Float.ofBits ((w >>> 12) ||| 0x4000000000000000) - 3).isFinite = true := by
  obtain ⟨hfinite, hword⟩ := hasValue_withExponent w
    (show (0x4000000000000000 : UInt64).toNat = 1024 <<< 52 by decide) (by decide) (by decide)
  have hthree : HasValue 3 3 := by exact_mod_cast hasValue_ofNat (show 3 < 2 ^ 53 by decide)
  have h := hasValue_sub hfinite (hthree.isFinite_of_le (by norm_num))
  have hnonneg := share_nonneg w
  have hless := share_lt_one w
  rw [hword.value, hthree.value] at h
  apply h.isFinite_of_nearest
  norm_num
  rw [abs_le]
  constructor <;> linarith

theorem standardNormalFrom_number (hlog : LogIsNumber) (fuel : Nat) :
    Always (standardNormalFrom fuel : Draw σ Float) fun z => z.isNaN = false := by
  induction fuel with
  | zero => exact Always.pure hasValue_zero.number
  | succ fuel ih =>
    apply Always.after
    intro w
    have hplace := hasValue_mul (place_finite w) (edge_finite (w &&& 0xff).toNat)
    apply Always.ite
    · intro _
      exact Always.pure hplace.number
    · intro _
      apply Always.ite
      · intro _
        apply (tail_number hlog hasValue_one.number patience).bind
        intro distance hdistance
        apply Always.pure
        have hdifference := isNaN_sub hdistance tailStart_spec.1
        split
        · exact hdifference.1
        · exact hdifference.2
      · intro _
        apply Always.after
        intro u
        apply Always.ite
        · intro _
          exact Always.pure hplace.number
        · intro _
          exact ih

/-- A normal draw around zero is a number, and zero where the deviation is not finite. -/
theorem normal_number (hlog : LogIsNumber) (hpos : 0 < value deviation) :
    Always (normal 0 deviation : Draw σ Float) fun z => z.isNaN = false ∧
      (deviation.isFinite = false → z = 0) := by
  apply Always.ite
  · intro hfinite
    apply (standardNormalFrom_number hlog patience).bind
    intro z hz
    apply Always.pure
    have hscaled := (isNaN_scaled hz hfinite hpos).2.1
    have hzero : (0 : Float).isFinite = true := by decide +kernel
    refine ⟨(isNaN_add hscaled hzero).2, ?_⟩
    intro hinf
    rw [hfinite] at hinf
    cases hinf
  · intro _
    exact Always.pure ⟨hasValue_zero.number, fun _ => rfl⟩

end SignalEvolution.Draw

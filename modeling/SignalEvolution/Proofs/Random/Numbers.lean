import SignalEvolution.Proofs.Arithmetic.Round
import SignalEvolution.Proofs.Random.Partial
import SignalEvolution.Random.Normal

/-! # Drawn numbers

The high bits of a word make a number below one exactly. Scaled into a range it stays within:
rounding is monotone, so nothing falls below the low end, and what reaches the high end is
drawn again.
-/
namespace SignalEvolution.Draw
open Binary Float.Model

variable {σ : Type} [WordSource σ] {low high scale u x : Float} {w : UInt64} {e k : Nat}

/-- The fraction that a word is cut to. -/
def fractionOf (w : UInt64) : Nat := w.toNat / 2 ^ 12

/-- The number below one that the high bits of a word stand for. -/
def share (w : UInt64) : ℚ := fractionOf w * 2 ^ (-52 : Int)

theorem fractionOf_lt (w : UInt64) : fractionOf w < 2 ^ 52 := by
  have hw := w.toNat_lt
  unfold fractionOf
  omega

theorem share_nonneg (w : UInt64) : 0 ≤ share w := mul_nonneg (Nat.cast_nonneg _) (two_zpow_pos _).le

theorem share_lt_one (w : UInt64) : share w < 1 := by
  have hlt : (fractionOf w : ℚ) < 2 ^ 52 := by exact_mod_cast fractionOf_lt w
  unfold share
  norm_num
  linarith

theorem toNat_withExponent (w : UInt64) {b : UInt64} (hb : b.toNat = e <<< 52) :
    ((w >>> 12) ||| b).toNat = e * 2 ^ 52 + fractionOf w := by
  have hlt := fractionOf_lt w
  have hshift : (w >>> 12).toNat = fractionOf w := by
    rw [UInt64.toNat_shiftRight, Nat.shiftRight_eq_div_pow]
    rfl
  rw [UInt64.toNat_or, hshift, hb, Nat.or_comm, ← Nat.shiftLeft_add_eq_or_of_lt hlt, Nat.shiftLeft_eq]

theorem hasValue_withExponent (w : UInt64) {b : UInt64} (hb : b.toNat = e <<< 52) (hpos : 0 < e)
    (he : e < 2047) : (Float.ofBits ((w >>> 12) ||| b)).isFinite = true ∧
      HasValue (Float.ofBits ((w >>> 12) ||| b)) ((1 + share w) * 2 ^ ((e : Int) - 1023)) := by
  obtain ⟨hfinite, h⟩ := hasValue_ofBits hpos he (fractionOf_lt w) (toNat_withExponent w hb)
  have hexp : (e : Int) - 1075 = (e : Int) - 1023 + -52 := by omega
  have hvalue : ((2 ^ 52 + fractionOf w : Nat) : ℚ) * 2 ^ ((e : Int) - 1075) =
      (1 + share w) * 2 ^ ((e : Int) - 1023) := by
    rw [hexp, zpow_add₀ (by norm_num), share]
    push_cast
    norm_num
    ring
  exact ⟨hfinite, hvalue ▸ h⟩

theorem hasValue_oneWord (w : UInt64) : (Float.ofBits ((w >>> 12) ||| 0x3ff0000000000000)).isFinite = true ∧
    HasValue (Float.ofBits ((w >>> 12) ||| 0x3ff0000000000000)) (1 + share w) := by
  have h := hasValue_withExponent w (show (0x3ff0000000000000 : UInt64).toNat = 1023 <<< 52 by decide)
    (by decide) (by decide)
  simpa using h

theorem hasValue_ofHighBits (w : UInt64) : HasValue (ofHighBits w) (share w) := by
  obtain ⟨hfinite, hword⟩ := hasValue_oneWord w
  have h := hasValue_sub hfinite (hasValue_one.isFinite_of_le (by norm_num))
  have hexact := nearestValue_exact (lt_trans (fractionOf_lt w) (by decide))
    (show -1074 ≤ (-52 : Int) by decide) (by decide) .positive
  have hshare : nearestValue (share w) = share w := hexact
  rwa [hword.value, hasValue_one.value, add_sub_cancel_left, hshare] at h

theorem ofHighBits_spec (w : UInt64) :
    (ofHighBits w).isFinite = true ∧ 0 ≤ value (ofHighBits w) ∧ value (ofHighBits w) < 1 := by
  have h := hasValue_ofHighBits w
  have hnonneg := share_nonneg w
  have hless := share_lt_one w
  rw [h.value]
  exact ⟨h.isFinite_of_le (by rw [abs_of_nonneg hnonneg]; linarith), hnonneg, hless⟩

/-- A drawn share of the whole is one of the multiples of `2 ^ -53` below one. -/
theorem unit_range : Always (unit : Draw σ Float) fun u => 0 ≤ value u ∧ value u < 1 := by
  apply Always.after
  intro w
  apply Always.pure
  let n := (w >>> 11).toNat
  have hn : n < 2 ^ 53 := by
    have hw := w.toNat_lt
    have hshift : n = w.toNat / 2 ^ 11 := by
      rw [show n = (w >>> 11).toNat from rfl, UInt64.toNat_shiftRight, Nat.shiftRight_eq_div_pow]
      rfl
    omega
  have hbits : HasValue (w >>> 11).toFloat n := by
    have h := hasValue_toFloat hn
    rwa [show n.toUInt64 = w >>> 11 from UInt64.ofNat_toNat] at h
  have hstep : HasValue (Float.ofBits 0x3ca0000000000000) (2 ^ (-53 : Int)) := by
    have h := (hasValue_ofBits (e := 970) (k := 0) (b := 0x3ca0000000000000) (by decide) (by decide)
      (by decide) (by decide)).2
    norm_num at h ⊢
    exact h
  have hlt : (n : ℚ) < 2 ^ 53 := by exact_mod_cast hn
  have hsmall : |(n : ℚ)| ≤ 2 ^ 53 := by rw [abs_of_nonneg (Nat.cast_nonneg n)]; exact hlt.le
  have hproduct := hasValue_mul (hbits.isFinite_of_le hsmall) (hstep.isFinite_of_le (by norm_num))
  have hexact := nearestValue_exact hn (show -1074 ≤ (-53 : Int) by decide) (by decide) .positive
  rw [withSign] at hexact
  rw [hbits.value, hstep.value, hexact] at hproduct
  rw [hproduct.value]
  refine ⟨mul_nonneg (Nat.cast_nonneg n) (two_zpow_pos _).le, ?_⟩
  norm_num
  linarith
/-- Where a word falls in a range. -/
def spot (low high : Float) (w : UInt64) : Float := ofHighBits w * (high - low) + low

theorem low_le_spot (hlow : low.isFinite = true) (hhigh : high.isFinite = true) (h : Drawable low high) :
    low ≤ spot low high w := by
  obtain ⟨hu, hpos, hless⟩ := ofHighBits_spec w
  have hlt := (lt_iff_value (isNaN_of_isFinite hlow) (isNaN_of_isFinite hhigh)).mp h.1
  have hwidth : 0 ≤ value (high - low) := by
    rw [(hasValue_sub hhigh hlow).value]
    exact nearestValue_nonneg (by linarith)
  have hscaled := hasValue_mul hu h.2
  have hnonneg : 0 ≤ value (ofHighBits w * (high - low)) := by
    rw [hscaled.value]
    exact nearestValue_nonneg (mul_nonneg hpos hwidth)
  have hbelow : value (ofHighBits w * (high - low)) ≤ value (high - low) := by
    rw [hscaled.value, ← nearestValue_value h.2]
    exact nearestValue_mono (by rw [nearestValue_value h.2]; exact mul_le_of_le_one_left hwidth hless.le)
  have hlimit := ((isFinite_iff (isNaN_of_isFinite h.2)).mp h.2).2
  have hfinite : (ofHighBits w * (high - low)).isFinite = true := by
    rw [isFinite_iff hscaled.number]
    exact ⟨by linarith [beyond_pos], by linarith⟩
  -- Rounding is monotone, so a number that is added to the low end is not below it.
  have hspot := hasValue_add hfinite hlow
  rw [spot, le_iff_value (isNaN_of_isFinite hlow) hspot.number]
  calc value low = nearestValue (value low) := (nearestValue_value hlow).symm
    _ ≤ nearestValue (value (ofHighBits w * (high - low)) + value low) := nearestValue_mono (by linarith)
    _ = value (ofHighBits w * (high - low) + low) := hspot.value.symm

/-- What is drawn below the high end is the low end or a spot in the range. -/
theorem belowFrom_spot (low high : Float) (fuel : Nat) : Always (belowFrom low high fuel : Draw σ Float) fun x =>
    x = low ∨ ∃ w, x = spot low high w ∧ x < high := by
  induction fuel with
  | zero => exact Always.pure (.inl rfl)
  | succ fuel ih =>
    apply Always.after
    intro w
    apply Always.ite
    · intro h
      exact Always.pure (.inr ⟨w, rfl, h⟩)
    · intro _
      exact ih

theorem below_range (hlow : low.isFinite = true) (hhigh : high.isFinite = true) :
    (below low high : PartialDraw σ Float).Unless (¬ Drawable low high) fun x => low ≤ x ∧ x < high := by
  apply PartialDraw.Unless.ite
  · intro h
    apply PartialDraw.Unless.sure
    apply (belowFrom_spot low high patience).imp
    rintro x (rfl | ⟨w, rfl, hx⟩)
    · exact ⟨le_self (isNaN_of_isFinite hlow), h.1⟩
    · exact ⟨low_le_spot hlow hhigh h, hx⟩
  · intro h
    exact .failure h

/-- A number from zero to a thousand. -/
def Moderate (x : Float) : Prop := 0 ≤ x ∧ x ≤ 1000

instance (x : Float) : Decidable (Moderate x) := inferInstanceAs (Decidable (_ ∧ _))

/-- The factor that the high bits of a word are scaled by. -/
def scaleOf (low high : Float) : Float :=
  fitScale low high (Nat.pow 2 20) ((high - low) / greatestUnit)

theorem Moderate.value (h : Moderate x) : x.isFinite = true ∧ 0 ≤ value x ∧ value x ≤ 1000 := by
  obtain ⟨hlow, hhigh⟩ := h
  obtain ⟨hzero, hx⟩ := numbers_of_le hlow
  have hthousand : HasValue 1000 1000 := by exact_mod_cast hasValue_ofNat (show 1000 < 2 ^ 53 by decide)
  rw [le_iff_value hzero hx, hasValue_zero.value] at hlow
  rw [le_iff_value hx hthousand.number, hthousand.value] at hhigh
  have hself : HasValue x (Binary.value x) := ⟨hx, rfl⟩
  exact ⟨hself.isFinite_of_le (abs_le.mpr ⟨by linarith, by linarith⟩), hlow, hhigh⟩

/-- Between moderate ends the numbers of a range are finite. -/
theorem within_finite (hlow : Moderate low) (hscale : Moderate (scaleOf low high)) :
    Always (within low high : Draw σ Float) fun x => x.isFinite = true := by
  apply Always.after
  intro w
  apply Always.pure
  obtain ⟨hlowfinite, hlow, hlow'⟩ := hlow.value
  obtain ⟨hfinite, hscale, hscale'⟩ := hscale.value
  obtain ⟨hu, hu', hu''⟩ := ofHighBits_spec w
  have hproduct := hasValue_mul hu hfinite
  have hle : value (ofHighBits w) * value (scaleOf low high) ≤ value (scaleOf low high) :=
    mul_le_of_le_one_left hscale hu''.le
  have hnonneg : 0 ≤ value (ofHighBits w * scaleOf low high) := by
    rw [hproduct.value]
    exact nearestValue_nonneg (mul_nonneg hu' hscale)
  have hbelow : value (ofHighBits w * scaleOf low high) ≤ value (scaleOf low high) := by
    rw [hproduct.value, ← nearestValue_value hfinite]
    exact nearestValue_mono (by rwa [nearestValue_value hfinite])
  have hscaled : (ofHighBits w * scaleOf low high).isFinite = true :=
    hproduct.isFinite_of_le (hproduct.value ▸ abs_le.mpr ⟨by linarith, by linarith⟩)
  exact (hasValue_add hscaled hlowfinite).isFinite_of_nearest
    (abs_le.mpr ⟨by linarith, by linarith⟩)

end SignalEvolution.Draw

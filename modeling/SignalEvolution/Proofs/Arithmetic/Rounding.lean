import Mathlib

/-! # Rounding to binary64

A mantissa with a round bit and a sticky bit tells how an exact number lies between
whole multiples of the unit in the last place. Shifts keep this true, so a rounded
number is the one in whose interval the exact number lies.
-/
namespace SignalEvolution.Binary
open Float.Model Float.Model.UnpackedFloat

variable {em : ExtendedMantissa} {x v : ℚ} {m n a : Nat} {q e t : Int} {acc : Accuracy} {s : Sign}

/-- The mantissa and the two bits behind it describe where a number lies. -/
def Describes (em : ExtendedMantissa) (x : ℚ) : Prop :=
  match em.roundBit, em.stickyBit with
  | false, false => x = em.mantissa
  | false, true => em.mantissa < x ∧ x < em.mantissa + 1 / 2
  | true, false => x = em.mantissa + 1 / 2
  | true, true => em.mantissa + 1 / 2 < x ∧ x < em.mantissa + 1

theorem Describes.bounds (h : Describes em x) : (em.mantissa : ℚ) ≤ x ∧ x < em.mantissa + 1 := by
  rcases em with ⟨m, r, s⟩
  cases r <;> cases s <;> simp only [Describes] at h <;> constructor <;> linarith

theorem Describes.shiftRightOne (h : Describes em x) : Describes em.shiftRightOne (x / 2) := by
  rcases em with ⟨m, r, s⟩
  have hm : (m : ℚ) = 2 * (m / 2 : Nat) + (m % 2 : Nat) := by
    exact_mod_cast (Nat.div_add_mod m 2).symm
  have h0 : ((0 : Nat) != 0) = false := rfl
  have h1 : ((1 : Nat) != 0) = true := rfl
  -- The lowest bit of the mantissa becomes the round bit.
  rcases Nat.mod_two_eq_zero_or_one m with h2 | h2
  all_goals
    rw [h2] at hm
    cases r <;> cases s <;> simp only [Describes, ExtendedMantissa.shiftRightOne, h2, h0, h1,
      Bool.or_false, Bool.or_true] at h ⊢
    all_goals
      push_cast at hm
      first
        | linarith
        | (constructor <;> linarith)

theorem Describes.shiftRight (h : Describes em x) (k : Nat) : Describes (em >>> k) (x / 2 ^ k) := by
  induction k with
  | zero => rwa [pow_zero, div_one]
  | succ k ih =>
    have hstep : em >>> (k + 1) = (em >>> k).shiftRightOne := rfl
    rw [hstep, pow_succ, ← div_div]
    exact ih.shiftRightOne

/-- The rounded mantissa is the whole number that lies nearest; a half goes to an even one. -/
theorem Describes.roundedMantissa_eq (h : Describes em x) (hlow : (n : ℚ) - 1 / 2 ≤ x)
    (hhigh : x ≤ n + 1 / 2) (heven : n % 2 = 1 → (n : ℚ) - 1 / 2 < x ∧ x < n + 1 / 2) :
    em.roundedMantissa = n := by
  rcases em with ⟨m, r, s⟩
  have hnext : (m : ℚ) + 1 = (m + 1 : Nat) := by push_cast; rfl
  obtain ⟨hb, hb'⟩ := h.bounds
  have hle : m ≤ n := by
    have hlt : (m : ℚ) < (n + 1 : Nat) := by push_cast; simp only at hb; linarith
    exact Nat.lt_succ_iff.mp (by exact_mod_cast hlt)
  have hge : n ≤ m + 1 := by
    have hlt : (n : ℚ) < (m + 1 + 1 : Nat) := by push_cast; simp only at hb'; linarith
    exact Nat.lt_succ_iff.mp (by exact_mod_cast hlt)
  obtain rfl | rfl : n = m ∨ n = m + 1 := by omega
  · cases r <;> cases s <;>
      simp only [Describes, ExtendedMantissa.roundedMantissa, ExtendedMantissa.accuracy,
        Accuracy.roundToNearestEven] at h ⊢
    · by_contra hodd
      have hlt := (heven (by omega)).2
      linarith
    · linarith
  · push_cast at hlow hhigh heven
    cases r <;> cases s <;>
      simp only [Describes, ExtendedMantissa.roundedMantissa, ExtendedMantissa.accuracy,
        Accuracy.roundToNearestEven] at h ⊢
    · linarith
    · linarith
    · by_contra hodd
      have hlt := (heven (by omega)).1
      linarith

/-- Significand and exponent of a positive finite number as binary64 keeps them. -/
structure Canonical (m : Nat) (q : Int) : Prop where
  pos : 0 < m
  lt : m < 2 ^ 53
  least : -1074 ≤ q
  greatest : q ≤ 971
  full : 2 ^ 52 ≤ m ∨ q = -1074

/-- How far the interval reaches below a number, in units of its last place; below a power
of two the numbers lie twice as close. -/
def lowerGap (m : Nat) (q : Int) : ℚ := if m = 2 ^ 52 ∧ q ≠ -1074 then 1 / 4 else 1 / 2

/-- The interval of the numbers that round to `m * 2 ^ q`; its ends belong to it where `m` is even. -/
structure Near (m : Nat) (q : Int) (v : ℚ) : Prop where
  low : (m - lowerGap m q) * 2 ^ q ≤ v
  high : v ≤ (m + 1 / 2) * 2 ^ q
  odd : m % 2 = 1 → (m - lowerGap m q) * 2 ^ q < v ∧ v < (m + 1 / 2) * 2 ^ q

theorem two_zpow_pos (q : Int) : (0 : ℚ) < 2 ^ q := zpow_pos (by norm_num) q

theorem two_zpow_lt {i j : Int} (h : (2 : ℚ) ^ i < 2 ^ j) : i < j :=
  (zpow_lt_zpow_iff_right₀ (by norm_num)).mp h

theorem two_zpow_add (k : Nat) (q : Int) : (2 : ℚ) ^ (q + k) = 2 ^ k * 2 ^ q := by
  rw [zpow_add₀ (by norm_num), zpow_natCast, mul_comm]

theorem lowerGap_spec (m : Nat) (q : Int) : 0 < lowerGap m q ∧ lowerGap m q ≤ 1 / 2 := by
  unfold lowerGap
  split <;> norm_num

def targetOf (a : Nat) (e : Int) : Int := Format.binary64.targetExponent (totalExponent a e)

theorem targetOf_eq (a : Nat) (e : Int) : targetOf a e = max (a.log2 + e - 52) (-1074) := by
  simp only [targetOf, Format.targetExponent, totalExponent, Format.minExponent, Format.mantissaBits]
  omega

theorem shiftToTargetExponent_eq (h : e ≤ targetOf a e) :
    shiftToTargetExponent Format.binary64 a e acc =
      (ExtendedMantissa.ofMantissaAndAccuracy a acc >>> (targetOf a e - e).toNat, targetOf a e) := by
  have hk : e + ((targetOf a e - e).toNat : Int) = targetOf a e := by omega
  unfold shiftToTargetExponent shiftToExponent
  exact Prod.ext rfl hk

/-- The chosen exponent leaves fifty-three places for the number, or is the least there is. -/
theorem targetOf_spec (ha : 52 ≤ a.log2 ∨ e ≤ -1074) (hlow : (a : ℚ) ≤ v / 2 ^ e)
    (hhigh : v / 2 ^ e < a + 1) : e ≤ targetOf a e ∧ -1074 ≤ targetOf a e ∧
      v < 2 ^ (targetOf a e + 53) ∧ (targetOf a e = -1074 ∨ (2 : ℚ) ^ (targetOf a e + 52) ≤ v) := by
  have he := two_zpow_pos e
  have hlt : v < 2 ^ (a.log2 + e + 1) := by
    have hnext : (a : ℚ) + 1 ≤ 2 ^ (a.log2 + 1) := by exact_mod_cast Nat.lt_log2_self
    have hv : v < 2 ^ (a.log2 + 1) * 2 ^ e := (div_lt_iff₀ he).mp (lt_of_lt_of_le hhigh hnext)
    have hexp : (a.log2 : Int) + e + 1 = e + (a.log2 + 1 : Nat) := by push_cast; ring
    rwa [hexp, two_zpow_add]
  rw [targetOf_eq]
  refine ⟨by omega, by omega, ?_, ?_⟩
  · refine lt_of_lt_of_le hlt (zpow_le_zpow_right₀ (by norm_num) ?_)
    omega
  · by_cases hleast : (a.log2 : Int) + e - 52 ≤ -1074
    · left
      omega
    · right
      have ha0 : a ≠ 0 := by
        rintro rfl
        simp at ha hleast
        omega
      have hpow : (2 : ℚ) ^ a.log2 ≤ a := by exact_mod_cast Nat.log2_self_le ha0
      have hexp : max ((a.log2 : Int) + e - 52) (-1074) + 52 = e + (a.log2 : Nat) := by omega
      rw [hexp, two_zpow_add]
      exact (le_div_iff₀ he).mp (le_trans hpow hlow)

theorem targetOf_canonical (hc : Canonical m q) : targetOf m q = q := by
  have hlog : m.log2 < 53 := (Nat.log2_lt (Nat.ne_of_gt hc.pos)).mpr hc.lt
  have hleast := hc.least
  rw [targetOf_eq]
  rcases hc.full with hfull | hq
  · have hlog' : 52 ≤ m.log2 := (Nat.le_log2 (Nat.ne_of_gt hc.pos)).mpr hfull
    omega
  · omega

/-- Rounding chooses the exponent of the number, or the one below for what lies below a power of two. -/
theorem target_cases (hc : Canonical m q) (hn : Near m q v) (hleast : -1074 ≤ t)
    (hlt : v < 2 ^ (t + 53)) (hge : t = -1074 ∨ (2 : ℚ) ^ (t + 52) ≤ v) :
    t = q ∨ (t = q - 1 ∧ m = 2 ^ 52 ∧ q ≠ -1074) := by
  have hq := two_zpow_pos q
  obtain ⟨hgap, hgap'⟩ := lowerGap_spec m q
  have hm : (m : ℚ) + 1 / 2 < 2 ^ 53 := by
    have hle : (m : ℚ) + 1 ≤ 2 ^ 53 := by exact_mod_cast hc.lt
    linarith
  have hup : v < 2 ^ (q + 53) := by
    have hexp : q + 53 = q + (53 : Nat) := rfl
    rw [hexp, two_zpow_add]
    exact lt_of_le_of_lt hn.high (mul_lt_mul_of_pos_right hm hq)
  have htq : t ≤ q := by
    rcases hge with rfl | hge
    · exact hc.least
    · have hlt := two_zpow_lt (lt_of_le_of_lt hge hup)
      omega
  by_cases heq : t = q
  · exact .inl heq
  · right
    have hfull : 2 ^ 52 ≤ m := hc.full.resolve_right (by omega)
    have hfull' : (2 : ℚ) ^ 52 ≤ m := by exact_mod_cast hfull
    have hlow : (2 : ℚ) ^ (q + 51) < 2 ^ (t + 53) := by
      refine lt_of_le_of_lt ?_ hlt
      have hexp : q + 51 = q + (51 : Nat) := rfl
      rw [hexp, two_zpow_add]
      refine le_trans (mul_le_mul_of_nonneg_right ?_ hq.le) hn.low
      linarith
    have htq' : t = q - 1 := by
      have h51 := two_zpow_lt hlow
      omega
    refine ⟨htq', ?_, by omega⟩
    have hbelow : (m : ℚ) - lowerGap m q < 2 ^ 52 := by
      have hexp : t + 53 = q + (52 : Nat) := by omega
      rw [hexp, two_zpow_add] at hlt
      exact lt_of_mul_lt_mul_right (lt_of_le_of_lt hn.low hlt) hq.le
    have hle : m < 2 ^ 52 + 1 := by
      have hcast : (m : ℚ) < (2 ^ 52 + 1 : Nat) := by push_cast; linarith
      exact_mod_cast hcast
    omega

/-- A mantissa that rounding brought to its exponent is normalized once more. -/
theorem shift_exact (h : targetOf a e = e) :
    shiftToTargetExponent Format.binary64 a e .exact = (⟨a, false, false⟩, e) := by
  rw [shiftToTargetExponent_eq (le_of_eq h.symm), h, Int.sub_self]
  rfl

theorem shift_overflow (hq : -1074 < q) :
    shiftToTargetExponent Format.binary64 (2 ^ 53) (q - 1) .exact = (⟨2 ^ 52, false, false⟩, q) := by
  have ht : targetOf (2 ^ 53) (q - 1) = q := by
    rw [targetOf_eq, Nat.log2_two_pow]
    omega
  have hk : (q - (q - 1)).toNat = 1 := by omega
  rw [shiftToTargetExponent_eq (by omega), ht, hk]
  rfl

theorem roundedMantissa_of_near (hn : Near m q v) (hem : Describes em (v / 2 ^ q)) :
    em.roundedMantissa = m := by
  have hq := two_zpow_pos q
  obtain ⟨hgap, hgap'⟩ := lowerGap_spec m q
  have hlow : (m : ℚ) - lowerGap m q ≤ v / 2 ^ q := (le_div_iff₀ hq).mpr hn.low
  refine hem.roundedMantissa_eq (by linarith) ((div_le_iff₀ hq).mpr hn.high) fun hodd => ?_
  have hlow' := (lt_div_iff₀ hq).mpr (hn.odd hodd).1
  exact ⟨by linarith, (div_lt_iff₀ hq).mpr (hn.odd hodd).2⟩

/-- What lies just below a power of two is rounded up to it. -/
theorem roundedMantissa_of_below (hn : Near (2 ^ 52) q v) (hq1 : q ≠ -1074)
    (hlt : v < 2 ^ (q - 1 + 53)) (hem : Describes em (v / 2 ^ (q - 1))) :
    em.roundedMantissa = 2 ^ 53 := by
  have hq := two_zpow_pos q
  have hlow : ((2 ^ 52 : Nat) : ℚ) - lowerGap (2 ^ 52) q ≤ v / 2 ^ q := (le_div_iff₀ hq).mpr hn.low
  have hgap : lowerGap (2 ^ 52) q = 1 / 4 := if_pos ⟨rfl, hq1⟩
  have hexp : (2 : ℚ) ^ q = 2 * 2 ^ (q - 1) := by
    have h1 := two_zpow_add 1 (q - 1)
    rwa [pow_one, Nat.cast_one, sub_add_cancel] at h1
  have hx : v / 2 ^ (q - 1) = 2 * (v / 2 ^ q) := by
    have hp := two_zpow_pos (q - 1)
    rw [hexp]
    field_simp
  have hbelow : v / 2 ^ (q - 1) < 2 ^ 53 := by
    have h53 : q - 1 + 53 = q - 1 + (53 : Nat) := rfl
    rw [h53, two_zpow_add] at hlt
    exact (div_lt_iff₀ (two_zpow_pos (q - 1))).mpr hlt
  rw [hgap] at hlow
  push_cast at hlow
  refine hem.roundedMantissa_eq ?_ ?_ fun hodd => absurd hodd (by norm_num)
  · rw [hx]
    push_cast
    linarith
  · push_cast
    linarith

theorem mantissa_ofMantissaAndAccuracy (a : Nat) (acc : Accuracy) :
    (ExtendedMantissa.ofMantissaAndAccuracy a acc).mantissa = a := by
  rcases acc with _ | o
  · rfl
  · cases o <;> rfl

theorem Describes.shiftToTarget (h : Describes (ExtendedMantissa.ofMantissaAndAccuracy a acc) (v / 2 ^ e))
    (ha : 52 ≤ a.log2 ∨ e ≤ -1074) :
    (e ≤ targetOf a e ∧ -1074 ≤ targetOf a e ∧ v < 2 ^ (targetOf a e + 53) ∧
      (targetOf a e = -1074 ∨ (2 : ℚ) ^ (targetOf a e + 52) ≤ v)) ∧
    Describes (ExtendedMantissa.ofMantissaAndAccuracy a acc >>> (targetOf a e - e).toNat)
      (v / 2 ^ targetOf a e) := by
  obtain ⟨hb, hb'⟩ := h.bounds
  rw [mantissa_ofMantissaAndAccuracy] at hb hb'
  have hspec := targetOf_spec ha hb hb'
  have hk : targetOf a e = e + ((targetOf a e - e).toNat : Int) := by
    have hle := hspec.1
    omega
  have hquotient : v / 2 ^ e / 2 ^ (targetOf a e - e).toNat = v / 2 ^ targetOf a e := by
    rw [hk, two_zpow_add, div_div, mul_comm, ← hk]
  exact ⟨hspec, hquotient ▸ h.shiftRight (targetOf a e - e).toNat⟩

/-- Rounding finds the number in whose interval the exact value lies. -/
theorem roundWithAccuracy_eq (hc : Canonical m q) (hn : Near m q v)
    (hd : Describes (ExtendedMantissa.ofMantissaAndAccuracy a acc) (v / 2 ^ e))
    (ha : 52 ≤ a.log2 ∨ e ≤ -1074) :
    roundWithAccuracy Format.binary64 s a e acc = .finite s m q hc.pos := by
  obtain ⟨⟨het, hleast, hlt, hge⟩, hem⟩ := hd.shiftToTarget ha
  have hcases := target_cases hc hn hleast hlt hge
  have hshift : shiftToTargetExponent Format.binary64 a e acc = _ := shiftToTargetExponent_eq het
  generalize ExtendedMantissa.ofMantissaAndAccuracy a acc >>> (targetOf a e - e).toNat = em at hem hshift
  rcases hcases with ht | ⟨ht, rfl, hq1⟩
  · rw [ht] at hem
    have hround := roundedMantissa_of_near hn hem
    simp only [roundWithAccuracy, hshift, ht, hround, shift_exact (targetOf_canonical hc)]
    rw [dif_neg (Nat.ne_of_gt hc.pos)]
  · rw [ht] at hem hlt
    have hround := roundedMantissa_of_below hn hq1 hlt hem
    have hleast' := hc.least
    simp only [roundWithAccuracy, hshift, ht, hround, shift_overflow (show -1074 < q by omega)]
    rw [dif_neg (by decide)]

end SignalEvolution.Binary

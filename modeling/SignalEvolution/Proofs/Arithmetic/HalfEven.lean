import SignalEvolution.Proofs.Arithmetic.Value

/-! # The nearest number

A positive number is rounded to a whole multiple of its last place, a half to the even one, and
what would be too large becomes an infinity. This is monotone and leaves numbers alone that
need no rounding.
-/
namespace SignalEvolution.Binary
open Float.Model Float.Model.UnpackedFloat

variable {em : ExtendedMantissa} {m a : Nat} {n k : Int} {q e t : Int} {acc : Accuracy} {s : Sign}
variable {v w : ℚ}

/-- The nearest whole number; a half goes to an even one. -/
def halfEven (v : ℚ) : Int :=
  if v < ⌊v⌋ + 1 / 2 ∨ (v = ⌊v⌋ + 1 / 2 ∧ ⌊v⌋ % 2 = 0) then ⌊v⌋ else ⌊v⌋ + 1

theorem halfEven_spec (v : ℚ) : (halfEven v : ℚ) - 1 / 2 ≤ v ∧ v ≤ halfEven v + 1 / 2 ∧
    (halfEven v % 2 = 1 → (halfEven v : ℚ) - 1 / 2 < v ∧ v < halfEven v + 1 / 2) := by
  have hfloor := Int.floor_le v
  have hnext := Int.lt_floor_add_one v
  unfold halfEven
  split
  · next h =>
    rcases h with h | ⟨h, heven⟩
    · exact ⟨by linarith, by linarith, fun _ => ⟨by linarith, h⟩⟩
    · exact ⟨by linarith, by linarith, fun hodd => by omega⟩
  · next h =>
    obtain ⟨hge, htie⟩ := not_or.mp h
    push_cast
    refine ⟨by linarith, by linarith, fun hodd => ⟨?_, by linarith⟩⟩
    have hne : v ≠ ⌊v⌋ + 1 / 2 := fun heq => htie ⟨heq, by omega⟩
    have hlt := lt_of_le_of_ne (not_lt.mp hge) hne.symm
    linarith

theorem halfEven_eq (hlow : (n : ℚ) - 1 / 2 ≤ v) (hhigh : v ≤ n + 1 / 2)
    (hodd : n % 2 = 1 → (n : ℚ) - 1 / 2 < v ∧ v < n + 1 / 2) : halfEven v = n := by
  obtain ⟨hlow', hhigh', hodd'⟩ := halfEven_spec v
  have hle : halfEven v ≤ n + 1 := by
    have h : (halfEven v : ℚ) ≤ (n + 1 : Int) := by push_cast; linarith
    exact_mod_cast h
  have hge : n ≤ halfEven v + 1 := by
    have h : (n : ℚ) ≤ (halfEven v + 1 : Int) := by push_cast; linarith
    exact_mod_cast h
  -- Of two neighbours one is odd, and an odd one is not reached from a half.
  rcases (by omega : halfEven v = n ∨ halfEven v = n + 1 ∨ n = halfEven v + 1) with h | h | h
  · exact h
  · have hcast : (halfEven v : ℚ) = n + 1 := by rw [h]; push_cast; rfl
    rcases Int.emod_two_eq_zero_or_one n with hn | hn
    · linarith [(hodd' (by omega)).1]
    · linarith [(hodd hn).2]
  · have hcast : (n : ℚ) = halfEven v + 1 := by rw [h]; push_cast; rfl
    rcases Int.emod_two_eq_zero_or_one n with hn | hn
    · linarith [(hodd' (by omega)).2]
    · linarith [(hodd hn).1]

theorem halfEven_intCast (n : Int) : halfEven n = n :=
  halfEven_eq (by linarith) (by linarith) fun _ => ⟨by linarith, by linarith⟩

theorem halfEven_mono (h : v ≤ w) : halfEven v ≤ halfEven w := by
  rcases h.eq_or_lt with rfl | h
  · exact le_refl _
  · obtain ⟨hlow, -, -⟩ := halfEven_spec v
    obtain ⟨-, hhigh, -⟩ := halfEven_spec w
    have hlt : (halfEven v : ℚ) < (halfEven w + 1 : Int) := by push_cast; linarith
    exact Int.lt_add_one_iff.mp (by exact_mod_cast hlt)

theorem halfEven_nonneg (hv : 0 ≤ v) : 0 ≤ halfEven v := by
  have h := halfEven_mono hv
  rwa [← Int.cast_zero, halfEven_intCast] at h

theorem Describes.roundedMantissa (h : Describes em v) : (em.roundedMantissa : Int) = halfEven v := by
  have hzero : (0 : ℚ) ≤ v := le_trans (Nat.cast_nonneg em.mantissa) h.bounds.1
  obtain ⟨n, hn⟩ := Int.eq_ofNat_of_zero_le (halfEven_nonneg hzero)
  obtain ⟨hlow, hhigh, hodd⟩ := halfEven_spec v
  rw [hn] at hlow hhigh hodd ⊢
  rw [h.roundedMantissa_eq (by exact_mod_cast hlow) (by exact_mod_cast hhigh)
    fun h => by exact_mod_cast hodd (by omega)]

/-- Exponent of the last place of a positive number. -/
def lastPlace (v : ℚ) : Int := max (Int.log 2 v - 52) (-1074)

theorem lastPlace_eq (hleast : -1074 ≤ t) (hlt : v < 2 ^ (t + 53))
    (hge : t = -1074 ∨ (2 : ℚ) ^ (t + 52) ≤ v) (hv : 0 < v) : lastPlace v = t := by
  have hlog : Int.log 2 v < t + 53 := (Int.lt_zpow_iff_log_lt (by norm_num) hv).mp hlt
  unfold lastPlace
  rcases hge with rfl | hge
  · omega
  · have hlog' : t + 52 ≤ Int.log 2 v := (Int.zpow_le_iff_le_log (by norm_num) hv).mp hge
    omega

theorem lastPlace_spec (hv : 0 < v) : -1074 ≤ lastPlace v ∧ v < 2 ^ (lastPlace v + 53) ∧
    (lastPlace v = -1074 ∨ (2 : ℚ) ^ (lastPlace v + 52) ≤ v) := by
  refine ⟨le_max_right _ _, ?_, ?_⟩
  · refine lt_of_lt_of_le (Int.lt_zpow_succ_log_self (b := 2) Nat.one_lt_two v) ?_
    refine zpow_le_zpow_right₀ (by norm_num) ?_
    unfold lastPlace
    omega
  · by_cases hleast : Int.log 2 v - 52 ≤ -1074
    · exact .inl (max_eq_right hleast)
    · right
      have heq : lastPlace v + 52 = Int.log 2 v := by
        unfold lastPlace
        omega
      rw [heq]
      exact Int.zpow_log_le_self (by norm_num) hv

theorem lastPlace_mono (hv : 0 < v) (h : v ≤ w) : lastPlace v ≤ lastPlace w :=
  max_le_max_right _ (sub_le_sub_right (Int.log_mono_right hv h) 52)

/-- A positive number rounded to its last place. -/
def rounded (v : ℚ) : ℚ := halfEven (v / 2 ^ lastPlace v) * 2 ^ lastPlace v

theorem rounded_zero : rounded 0 = 0 := by
  have hzero : halfEven 0 = 0 := by exact_mod_cast halfEven_intCast 0
  rw [rounded, zero_div, hzero, Int.cast_zero, zero_mul]

theorem halfEven_place_le (hv : 0 < v) : halfEven (v / 2 ^ lastPlace v) ≤ 2 ^ 53 := by
  obtain ⟨-, hlt, -⟩ := lastPlace_spec hv
  have hexp : lastPlace v + 53 = lastPlace v + (53 : Nat) := rfl
  rw [hexp, two_zpow_add] at hlt
  have hle : v / 2 ^ lastPlace v ≤ ((2 ^ 53 : Int) : ℚ) := by
    push_cast
    exact ((div_lt_iff₀ (two_zpow_pos _)).mpr hlt).le
  exact le_of_le_of_eq (halfEven_mono hle) (halfEven_intCast _)

theorem le_halfEven_place (hv : 0 < v) (hlast : lastPlace v ≠ -1074) :
    2 ^ 52 ≤ halfEven (v / 2 ^ lastPlace v) := by
  obtain ⟨-, -, hge⟩ := lastPlace_spec hv
  have hexp : lastPlace v + 52 = lastPlace v + (52 : Nat) := rfl
  have hge := hge.resolve_left hlast
  rw [hexp, two_zpow_add] at hge
  have hle : ((2 ^ 52 : Int) : ℚ) ≤ v / 2 ^ lastPlace v := by
    push_cast
    exact (le_div_iff₀ (two_zpow_pos _)).mpr hge
  exact le_of_eq_of_le (halfEven_intCast _).symm (halfEven_mono hle)

theorem rounded_nonneg (hv : 0 ≤ v) : 0 ≤ rounded v := by
  have hwhole := halfEven_nonneg (div_nonneg hv (two_zpow_pos (lastPlace v)).le)
  exact mul_nonneg (by exact_mod_cast hwhole) (two_zpow_pos _).le

theorem rounded_mono (hv : 0 < v) (h : v ≤ w) : rounded v ≤ rounded w := by
  have hw : 0 < w := lt_of_lt_of_le hv h
  rcases (lastPlace_mono hv h).eq_or_lt with heq | hlt
  · have hq := two_zpow_pos (lastPlace w)
    have hle : halfEven (v / 2 ^ lastPlace w) ≤ halfEven (w / 2 ^ lastPlace w) :=
      halfEven_mono (div_le_div_of_nonneg_right h hq.le)
    rw [rounded, rounded, heq]
    exact mul_le_mul_of_nonneg_right (by exact_mod_cast hle) hq.le
  · -- Between the two lies a power of two.
    obtain ⟨hleast, -, -⟩ := lastPlace_spec hv
    have hlow : (halfEven (v / 2 ^ lastPlace v) : ℚ) ≤ 2 ^ 53 := by
      exact_mod_cast halfEven_place_le hv
    have hhigh : (2 : ℚ) ^ 52 ≤ halfEven (w / 2 ^ lastPlace w) := by
      exact_mod_cast le_halfEven_place hw (by omega)
    calc rounded v ≤ 2 ^ 53 * 2 ^ lastPlace v :=
          mul_le_mul_of_nonneg_right hlow (two_zpow_pos _).le
      _ = 2 ^ (lastPlace v + (53 : Nat)) := (two_zpow_add 53 _).symm
      _ ≤ 2 ^ (lastPlace w + (52 : Nat)) :=
        zpow_le_zpow_right₀ (by norm_num) (by push_cast; omega)
      _ = 2 ^ 52 * 2 ^ lastPlace w := two_zpow_add 52 _
      _ ≤ rounded w := mul_le_mul_of_nonneg_right hhigh (two_zpow_pos _).le

/-- A multiple of a place with at most fifty-three bits needs no rounding. -/
theorem rounded_exact (hm : m < 2 ^ 53) (hq : -1074 ≤ q) : rounded (m * 2 ^ q) = m * 2 ^ q := by
  rcases Nat.eq_zero_or_pos m with rfl | hpos
  · rw [Nat.cast_zero, zero_mul, rounded_zero]
  have hcast : (0 : ℚ) < m := by exact_mod_cast hpos
  have hv : 0 < (m : ℚ) * 2 ^ q := mul_pos hcast (two_zpow_pos q)
  have hlast : lastPlace (m * 2 ^ q) ≤ q := by
    have hlt : (m : ℚ) * 2 ^ q < 2 ^ (q + (53 : Nat)) := by
      rw [two_zpow_add]
      exact mul_lt_mul_of_pos_right (by exact_mod_cast hm) (two_zpow_pos q)
    have hlog : Int.log 2 ((m : ℚ) * 2 ^ q) < q + (53 : Nat) :=
      (Int.lt_zpow_iff_log_lt (by norm_num) hv).mp hlt
    unfold lastPlace
    omega
  obtain ⟨k, hk⟩ : ∃ k : Nat, q = lastPlace (m * 2 ^ q) + k :=
    ⟨(q - lastPlace (m * 2 ^ q)).toNat, by omega⟩
  have hquotient : (m : ℚ) * 2 ^ q / 2 ^ lastPlace (m * 2 ^ q) = ((m * 2 ^ k : Int) : ℚ) := by
    rw [div_eq_iff (two_zpow_pos _).ne']
    push_cast
    rw [mul_assoc, ← two_zpow_add, ← hk]
  rw [rounded, hquotient, halfEven_intCast, ← hquotient, div_mul_cancel₀ _ (two_zpow_pos _).ne']

/-- The nearest number, and an infinity where that is too large. -/
def nearestValue (v : ℚ) : ℚ :=
  if 0 ≤ v then min (rounded v) beyond else -min (rounded (-v)) beyond

theorem nearestValue_withSign (hv : 0 ≤ v) (s : Sign) :
    nearestValue (withSign s v) = withSign s (min (rounded v) beyond) := by
  cases s with
  | positive => exact if_pos hv
  | negative =>
    rcases hv.eq_or_lt with rfl | hpos
    · simp [withSign, nearestValue, rounded_zero, beyond_pos.le]
    · have hneg : ¬ 0 ≤ -v := by linarith
      rw [withSign, nearestValue, if_neg hneg, neg_neg]
      rfl

theorem nearestValue_mono (h : v ≤ w) : nearestValue v ≤ nearestValue w := by
  have hbeyond := beyond_pos
  unfold nearestValue
  split
  · next hv =>
    rw [if_pos (le_trans hv h)]
    rcases hv.eq_or_lt with rfl | hpos
    · rw [rounded_zero]
      exact le_trans (min_le_left _ _) (le_min (rounded_nonneg h) hbeyond.le)
    · exact min_le_min_right _ (rounded_mono hpos h)
  · next hv =>
    have hleft : 0 ≤ min (rounded (-v)) beyond := le_min (rounded_nonneg (by linarith)) hbeyond.le
    split
    · next hw =>
      have hright : 0 ≤ min (rounded w) beyond := le_min (rounded_nonneg hw) hbeyond.le
      linarith
    · next hw => exact neg_le_neg (min_le_min_right _ (rounded_mono (by linarith) (by linarith)))

theorem nearestValue_nonneg (hv : 0 ≤ v) : 0 ≤ nearestValue v := by
  rw [nearestValue, if_pos hv]
  exact le_min (rounded_nonneg hv) beyond_pos.le

theorem nearestValue_exact (hm : m < 2 ^ 53) (hq : -1074 ≤ q) (hq' : q ≤ 971) (s : Sign) :
    nearestValue (withSign s (m * 2 ^ q)) = withSign s (m * 2 ^ q) := by
  have hnonneg : (0 : ℚ) ≤ m * 2 ^ q := mul_nonneg (Nat.cast_nonneg m) (two_zpow_pos q).le
  have hless : (m : ℚ) * 2 ^ q ≤ beyond := by
    have hm' : (m : ℚ) ≤ 2 ^ 53 := by exact_mod_cast hm.le
    calc (m : ℚ) * 2 ^ q ≤ 2 ^ 53 * 2 ^ q := mul_le_mul_of_nonneg_right hm' (two_zpow_pos q).le
      _ = 2 ^ (q + (53 : Nat)) := (two_zpow_add 53 q).symm
      _ ≤ 2 ^ (1024 : Int) := zpow_le_zpow_right₀ (by norm_num) (by push_cast; omega)
      _ = beyond := by rw [beyond]
  rw [nearestValue_withSign hnonneg, rounded_exact hm hq, min_eq_left hless]

end SignalEvolution.Binary

import SignalEvolution.Proofs.Arithmetic.RoundTrip

/-! # Whole numbers as binary64 numbers

A number is cut after fifty-three places and rounded at the remainder, so every whole
number of moderate size lies in the interval of a finite number.
-/
namespace SignalEvolution.Binary
open Float.Model

variable {a n : Nat} {q : Int} {r : ℚ}

theorem near_cut (hr : 0 ≤ r) (hhalf : 2 * r ≤ 2 ^ q) (hodd : a % 2 = 1 → 2 * r < 2 ^ q) :
    Near a q (a * 2 ^ q + r) := by
  have hgap := mul_pos (lowerGap_spec a q).1 (two_zpow_pos q)
  refine ⟨?_, ?_, fun h => ⟨?_, ?_⟩⟩
  · linarith [sub_mul (a : ℚ) (lowerGap a q) (2 ^ q)]
  · linarith [add_mul (a : ℚ) (1 / 2) (2 ^ q)]
  · linarith [sub_mul (a : ℚ) (lowerGap a q) (2 ^ q)]
  · linarith [add_mul (a : ℚ) (1 / 2) (2 ^ q), hodd h]

theorem near_next (ha : 2 ^ 52 ≤ a) (hr : r < 2 ^ q) (hhalf : 2 ^ q ≤ 2 * r)
    (hodd : a % 2 = 0 → 2 ^ q < 2 * r) : Near (a + 1) q (a * 2 ^ q + r) := by
  have hgap : lowerGap (a + 1) q = 1 / 2 := if_neg fun h => by omega
  have hlow := sub_mul ((a + 1 : Nat) : ℚ) (1 / 2) (2 ^ q)
  have hhigh := add_mul ((a + 1 : Nat) : ℚ) (1 / 2) (2 ^ q)
  push_cast at hlow hhigh
  refine ⟨?_, ?_, fun h => ⟨?_, ?_⟩⟩
  all_goals push_cast
  · rw [hgap]
    linarith
  · linarith
  · rw [hgap]
    linarith [hodd (by omega)]
  · linarith

/-- Rounding up all ones carries into a new place. -/
theorem near_carry (hq : -1074 < q) (hr : r < 2 ^ q) (hhalf : 2 ^ q ≤ 2 * r) (ha : a + 1 = 2 ^ 53) :
    Near (2 ^ 52) (q + 1) (a * 2 ^ q + r) := by
  have hgap : lowerGap (2 ^ 52) (q + 1) = 1 / 4 := if_pos ⟨rfl, by omega⟩
  have hdouble : (2 : ℚ) ^ (q + 1) = 2 * 2 ^ q := by rw [zpow_add_one₀ (by norm_num), mul_comm]
  have ha' : (a : ℚ) = 2 ^ 53 - 1 := by
    have hcast : ((a + 1 : Nat) : ℚ) = 2 ^ 53 := by rw [ha]; norm_num
    push_cast at hcast
    linarith
  rw [ha']
  refine ⟨?_, ?_, fun h => absurd h (by norm_num)⟩
  · rw [hgap, hdouble]
    push_cast
    linarith
  · rw [hdouble]
    push_cast
    linarith

theorem exists_near_large {k : Nat} (hn : n.log2 = 52 + k) (hk : k < 948) :
    ∃ m q, Canonical m q ∧ Near m q n := by
  have hpos : n ≠ 0 := by
    rintro rfl
    rw [Nat.log2_zero] at hn
    omega
  have hpow : 0 < 2 ^ k := Nat.two_pow_pos k
  have hlow : 2 ^ 52 ≤ n / 2 ^ k := by
    rw [Nat.le_div_iff_mul_le hpow, ← Nat.pow_add, ← hn]
    exact Nat.log2_self_le hpos
  have hhigh : n / 2 ^ k < 2 ^ 53 := by
    have hnext : n < 2 ^ (n.log2 + 1) := Nat.lt_log2_self
    rw [Nat.div_lt_iff_lt_mul hpow, ← Nat.pow_add]
    rwa [show n.log2 + 1 = 53 + k by omega] at hnext
  have hvalue : (n : ℚ) = (n / 2 ^ k : Nat) * 2 ^ (k : Int) + (n % 2 ^ k : Nat) := by
    rw [zpow_natCast]
    exact_mod_cast (Nat.div_add_mod' n (2 ^ k)).symm
  have hrest : ((n % 2 ^ k : Nat) : ℚ) < 2 ^ (k : Int) := by
    rw [zpow_natCast]
    exact_mod_cast Nat.mod_lt n hpow
  rw [hvalue]
  -- A remainder of one half goes to the even neighbour.
  by_cases hdown : 2 * (n % 2 ^ k) < 2 ^ k ∨ (2 * (n % 2 ^ k) = 2 ^ k ∧ n / 2 ^ k % 2 = 0)
  · have hcut : 2 * (n % 2 ^ k) ≤ 2 ^ k := by omega
    refine ⟨n / 2 ^ k, k, ⟨by omega, hhigh, by omega, by omega, .inl hlow⟩,
      near_cut (by positivity) ?_ fun hodd => ?_⟩
    all_goals rw [zpow_natCast]
    · exact_mod_cast hcut
    · have hlt : 2 * (n % 2 ^ k) < 2 ^ k := by omega
      exact_mod_cast hlt
  · have hup : 2 ^ k ≤ 2 * (n % 2 ^ k) := by omega
    have hhalf : (2 : ℚ) ^ (k : Int) ≤ 2 * (n % 2 ^ k : Nat) := by
      rw [zpow_natCast]
      exact_mod_cast hup
    by_cases hones : n / 2 ^ k + 1 = 2 ^ 53
    · exact ⟨2 ^ 52, k + 1, ⟨by omega, by omega, by omega, by omega, .inl (Nat.le_refl _)⟩,
        near_carry (by omega) hrest hhalf hones⟩
    · refine ⟨n / 2 ^ k + 1, k, ⟨by omega, by omega, by omega, by omega, .inl (by omega)⟩,
        near_next hlow hrest hhalf fun heven => ?_⟩
      rw [zpow_natCast]
      have hlt : 2 ^ k < 2 * (n % 2 ^ k) := by omega
      exact_mod_cast hlt

theorem exists_near (hn : 0 < n) (hlog : n.log2 < 1000) : ∃ m q, Canonical m q ∧ Near m q n := by
  by_cases hsmall : n < 2 ^ 53
  · refine ⟨n <<< (52 - n.log2), n.log2 - 52, canonical_shift hn hsmall, ?_⟩
    have hle : n.log2 ≤ 52 := Nat.lt_succ_iff.mp ((Nat.log2_lt (Nat.ne_of_gt hn)).mpr hsmall)
    have hself := near_self (n <<< (52 - n.log2)) (n.log2 - 52)
    rwa [value_shift n hle] at hself
  · obtain ⟨k, hk⟩ : ∃ k, n.log2 = 52 + k :=
      Nat.exists_eq_add_of_le ((Nat.le_log2 (Nat.ne_of_gt hn)).mpr (by omega))
    exact exists_near_large hk (by omega)

theorem exists_ofNat_unpack (hn : 0 < n) (hlog : n.log2 < 1000) :
    ∃ m q, ∃ hc : Canonical m q, (Float.ofNat n).toModel.unpack = .finite .positive m q hc.pos := by
  obtain ⟨m, q, hc, hnear⟩ := exists_near hn hlog
  have hnear' : Near m q (n * 10 ^ (0 : Int)) := by rwa [zpow_zero, mul_one]
  have hread := float_ofScientific_eq hc hn hnear' (by decide) (by omega)
  refine ⟨m, q, hc, ?_⟩
  have hfloat : Float.ofNat n = .ofModel (Float.Model.pack (.finite .positive m q hc.pos)) := hread
  rw [hfloat]
  exact unpack_pack hc .positive

/-- Whole numbers of up to a hundred places become finite numbers. -/
theorem isFinite_ofInt {n : Int} (h : n.natAbs < 2 ^ 100) : (ofInt n).isFinite = true := by
  by_cases hzero : n = 0
  · subst hzero
    decide +kernel
  · have hlog : n.natAbs.log2 < 100 := (Nat.log2_lt (Int.natAbs_ne_zero.mpr hzero)).mpr h
    obtain ⟨m, q, hc, hunpack⟩ := exists_ofNat_unpack (Int.natAbs_pos.mpr hzero) (by omega)
    unfold ofInt
    split
    · exact isFinite_of_finite (neg_finite hc hunpack)
    · exact isFinite_of_finite hunpack

end SignalEvolution.Binary

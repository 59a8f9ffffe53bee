import SignalEvolution.Proofs.Arithmetic.Digits
import SignalEvolution.Proofs.Arithmetic.Packing

/-! # Decimals are read as the nearest number

Products and quotients of exact values are rounded once. A decimal is such a product
or quotient with a power of ten, so it is read as the number in whose interval it lies.
-/
namespace SignalEvolution.Binary
open Float.Model Float.Model.UnpackedFloat

variable {m n a b d : Nat} {q i j e k : Int} {v x : ℚ}

theorem describes_exact (a : Nat) : Describes (ExtendedMantissa.ofMantissaAndAccuracy a .exact) a := rfl

theorem describes_fraction (hb : 0 < b) :
    Describes (ExtendedMantissa.ofMantissaAndAccuracy (a / b) (accuracyOfFraction (a % b) b)) (a / b : ℚ) := by
  have hb' : (0 : ℚ) < b := by exact_mod_cast hb
  have hdiv : (a : ℚ) / b = (a / b : Nat) + ((a % b : Nat) : ℚ) / b := by
    have h : (a : ℚ) = b * (a / b : Nat) + (a % b : Nat) := by exact_mod_cast (Nat.div_add_mod a b).symm
    field_simp
    linarith
  have hlt : ((a % b : Nat) : ℚ) / b < 1 := by
    rw [div_lt_one hb']
    exact_mod_cast Nat.mod_lt a hb
  rw [hdiv]
  unfold accuracyOfFraction
  split
  · next h0 =>
    rw [h0]
    simp [Describes, ExtendedMantissa.ofMantissaAndAccuracy]
  · next h0 =>
    have hpos : (0 : ℚ) < ((a % b : Nat) : ℚ) / b := by
      apply div_pos _ hb'
      exact_mod_cast Nat.pos_of_ne_zero h0
    rcases Nat.lt_trichotomy (2 * (a % b)) b with h | h | h
    · have hcast : (2 : ℚ) * (a % b : Nat) < b := by exact_mod_cast h
      have hlow : ((a % b : Nat) : ℚ) / b < 1 / 2 := by
        rw [div_lt_iff₀ hb']
        linarith
      rw [Nat.compare_eq_lt.mpr h]
      exact ⟨lt_add_of_pos_right _ hpos, (add_lt_add_iff_left _).mpr hlow⟩
    · have hcast : (2 : ℚ) * (a % b : Nat) = b := by exact_mod_cast h
      have hmid : ((a % b : Nat) : ℚ) / b = 1 / 2 := by
        rw [div_eq_iff hb'.ne']
        linarith
      rw [Nat.compare_eq_eq.mpr h, hmid]
      rfl
    · have hcast : (b : ℚ) < 2 * (a % b : Nat) := by exact_mod_cast h
      have hhigh : 1 / 2 < ((a % b : Nat) : ℚ) / b := by
        rw [lt_div_iff₀ hb']
        linarith
      rw [Nat.compare_eq_gt.mpr h]
      exact ⟨(add_lt_add_iff_left _).mpr hhigh, (add_lt_add_iff_left _).mpr hlt⟩

/-- A product of exact numbers is rounded to the number in whose interval it lies. -/
theorem mul_eq (hc : Canonical m q) (ha : 0 < a) (hb : 0 < b)
    (hn : Near m q (a * 2 ^ i * (b * 2 ^ j))) (hlog : 52 ≤ (a * b).log2) :
    UnpackedFloat.mul Format.binary64 (.finite .positive a i ha) (.finite .positive b j hb) =
      .finite .positive m q hc.pos := by
  have hvalue : (a : ℚ) * 2 ^ i * (b * 2 ^ j) / 2 ^ (i + j) = (a * b : Nat) := by
    have hi := two_zpow_pos i
    have hj := two_zpow_pos j
    rw [zpow_add₀ (by norm_num)]
    push_cast
    field_simp
  refine roundWithAccuracy_eq hc hn ?_ (.inl hlog)
  rw [hvalue]
  exact describes_exact (a * b)

/-- A quotient has all its places unless the least exponent cuts it off. -/
theorem divCore_spec (i j : Int) (ha : 0 < a) (hb : 0 < b) :
    ∃ n e acc, divCore Format.binary64 a i b j = (n, e, acc) ∧
      Describes (ExtendedMantissa.ofMantissaAndAccuracy n acc) (a * 2 ^ i / (b * 2 ^ j) / 2 ^ e : ℚ) ∧
      (52 ≤ n.log2 ∨ e ≤ -1074) := by
  have hb' : (0 : ℚ) < b := by exact_mod_cast hb
  let t := Format.binary64.targetExponent (totalExponent a i - totalExponent b j)
  have ht : t = max (a.log2 + i - (b.log2 + j) - 53) (-1074) := by
    simp only [t, Format.targetExponent, totalExponent, Format.minExponent, Format.mantissaBits]
    omega
  let e := min (i - j) t
  let k := (i - j - e).toNat
  have hk : i - j = e + (k : Int) := by omega
  have hcore : divCore Format.binary64 a i b j = ((a <<< k) / b, e, accuracyOfFraction ((a <<< k) % b) b) := rfl
  have hvalue : (a : ℚ) * 2 ^ i / (b * 2 ^ j) / 2 ^ e = ((a <<< k : Nat) : ℚ) / b := by
    have hij : (2 : ℚ) ^ i = 2 ^ k * 2 ^ e * 2 ^ j := by
      rw [← two_zpow_add, ← hk, ← zpow_add₀ (by norm_num), sub_add_cancel]
    have hj := two_zpow_pos j
    have he := two_zpow_pos e
    rw [hij, Nat.shiftLeft_eq]
    push_cast
    field_simp
  refine ⟨_, _, _, hcore, ?_, ?_⟩
  · rw [hvalue]
    exact describes_fraction hb
  · by_cases hleast : e ≤ -1074
    · exact .inr hleast
    · left
      have hshift : 52 + (b.log2 + 1) ≤ a.log2 + k := by omega
      have hle : 2 ^ 52 * b ≤ a <<< k :=
        calc 2 ^ 52 * b ≤ 2 ^ 52 * 2 ^ (b.log2 + 1) := Nat.mul_le_mul_left _ (Nat.le_of_lt Nat.lt_log2_self)
          _ = 2 ^ (52 + (b.log2 + 1)) := (Nat.pow_add 2 52 _).symm
          _ ≤ 2 ^ (a.log2 + k) := Nat.pow_le_pow_right (by decide) hshift
          _ = 2 ^ a.log2 * 2 ^ k := Nat.pow_add 2 _ _
          _ ≤ a * 2 ^ k := Nat.mul_le_mul_right _ (Nat.log2_self_le (Nat.ne_of_gt ha))
          _ = a <<< k := (Nat.shiftLeft_eq a k).symm
      have hquotient : 2 ^ 52 ≤ (a <<< k) / b := (Nat.le_div_iff_mul_le hb).mpr hle
      have hpos : (a <<< k) / b ≠ 0 := by omega
      exact (Nat.le_log2 hpos).mpr hquotient

/-- A quotient of exact numbers is rounded to the number in whose interval it lies. -/
theorem div_eq (hc : Canonical m q) (ha : 0 < a) (hb : 0 < b)
    (hn : Near m q (a * 2 ^ i / (b * 2 ^ j))) :
    UnpackedFloat.div Format.binary64 (.finite .positive a i ha) (.finite .positive b j hb) =
      .finite .positive m q hc.pos := by
  obtain ⟨n, e, acc, hcore, hd, hlog⟩ := divCore_spec i j ha hb
  simp only [UnpackedFloat.div, hcore]
  exact roundWithAccuracy_eq hc hn hd hlog

/-- The exact reader of decimals finds the number in whose interval the decimal lies. -/
theorem ofScientific_eq (hc : Canonical m q) (hd : 0 < d) (hn : Near m q (d * 10 ^ k))
    (hhigh : k ≤ 2048) (hlow : -2048 - d.log2 ≤ k) :
    UnpackedFloat.ofScientific Format.binary64 d k = .finite .positive m q hc.pos := by
  have hexp : (2 : Int) ^ Format.binary64.exponentBits = 2048 := by decide
  rw [UnpackedFloat.ofScientific, dif_neg (Nat.ne_of_gt hd), if_neg (by rw [hexp]; omega),
    if_neg (by rw [hexp]; omega)]
  split
  · next hk =>
    obtain ⟨n, rfl⟩ := Int.eq_ofNat_of_zero_le hk
    have hvalue : (d : ℚ) * (10 : ℚ) ^ (n : Int) =
        (d <<< 53 : Nat) * 2 ^ (-53 : Int) * ((10 ^ n : Nat) * 2 ^ (0 : Int)) := by
      rw [Nat.shiftLeft_eq]
      push_cast
      rw [zpow_neg, zpow_natCast]
      norm_num
      field_simp
    rw [hvalue] at hn
    refine mul_eq hc _ _ hn ?_
    have hbig : 2 ^ 52 ≤ (d <<< 53) * 10 ^ n := by
      have h10 : 0 < 10 ^ n := Nat.pow_pos (by decide)
      rw [Nat.shiftLeft_eq]
      nlinarith
    exact (Nat.le_log2 (Nat.ne_of_gt (lt_of_lt_of_le (by decide) hbig))).mpr hbig
  · next hk =>
    obtain ⟨n, rfl⟩ : ∃ n : Nat, k = -(n : Int) := ⟨k.natAbs, by omega⟩
    have hvalue : (d : ℚ) * (10 : ℚ) ^ (-(n : Int)) =
        d * 2 ^ (0 : Int) / ((10 ^ n : Nat) * 2 ^ (0 : Int)) := by
      push_cast
      rw [zpow_neg, zpow_natCast]
      field_simp
    rw [hvalue] at hn
    have hn' : (-(-(n : Int))).toNat = n := by omega
    simp only [hn']
    exact div_eq hc _ _ hn

theorem near_self (m : Nat) (q : Int) : Near m q (m * 2 ^ q) := by
  have hq := two_zpow_pos q
  obtain ⟨hgap, _⟩ := lowerGap_spec m q
  have hlow : ((m : ℚ) - lowerGap m q) * 2 ^ q < m * 2 ^ q := mul_lt_mul_of_pos_right (by linarith) hq
  have hhigh : (m : ℚ) * 2 ^ q < (m + 1 / 2) * 2 ^ q := mul_lt_mul_of_pos_right (by linarith) hq
  exact ⟨hlow.le, hhigh.le, fun _ => ⟨hlow, hhigh⟩⟩

/-- A whole number of at most fifty-three places, with its places filled up. -/
theorem canonical_shift (hn : 0 < n) (hlt : n < 2 ^ 53) :
    Canonical (n <<< (52 - n.log2)) (n.log2 - 52) := by
  have hlog : n.log2 < 53 := (Nat.log2_lt (Nat.ne_of_gt hn)).mpr hlt
  have hself := Nat.log2_self_le (Nat.ne_of_gt hn)
  have hnext : n < 2 ^ (n.log2 + 1) := Nat.lt_log2_self
  have hfull : 2 ^ 52 ≤ n <<< (52 - n.log2) := by
    rw [Nat.shiftLeft_eq]
    calc 2 ^ 52 = 2 ^ n.log2 * 2 ^ (52 - n.log2) := by rw [← Nat.pow_add]; congr 1; omega
      _ ≤ n * 2 ^ (52 - n.log2) := Nat.mul_le_mul_right _ hself
  have hless : n <<< (52 - n.log2) < 2 ^ 53 := by
    rw [Nat.shiftLeft_eq]
    calc n * 2 ^ (52 - n.log2) < 2 ^ (n.log2 + 1) * 2 ^ (52 - n.log2) :=
          Nat.mul_lt_mul_of_pos_right hnext (Nat.two_pow_pos _)
      _ = 2 ^ 53 := by rw [← Nat.pow_add]; congr 1; omega
  exact ⟨by omega, hless, by omega, by omega, .inl hfull⟩

theorem value_shift (n : Nat) (h : n.log2 ≤ 52) :
    ((n <<< (52 - n.log2) : Nat) : ℚ) * 2 ^ ((n.log2 : Int) - 52) = n := by
  have hexp : (0 : Int) = (n.log2 : Int) - 52 + (52 - n.log2 : Nat) := by omega
  have hone := two_zpow_add (52 - n.log2) ((n.log2 : Int) - 52)
  rw [← hexp, zpow_zero] at hone
  rw [Nat.shiftLeft_eq]
  push_cast
  rw [mul_assoc, ← hone, mul_one]

theorem unpack_toFloat (hn : 0 < n) (hlt : n < 2 ^ 53) :
    n.toUInt64.toFloat.toModel.unpack =
      .finite .positive (n <<< (52 - n.log2)) (n.log2 - 52) (canonical_shift hn hlt).pos := by
  have hc := canonical_shift hn hlt
  have hlog : n.log2 < 53 := (Nat.log2_lt (Nat.ne_of_gt hn)).mpr hlt
  have hnat : n.toUInt64.toNat = n := by
    rw [Nat.toUInt64, UInt64.toNat_ofNat']
    omega
  have htarget : targetOf n 0 = n.log2 - 52 := by
    rw [targetOf_eq]
    omega
  have hshift : decreaseExponent n 0 (n.log2 - 52) = (n <<< (52 - n.log2), (n.log2 : Int) - 52) := by
    have hk : (0 - ((n.log2 : Int) - 52)).toNat = 52 - n.log2 := by omega
    rw [decreaseExponent, hk]
    congr 1
    omega
  have hround : UnpackedFloat.round Format.binary64 .positive n 0 =
      .finite .positive (n <<< (52 - n.log2)) (n.log2 - 52) hc.pos := by
    have hdescribes : Describes (ExtendedMantissa.ofMantissaAndAccuracy (n <<< (52 - n.log2)) .exact)
        (((n <<< (52 - n.log2) : Nat) : ℚ) * 2 ^ ((n.log2 : Int) - 52) / 2 ^ ((n.log2 : Int) - 52)) := by
      rw [mul_div_cancel_right₀ _ (two_zpow_pos _).ne']
      exact describes_exact _
    have hlog52 : 52 ≤ (n <<< (52 - n.log2)).log2 :=
      (Nat.le_log2 (Nat.ne_of_gt hc.pos)).mpr (hc.full.resolve_right (by omega))
    have h : roundWithAccuracy Format.binary64 .positive _ _ .exact = _ :=
      roundWithAccuracy_eq hc (near_self _ _) hdescribes (.inl hlog52)
    change (let p := decreaseExponent n 0 (targetOf n 0)
      roundWithAccuracy Format.binary64 .positive p.1 p.2 .exact) = _
    rw [htarget, hshift]
    exact h
  have hcompare : compare (n : Int) 0 = .gt := Int.compare_eq_gt.mpr (by omega)
  have hnormalize : UnpackedFloat.ofUInt64 Format.binary64 n.toUInt64 =
      .finite .positive (n <<< (52 - n.log2)) (n.log2 - 52) hc.pos := by
    rw [UnpackedFloat.ofUInt64, hnat, UnpackedFloat.ofNat, UnpackedFloat.ofInt, UnpackedFloat.normalize,
      hcompare]
    exact hround
  change (Float.Model.pack (UnpackedFloat.ofUInt64 Format.binary64 n.toUInt64)).unpack = _
  rw [hnormalize, unpack_pack hc]

/-- The table holds the powers of ten exactly; `3.322` is the binary logarithm of ten. -/
theorem parts_power : ∀ k : Fin Float.exactlyRepresentablePowersOfTen.size,
    Float.exactlyRepresentablePowersOfTen[k].isFinite = true ∧
      isNegative Float.exactlyRepresentablePowersOfTen[k] = false ∧
      parts Float.exactlyRepresentablePowersOfTen[k] =
        (10 ^ k.val * 2 ^ 52 / 2 ^ (k.val * 3322 / 1000), ((k.val * 3322 / 1000 : Nat) : Int) - 52) ∧
      10 ^ k.val * 2 ^ 52 / 2 ^ (k.val * 3322 / 1000) * 2 ^ (k.val * 3322 / 1000) =
        10 ^ k.val * 2 ^ 52 := by
  decide +kernel

theorem value_power {b k i : Nat} (h : b * 2 ^ i = 10 ^ k * 2 ^ 52) :
    (b : ℚ) * 2 ^ ((i : Int) - 52) = 10 ^ k := by
  have h' : (b : ℚ) * 2 ^ i = 10 ^ k * 2 ^ 52 := by exact_mod_cast h
  rw [zpow_sub₀ (by norm_num), zpow_natCast, ← mul_div_assoc, h']
  norm_num

theorem unpack_power {k : Nat} (hk : k < Float.exactlyRepresentablePowersOfTen.size) :
    ∃ (b : Nat) (j : Int), ∃ hb : 0 < b, (b : ℚ) * 2 ^ j = 10 ^ k ∧
      Float.exactlyRepresentablePowersOfTen[k].toModel.unpack = .finite .positive b j hb := by
  obtain ⟨hfinite, hsign, hparts, hvalue⟩ := parts_power ⟨k, hk⟩
  have hb : 0 < 10 ^ k * 2 ^ 52 / 2 ^ (k * 3322 / 1000) := by
    apply Nat.pos_of_ne_zero
    intro h0
    rw [h0, Nat.zero_mul] at hvalue
    exact absurd hvalue.symm (by positivity)
  exact ⟨_, _, hb, value_power hvalue, unpack_of_parts hfinite hsign hparts hb⟩

/-- A decimal is read as the number in whose interval it lies. -/
theorem float_ofScientific_eq (hc : Canonical m q) (hd : 0 < d) (hn : Near m q (d * 10 ^ k))
    (hhigh : k ≤ 2048) (hlow : -2048 - d.log2 ≤ k) :
    Float.ofScientific d (k < 0) k.natAbs = .ofModel (Float.Model.pack (.finite .positive m q hc.pos)) := by
  rw [Float.ofScientific]
  split
  · next hfast =>
    obtain ⟨hd53, hk22⟩ := hfast
    obtain ⟨b, j, hb, hvalue, hpower⟩ := unpack_power (show k.natAbs < 23 by omega)
    have hcd := canonical_shift hd hd53
    have hunpack := unpack_toFloat hd hd53
    have hlog : d.log2 < 53 := (Nat.log2_lt (Nat.ne_of_gt hd)).mpr hd53
    have hdvalue := value_shift d (by omega)
    have hfull : 2 ^ 52 ≤ d <<< (52 - d.log2) := hcd.full.resolve_right (by omega)
    split
    · next hneg =>
      have hk : k < 0 := of_decide_eq_true hneg
      have hten : (10 : ℚ) ^ k = ((10 : ℚ) ^ k.natAbs)⁻¹ := by
        rw [← zpow_natCast, ← zpow_neg]
        congr 1
        omega
      rw [hten, ← div_eq_mul_inv, ← hvalue, ← hdvalue] at hn
      have h := div_eq hc hcd.pos hb hn
      rw [← hunpack, ← hpower] at h
      exact congrArg (fun u => Float.ofModel (Float.Model.pack u)) h
    · next hneg =>
      have hk : ¬ k < 0 := by simpa using hneg
      have hten : (10 : ℚ) ^ k = (10 : ℚ) ^ k.natAbs := by
        rw [← zpow_natCast]
        congr 1
        omega
      rw [hten, ← hvalue, ← hdvalue] at hn
      have hproduct : 2 ^ 52 ≤ (d <<< (52 - d.log2)) * b :=
        Nat.le_trans hfull (Nat.le_mul_of_pos_right _ hb)
      have hlog' : 52 ≤ ((d <<< (52 - d.log2)) * b).log2 :=
        (Nat.le_log2 (Nat.ne_of_gt (lt_of_lt_of_le (by decide) hproduct))).mpr hproduct
      have h := mul_eq hc hcd.pos hb hn hlog'
      rw [← hunpack, ← hpower] at h
      exact congrArg (fun u => Float.ofModel (Float.Model.pack u)) h
  · have hexp : (if (decide (k < 0)) = true then Int.negOfNat k.natAbs else Int.ofNat k.natAbs) = k := by
      split
      · next hneg =>
        have hk : k < 0 := of_decide_eq_true hneg
        rw [Int.negOfNat_eq]
        change -(k.natAbs : Int) = k
        omega
      · next hneg =>
        have hk : ¬ k < 0 := by simpa using hneg
        change (k.natAbs : Int) = k
        omega
    simp only [hexp, Float.Model.ofScientific, ofScientific_eq hc hd hn hhigh hlow]

theorem ten_zpow_lt {i j : Int} (h : (10 : ℚ) ^ i < 10 ^ j) : i < j :=
  (zpow_lt_zpow_iff_right₀ (by norm_num)).mp h

theorem two_zpow_lt_ten {i : Int} (hi : i < 1200) : (2 : ℚ) ^ i < 10 ^ (400 : Int) := by
  have hpow : (2 : ℚ) ^ (1200 : Int) ≤ 10 ^ (400 : Int) := by
    have h := pow_le_pow_left₀ (show (0 : ℚ) ≤ 2 ^ 3 by norm_num) (show (2 : ℚ) ^ 3 ≤ 10 by norm_num) 400
    rw [← pow_mul] at h
    exact h
  exact lt_of_lt_of_le (zpow_lt_zpow_right₀ (by norm_num) hi) hpow

theorem Near.lt (hc : Canonical m q) (hn : Near m q v) : v < 10 ^ (400 : Int) := by
  have hq := two_zpow_pos q
  have hm : (m : ℚ) + 1 / 2 < 2 ^ 53 := by
    have hle : (m : ℚ) + 1 ≤ 2 ^ 53 := by exact_mod_cast hc.lt
    linarith
  have hgreatest := hc.greatest
  calc v ≤ (m + 1 / 2) * 2 ^ q := hn.high
    _ < 2 ^ 53 * 2 ^ q := mul_lt_mul_of_pos_right hm hq
    _ = 2 ^ (q + (53 : Nat)) := (two_zpow_add 53 q).symm
    _ < 10 ^ (400 : Int) := two_zpow_lt_ten (by omega)

theorem Near.gt (hc : Canonical m q) (hn : Near m q v) : (10 : ℚ) ^ (-400 : Int) < v := by
  have hq := two_zpow_pos q
  obtain ⟨_, hgap⟩ := lowerGap_spec m q
  have hm : 1 / 2 ≤ (m : ℚ) - lowerGap m q := by
    have hle : (1 : ℚ) ≤ m := by exact_mod_cast hc.pos
    linarith
  have hleast := hc.least
  have hhalf : (2 : ℚ) ^ (q - 1) = 1 / 2 * 2 ^ q := by
    rw [zpow_sub_one₀ (by norm_num)]
    ring
  have hinv : (10 : ℚ) ^ (-400 : Int) < 2 ^ (q - 1) := by
    have h := two_zpow_lt_ten (show -(q - 1) < 1200 by omega)
    rw [zpow_neg] at h ⊢
    exact (inv_lt_comm₀ (two_zpow_pos _) (by positivity)).mp h
  calc (10 : ℚ) ^ (-400 : Int) < 2 ^ (q - 1) := hinv
    _ = 1 / 2 * 2 ^ q := hhalf
    _ ≤ (m - lowerGap m q) * 2 ^ q := mul_le_mul_of_nonneg_right hm hq.le
    _ ≤ v := hn.low

theorem digits_of_near (hc : Canonical m q) (hn : Near m q (d * 10 ^ k)) : 0 < d := by
  apply Nat.pos_of_ne_zero
  rintro rfl
  have hpos := hn.gt hc
  rw [Nat.cast_zero, zero_mul] at hpos
  exact absurd hpos (not_lt.mpr (zpow_pos (by norm_num) _).le)

theorem nearest_eq (hc : Canonical m q) (hn : Near m q (d * 10 ^ k)) :
    Decimal.nearest d k = .ofModel (Float.Model.pack (.finite .positive m q hc.pos)) := by
  have hd := digits_of_near hc hn
  have hten : (0 : ℚ) < 10 ^ k := zpow_pos (by norm_num) k
  have hcount := Decimal.digitCount_pos d
  have hlow : (10 : ℚ) ^ (Shortest.digitCount d - 1 : Nat) ≤ d := by
    exact_mod_cast Decimal.pow_digitCount_le hd
  have hhigh : (d : ℚ) < 10 ^ Shortest.digitCount d := by
    exact_mod_cast Decimal.lt_pow_digitCount d
  have hsize : (Shortest.digitCount d : Int) + k ≤ 400 := by
    have hpow : (10 : ℚ) ^ ((Shortest.digitCount d - 1 : Nat) + k) < 10 ^ (400 : Int) := by
      rw [zpow_add₀ (by norm_num), zpow_natCast]
      exact lt_of_le_of_lt (mul_le_mul_of_nonneg_right hlow hten.le) (hn.lt hc)
    have h := ten_zpow_lt hpow
    omega
  have hsize' : -400 ≤ (Shortest.digitCount d : Int) + k := by
    have hpow : (10 : ℚ) ^ (-400 : Int) < 10 ^ ((Shortest.digitCount d : Int) + k) := by
      rw [zpow_add₀ (by norm_num), zpow_natCast]
      exact lt_trans (hn.gt hc) (mul_lt_mul_of_pos_right hhigh hten)
    have h := ten_zpow_lt hpow
    omega
  have hlog : Shortest.digitCount d - 1 ≤ d.log2 := by
    refine (Nat.le_log2 (Nat.ne_of_gt hd)).mpr (Nat.le_trans ?_ (Decimal.pow_digitCount_le hd))
    exact Nat.pow_le_pow_left (by decide) _
  rw [Decimal.nearest, if_neg (Nat.ne_of_gt hd)]
  simp only [if_neg (show ¬ 400 < (Shortest.digitCount d : Int) + k by omega),
    if_neg (show ¬ (Shortest.digitCount d : Int) + k < -400 by omega)]
  exact float_ofScientific_eq hc hd hn (by omega) (by omega)

end SignalEvolution.Binary

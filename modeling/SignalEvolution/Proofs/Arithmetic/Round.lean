import SignalEvolution.Arithmetic.Exact
import SignalEvolution.Proofs.Arithmetic.Operations
import SignalEvolution.Proofs.Arithmetic.Whole

/-! # Rounding to whole numbers

A number is rounded by cutting off its fraction and comparing that with a half. Every step of
this is exact, so the result is the nearest whole number, and rounding is monotone.
-/
namespace SignalEvolution.Binary
open Float.Model Float.Model.UnpackedFloat

variable {m n : Nat} {q : Int} {v w : ℚ} {x y z : Float}

theorem HasValue.isFinite (h : HasValue x v) (hlow : -beyond < v) (hhigh : v < beyond) :
    x.isFinite = true := by
  rw [isFinite_iff h.number, h.value]
  exact ⟨hlow, hhigh⟩

theorem pow_lt_beyond : (2 : ℚ) ^ 53 < beyond := by
  rw [beyond]
  exact zpow_lt_zpow_right₀ (by norm_num) (show (53 : Int) < 1024 by decide)

theorem HasValue.isFinite_of_le (h : HasValue x v) (hv : |v| ≤ 2 ^ 53) : x.isFinite = true := by
  obtain ⟨hlow, hhigh⟩ := abs_le.mp hv
  have hbeyond := pow_lt_beyond
  exact h.isFinite (by linarith) (by linarith)

theorem nearestValue_natCast (hn : n < 2 ^ 53) : nearestValue n = n := by
  have h := nearestValue_exact hn (show -1074 ≤ 0 by decide) (by decide) .positive
  simpa [withSign] using h

/-- What is of moderate size before it is rounded is finite. -/
theorem HasValue.isFinite_of_nearest (h : HasValue x (nearestValue v)) (hv : |v| ≤ 2 ^ 52) :
    x.isFinite = true := by
  have hexact := nearestValue_exact (show 2 ^ 52 < 2 ^ 53 by decide) (show -1074 ≤ (0 : Int) by decide)
    (by decide)
  have hlimit : nearestValue (2 ^ 52) = 2 ^ 52 := by
    have h := hexact .positive
    rw [withSign, zpow_zero, mul_one] at h
    exact_mod_cast h
  have hlimit' : nearestValue (-2 ^ 52) = -2 ^ 52 := by
    have h := hexact .negative
    rw [withSign, zpow_zero, mul_one] at h
    exact_mod_cast h
  obtain ⟨hlow, hhigh⟩ := abs_le.mp hv
  have hlow' := nearestValue_mono hlow
  have hhigh' := nearestValue_mono hhigh
  rw [hlimit'] at hlow'
  rw [hlimit] at hhigh'
  exact h.isFinite_of_le (abs_le.mpr ⟨by linarith, by linarith⟩)

theorem hasValue_zero : HasValue 0 0 := by
  refine ⟨by decide +kernel, ?_⟩
  rw [value, zero_unpack]
  rfl

theorem isZero_of_value (hx : x.isNaN = false) (hvalue : value x = 0) : IsZero x := by
  obtain ⟨hnumber, hzero⟩ := hasValue_zero
  rcases beq_iff.mp ((beq_iff_value hx hnumber).mpr (hvalue.trans hzero.symm)) with ⟨h, -⟩ | ⟨-, rfl⟩
  · exact h
  · exact isZero_zero

theorem hasValue_ofNat (hn : n < 2 ^ 53) : HasValue (Float.ofNat n) n := by
  rcases Nat.eq_zero_or_pos n with rfl | hpos
  · rw [Nat.cast_zero]
    exact hasValue_zero
  · have hc := canonical_shift hpos hn
    have hlog : n.log2 ≤ 52 := Nat.lt_succ_iff.mp ((Nat.log2_lt hpos.ne').mpr hn)
    have hvalue := value_shift n hlog
    have hnear := near_self (n <<< (52 - n.log2)) (n.log2 - 52)
    rw [hvalue] at hnear
    have hnear' : Near (n <<< (52 - n.log2)) (n.log2 - 52) (n * 10 ^ (0 : Int)) := by
      rwa [zpow_zero, mul_one]
    have hread := float_ofScientific_eq hc hpos hnear' (by decide) (by omega)
    have hpacks := packs_canonical hc .positive
    rw [withSign, hvalue] at hpacks
    exact .of_packs (congrArg (fun x : Float => x.toModel.unpack) hread) hpacks

theorem hasValue_toFloat (hn : n < 2 ^ 53) : HasValue n.toUInt64.toFloat n := by
  rcases Nat.eq_zero_or_pos n with rfl | hpos
  · have hzero : (0 : Nat).toUInt64.toFloat = 0 := by decide +kernel
    rw [hzero, Nat.cast_zero]
    exact hasValue_zero
  · have hc := canonical_shift hpos hn
    have hlog : n.log2 ≤ 52 := Nat.lt_succ_iff.mp ((Nat.log2_lt hpos.ne').mpr hn)
    have hunpack := unpack_toFloat hpos hn
    have hpacks := packs_canonical hc .positive
    rw [withSign, value_shift n hlog] at hpacks
    refine .of_packs ?_ hpacks
    rw [hunpack, unpack_pack hc]

theorem hasValue_one : HasValue 1 1 := by
  exact_mod_cast hasValue_ofNat (show 1 < 2 ^ 53 by decide)

/-- Exponent and fraction written into a word make this number. -/
theorem hasValue_ofBits {e k : Nat} {b : UInt64} (hpos : 0 < e) (he : e < 2047) (hk : k < 2 ^ 52)
    (hb : b.toNat = e * 2 ^ 52 + k) :
    (Float.ofBits b).isFinite = true ∧
      HasValue (Float.ofBits b) ((2 ^ 52 + k : Nat) * 2 ^ ((e : Int) - 1075)) := by
  have hbits : b.toBitVec.toNat = e * 2 ^ 52 + k := hb
  have hexponent : (@unpackExponent Format.binary64 b.toBitVec).toNat = e := by
    rw [toNat_unpackExponent, hbits]
    omega
  have hmantissa : (@unpackMantissa Format.binary64 b.toBitVec).toNat = k := by
    rw [toNat_unpackMantissa, hbits]
    omega
  have hsign : Sign.ofBitVec (@unpackSign Format.binary64 b.toBitVec) = .positive := by
    have hzero : (@unpackSign Format.binary64 b.toBitVec).toNat = 0 := by
      rw [toNat_unpackSign, hbits]
      omega
    exact if_pos (BitVec.eq_of_toNat_eq hzero)
  have hc : Canonical (2 ^ 52 + k) ((e : Int) - 1075) :=
    ⟨by omega, by omega, by omega, by omega, .inl (by omega)⟩
  have hunpack : UnpackedFloat.unpack Format.binary64 b.toBitVec =
      .finite .positive (2 ^ 52 + k) ((e : Int) - 1075) hc.pos := by
    rw [unpack_eq, hsign, ofFields_normal (by omega) (by omega)]
    simp only [hexponent, hmantissa]
  have hpacks := packs_canonical hc .positive
  rw [← hunpack] at hpacks
  have h : HasValue (Float.ofBits b) ((2 ^ 52 + k : Nat) * 2 ^ ((e : Int) - 1075)) := .of_packs rfl hpacks
  exact ⟨h.isFinite (by linarith [hc.value_pos, beyond_pos]) hc.lt_beyond, h⟩

theorem hasValue_half : HasValue 0.5 (1 / 2) := by
  have hparts : (0.5 : Float).isFinite = true ∧ isNegative 0.5 = false ∧
      parts 0.5 = (4503599627370496, -53) := by
    decide +kernel
  obtain ⟨hfinite, hsign, hparts⟩ := hparts
  refine ⟨isNaN_of_isFinite hfinite, ?_⟩
  rw [value, unpack_of_parts hfinite hsign hparts (by decide)]
  norm_num [valueOf, withSign]

theorem roundToInt_eq (m : Nat) (q : Int) : roundToInt .positive m q = ⌊(m : ℚ) * 2 ^ q⌋ := by
  let d := (q - 0).toNat
  let j := (0 - (q - d)).toNat
  have hround : roundToInt .positive m q =
      ((ExtendedMantissa.ofMantissaAndAccuracy (m <<< d) .exact >>> j).mantissa : Int) := rfl
  obtain ⟨hlow, hhigh⟩ := ((describes_exact (m <<< d)).shiftRight j).bounds
  have hvalue : (m : ℚ) * 2 ^ q = (m <<< d : Nat) / 2 ^ j := by
    have hexp : q + (j : Int) = d := by omega
    have hpow : (2 : ℚ) ^ j * 2 ^ q = 2 ^ d := by rw [← two_zpow_add, hexp, zpow_natCast]
    rw [eq_div_iff (by positivity), mul_assoc, mul_comm ((2 : ℚ) ^ q), hpow, Nat.shiftLeft_eq]
    push_cast
    rfl
  rw [hround, hvalue]
  exact (Int.floor_eq_iff.mpr ⟨by exact_mod_cast hlow, by exact_mod_cast hhigh⟩).symm

theorem toUInt64_eq (hx : x.isFinite = true) (hlow : 0 ≤ value x) (hhigh : value x < 2 ^ 52) :
    x.toUInt64 = ⌊value x⌋.toNat.toUInt64 ∧ ⌊value x⌋.toNat < 2 ^ 52 := by
  have hfloor : ⌊value x⌋ < 2 ^ 52 := by
    rw [Int.floor_lt]
    exact_mod_cast hhigh
  have hbound : ⌊value x⌋.toNat < 2 ^ 52 := by omega
  have hint : x.toModel.unpack.toInt 0 (UInt64.size - 1) = ⌊value x⌋ := by
    unfold value at hlow ⊢
    have hu := finite_unpack hx
    generalize x.toModel.unpack = u at hu hlow ⊢
    cases hu with
    | zero s => exact (Int.floor_zero (R := ℚ)).symm
    | finite s hc =>
      cases s with
      | positive => exact roundToInt_eq _ _
      | negative =>
        have hpos := hc.value_pos
        simp only [valueOf, withSign] at hlow
        linarith
  refine ⟨?_, hbound⟩
  have hclamp : x.toUInt64 = UInt64.ofNatClamp (x.toModel.unpack.toInt 0 (UInt64.size - 1)).toNat := rfl
  rw [hclamp, hint]
  apply UInt64.toNat_inj.mp
  rw [UInt64.toNat_ofNatClamp_of_lt (by simp [UInt64.size]; omega), Nat.toUInt64, UInt64.toNat_ofNat']
  omega

/-- The fraction of a number needs no rounding. -/
theorem nearestValue_fract (hx : x.isFinite = true) (hlow : 0 ≤ value x) :
    nearestValue (Int.fract (value x)) = Int.fract (value x) := by
  unfold value at hlow ⊢
  have hu := finite_unpack hx
  generalize x.toModel.unpack = u at hu hlow ⊢
  cases hu with
  | zero s =>
    change nearestValue (Int.fract 0) = Int.fract 0
    rw [Int.fract_zero, nearestValue_zero]
  | @finite m q s hc =>
    cases s with
    | negative =>
      have hpos := hc.value_pos
      simp only [valueOf, withSign] at hlow
      linarith
    | positive =>
      simp only [valueOf, withSign]
      rcases le_total 0 q with hq | hq
      · obtain ⟨k, rfl⟩ := Int.eq_ofNat_of_zero_le hq
        have hwhole : (m : ℚ) * 2 ^ (k : Int) = ((m * 2 ^ k : Nat) : ℚ) := by
          rw [zpow_natCast]
          push_cast
          rfl
        rw [hwhole, Int.fract_natCast, nearestValue_zero]
      · obtain ⟨k, rfl⟩ : ∃ k : Nat, q = -(k : Int) := ⟨q.natAbs, by omega⟩
        have hpow : (2 : ℚ) ^ (-(k : Int)) = (2 ^ k)⁻¹ := by rw [zpow_neg, zpow_natCast]
        have hsplit : (m : ℚ) = (2 ^ k : Nat) * (m / 2 ^ k : Nat) + (m % 2 ^ k : Nat) := by
          exact_mod_cast (Nat.div_add_mod m (2 ^ k)).symm
        have hrest : ((m % 2 ^ k : Nat) : ℚ) < 2 ^ k := by
          exact_mod_cast Nat.mod_lt m (Nat.two_pow_pos k)
        have hfract : Int.fract ((m : ℚ) * 2 ^ (-(k : Int))) =
            (m % 2 ^ k : Nat) * 2 ^ (-(k : Int)) := by
          rw [Int.fract_eq_iff]
          refine ⟨by positivity, ?_, (m / 2 ^ k : Nat), ?_⟩
          · rw [hpow, ← div_eq_mul_inv, div_lt_one (by positivity)]
            exact hrest
          · rw [hpow, Int.cast_natCast]
            nth_rewrite 1 [hsplit]
            rw [Nat.cast_pow, Nat.cast_ofNat]
            field_simp
            ring
        rw [hfract]
        have hmod := Nat.mod_le m (2 ^ k)
        have hlt := hc.lt
        have hleast := hc.least
        exact nearestValue_exact (by omega) hleast (by omega) .positive

theorem value_isNegative (hx : x.isFinite = true) :
    value x = if isNegative x then -|value x| else |value x| := by
  rcases unpack_cases hx with ⟨s, hs, -, hsign⟩ | ⟨s, m, q, hc, hs, -, hsign⟩
  · have hzero : value x = 0 := by rw [value, hs]; rfl
    simp [hzero]
  · have hvalue : value x = withSign s (m * 2 ^ q) := by rw [value, hs]; rfl
    rw [hvalue, abs_withSign s hc.value_pos.le]
    cases s with
    | negative => rw [if_pos (hsign.mpr rfl)]; rfl
    | positive => rw [if_neg fun h => Sign.noConfusion (hsign.mp h)]; rfl

theorem scaled_eq_int (m k : Nat) : (m : ℚ) * 2 ^ (k : Int) = ((m * 2 ^ k : Int) : ℚ) := by
  rw [zpow_natCast]
  push_cast
  rfl

theorem exists_int_withSign {n : Int} (hv : v = n) (s : Sign) : ∃ n : Int, withSign s v = n := by
  cases s with
  | negative => exact ⟨-n, by rw [withSign, hv, Int.cast_neg]⟩
  | positive => exact ⟨n, hv⟩

/-- From `2 ^ 52` on every number is whole. -/
theorem exists_int_of_large (hx : x.isNaN = false) (hlarge : 2 ^ 52 ≤ |value x|) :
    ∃ n : Int, value x = n := by
  unfold value at hlarge ⊢
  have hu := proper_unpack hx
  generalize x.toModel.unpack = u at hu hlarge ⊢
  cases hu with
  | infinity s =>
    have hbeyond : beyond = ((1 : Nat) : ℚ) * 2 ^ ((1024 : Nat) : Int) := by
      rw [beyond, Nat.cast_one, one_mul]
      rfl
    exact exists_int_withSign (hbeyond.trans (scaled_eq_int 1 1024)) s
  | zero s => exact ⟨0, Int.cast_zero.symm⟩
  | @finite m q s hc =>
    have hlt := hc.lt_two_zpow
    rw [valueOf, abs_withSign s hc.value_pos.le] at hlarge
    have hq : 0 ≤ q := by
      have hpow : (2 : ℚ) ^ (52 : Int) < 2 ^ (q + 53) := lt_of_le_of_lt (by exact_mod_cast hlarge) hlt
      have hexp := two_zpow_lt hpow
      omega
    obtain ⟨k, rfl⟩ := Int.eq_ofNat_of_zero_le hq
    exact exists_int_withSign (scaled_eq_int m k) s

/-- A finite number is written as whole exactly when its value is an integer. -/
theorem isWhole_iff (hx : x.isFinite = true) : isWhole x = true ↔ ∃ n : Int, value x = n := by
  rcases unpack_cases hx with ⟨s, hs, hparts, -⟩ | ⟨s, m, q, hc, hs, hparts, -⟩
  · refine iff_of_true ?_ ⟨0, ?_⟩
    · simp only [isWhole, hparts, hx, Nat.zero_mod, beq_self_eq_true, Bool.or_true, Bool.and_true]
    · simp [value, hs, valueOf]
  · have hvalue : value x = withSign s (m * 2 ^ q) := by rw [value, hs]; rfl
    rw [hvalue]
    constructor
    · intro h
      have hpart := wholePart_eq h hparts
      exact exists_int_withSign (hpart.symm.trans (Int.cast_natCast _).symm) s
    · rintro ⟨n, hn⟩
      have habs : (m : ℚ) * 2 ^ q = (n.natAbs : ℚ) := by
        rw [← abs_withSign s hc.value_pos.le, hn, Nat.cast_natAbs, Int.cast_abs]
      by_cases hq : 0 ≤ q
      · simp [isWhole, hparts, hx, hq]
      · have hpow : (2 : ℚ) ^ q * 2 ^ q.natAbs = 1 := by
          rw [← zpow_natCast, ← zpow_add₀ (by norm_num), ← zpow_zero (2 : ℚ)]
          congr 1
          omega
        have hm : (m : ℚ) = (n.natAbs * 2 ^ q.natAbs : Nat) := by
          push_cast
          rw [← habs, mul_assoc, hpow, mul_one]
        have hm' : m = n.natAbs * 2 ^ q.natAbs := by exact_mod_cast hm
        simp [isWhole, hparts, hx, hm']

theorem round_eq_floor (hv : 0 ≤ v) : Exact.round v = ⌊v + 1 / 2⌋ := if_pos hv

theorem round_neg (v : ℚ) : Exact.round (-v) = -Exact.round v := by
  rcases lt_trichotomy v 0 with h | rfl | h
  · have hneg : Exact.round v = -(⌊1 / 2 - v⌋ : ℚ) := if_neg (by linarith)
    rw [hneg, round_eq_floor (by linarith), neg_neg, neg_add_eq_sub]
  · have hzero : Exact.round 0 = 0 := by decide +kernel
    rw [neg_eq_zero.mpr rfl, hzero, neg_eq_zero.mpr rfl]
  · have hneg : Exact.round (-v) = -(⌊1 / 2 - -v⌋ : ℚ) := if_neg (by linarith)
    rw [hneg, round_eq_floor h.le, sub_neg_eq_add, add_comm]

theorem round_mono (h : v ≤ w) : Exact.round v ≤ Exact.round w := by
  have hmono : ∀ {a b : ℚ}, 0 ≤ a → a ≤ b → Exact.round a ≤ Exact.round b := by
    intro a b ha hab
    rw [round_eq_floor ha, round_eq_floor (ha.trans hab)]
    exact_mod_cast Int.floor_le_floor (by linarith)
  have hnonneg : ∀ {a : ℚ}, 0 ≤ a → 0 ≤ Exact.round a := by
    intro a ha
    rw [round_eq_floor ha]
    exact_mod_cast Int.floor_nonneg.mpr (by linarith)
  rcases le_total 0 v with hv | hv
  · exact hmono hv h
  · have hneg := round_neg v
    rcases le_total 0 w with hw | hw
    · have hleft := hnonneg (neg_nonneg.mpr hv)
      have hright := hnonneg hw
      linarith
    · have hneg' := round_neg w
      have hle := hmono (neg_nonneg.mpr hw) (neg_le_neg h)
      linarith

theorem round_intCast (n : Int) : Exact.round n = n := by
  have hnat : ∀ m : Nat, Exact.round m = m := by
    intro m
    rw [round_eq_floor (Nat.cast_nonneg m), Int.floor_natCast_add]
    norm_num
  rcases le_total 0 n with h | h
  · obtain ⟨m, rfl⟩ := Int.eq_ofNat_of_zero_le h
    rw [Int.cast_natCast, hnat]
  · obtain ⟨m, rfl⟩ : ∃ m : Nat, n = -(m : Int) := ⟨n.natAbs, by omega⟩
    rw [Int.cast_neg, round_neg, Int.cast_natCast, hnat]

theorem exists_int_round (v : ℚ) : ∃ n : Int, Exact.round v = n := by
  rcases le_total 0 v with h | h
  · exact ⟨_, round_eq_floor h⟩
  · refine ⟨-⌊-v + 1 / 2⌋, ?_⟩
    rw [← neg_neg v, round_neg, round_eq_floor (neg_nonneg.mpr h), neg_neg, Int.cast_neg]

/-- The whole part, and one more where the fraction is at least a half. -/
theorem floor_add_half (v : ℚ) :
    ⌊v + 1 / 2⌋ = if 1 / 2 ≤ Int.fract v then ⌊v⌋ + 1 else ⌊v⌋ := by
  have hsplit := Int.floor_add_fract v
  have hnonneg := Int.fract_nonneg v
  have hlt := Int.fract_lt_one v
  split
  · next h =>
    rw [Int.floor_eq_iff]
    push_cast
    constructor <;> linarith
  · next h =>
    rw [Int.floor_eq_iff]
    constructor <;> linarith

theorem hasValue_roundMagnitude (hx : x.isFinite = true) (hlow : 0 ≤ value x) (hhigh : value x < 2 ^ 52) :
    HasValue (if 0.5 ≤ x - x.toUInt64.toFloat then x.toUInt64.toFloat + 1 else x.toUInt64.toFloat)
      (Exact.round (value x)) := by
  obtain ⟨hword, hbound⟩ := toUInt64_eq hx hlow hhigh
  have hnat : ((⌊value x⌋.toNat : Nat) : ℚ) = ⌊value x⌋ := by
    have h : ((⌊value x⌋.toNat : Nat) : Int) = ⌊value x⌋ := Int.toNat_of_nonneg (Int.floor_nonneg.mpr hlow)
    exact_mod_cast h
  have hsmall : ⌊value x⌋.toNat < 2 ^ 53 := by omega
  have hwhole := hasValue_toFloat hsmall
  rw [← hword] at hwhole
  generalize x.toUInt64.toFloat = whole at hwhole ⊢
  have hlimit : ((⌊value x⌋.toNat : Nat) : ℚ) < beyond := by
    have hcast : ((⌊value x⌋.toNat : Nat) : ℚ) < 2 ^ 53 := by exact_mod_cast hsmall
    exact hcast.trans pow_lt_beyond
  have hfinite : whole.isFinite = true :=
    hwhole.isFinite (lt_of_lt_of_le (neg_neg_of_pos beyond_pos) (Nat.cast_nonneg _)) hlimit
  have hone := hasValue_one
  have hfraction : HasValue (x - whole) (Int.fract (value x)) := by
    have h := hasValue_sub hx hfinite
    rw [hwhole.value, hnat, Int.self_sub_floor, nearestValue_fract hx hlow] at h
    exact h
  have hnext : HasValue (whole + 1) (⌊value x⌋ + 1 : Int) := by
    have h := hasValue_add hfinite (hone.isFinite_of_le (by norm_num))
    have hsum : value whole + value 1 = (⌊value x⌋.toNat + 1 : Nat) := by
      rw [hwhole.value, hone.value]
      push_cast
      rfl
    rw [hsum, nearestValue_natCast (by omega)] at h
    push_cast at h ⊢
    rwa [hnat] at h
  rw [round_eq_floor hlow, floor_add_half]
  by_cases h : 1 / 2 ≤ Int.fract (value x)
  · have hle : (0.5 : Float) ≤ x - whole := by
      rwa [le_iff_value hasValue_half.number hfraction.number, hasValue_half.value, hfraction.value]
    rw [if_pos hle, if_pos h]
    exact hnext
  · have hgt : ¬ (0.5 : Float) ≤ x - whole := by
      rwa [le_iff_value hasValue_half.number hfraction.number, hasValue_half.value, hfraction.value]
    rw [if_neg hgt, if_neg h, ← hnat]
    exact hwhole

/-- Rounding a number gives the nearest whole number, a half going away from zero. -/
theorem hasValue_roundHalfAway (hx : x.isNaN = false) :
    HasValue (roundHalfAway x) (Exact.round (value x)) := by
  have hmagnitude := hasValue_abs hx
  have hlimit : HasValue 4503599627370496 (4503599627370496 : Nat) :=
    hasValue_ofNat (show 4503599627370496 < 2 ^ 53 by decide)
  have hcondition : x.abs < 4503599627370496 ↔ |value x| < 2 ^ 52 := by
    rw [lt_iff_value hmagnitude.number hlimit.number, hmagnitude.value, hlimit.value]
    norm_num
  unfold roundHalfAway
  by_cases hsmall : |value x| < 2 ^ 52
  · have hless : |value x| < beyond := by linarith [pow_lt_beyond]
    have hfinite : x.isFinite = true := by
      rw [isFinite_iff hx]
      exact abs_lt.mp hless
    have hfinite' : x.abs.isFinite = true :=
      hmagnitude.isFinite (by linarith [beyond_pos, abs_nonneg (value x)]) hless
    have hround := hasValue_roundMagnitude hfinite' (hmagnitude.value ▸ abs_nonneg _)
      (hmagnitude.value ▸ hsmall)
    rw [hmagnitude.value] at hround
    simp only [if_pos (hcondition.mpr hsmall)]
    have hsign := value_isNegative hfinite
    change HasValue (if isNegative x = true then _ else _) _
    split
    · next hnegative =>
      rw [if_pos hnegative] at hsign
      rw [hsign, round_neg]
      have h := hasValue_neg hround.number
      rwa [hround.value] at h
    · next hpositive =>
      rw [if_neg hpositive] at hsign
      rwa [hsign]
  · simp only [if_neg (mt hcondition.mp hsmall)]
    obtain ⟨n, hn⟩ := exists_int_of_large hx (not_lt.mp hsmall)
    refine ⟨hx, ?_⟩
    rw [hn, round_intCast]

end SignalEvolution.Binary

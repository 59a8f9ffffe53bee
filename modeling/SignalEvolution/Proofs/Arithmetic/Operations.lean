import SignalEvolution.Proofs.Arithmetic.HalfEven

/-! # Operations round once

A sum, difference, product or quotient of finite numbers is the number nearest to the exact
one, so operations are monotone. Only infinities and divisions by zero can make a NaN.
-/
namespace SignalEvolution.Binary
open Float.Model Float.Model.UnpackedFloat

variable {m n a b : Nat} {q r e t : Int} {acc : Accuracy} {s : Sign} {v w : ℚ} {x y z : Float}
variable {u : UnpackedFloat}

/-- An unpacked result, packed and unpacked again, is the number of this value. -/
structure Packs (u : UnpackedFloat) (v : ℚ) : Prop where
  proper : Proper (Float.Model.pack u).unpack
  value : valueOf (Float.Model.pack u).unpack = v

theorem unpack_pack_infinity (s : Sign) : (Float.Model.pack (.infinity s)).unpack = .infinity s :=
  unpack_packComponents s (-1#11) 0#52

theorem packs_zero (s : Sign) : Packs (.zero s) 0 := by
  constructor
  · rw [unpack_pack_zero]
    exact .zero s
  · rw [unpack_pack_zero]
    rfl

theorem packs_infinity (s : Sign) : Packs (.infinity s) (withSign s beyond) := by
  constructor
  · rw [unpack_pack_infinity]
    exact .infinity s
  · rw [unpack_pack_infinity]
    rfl

theorem packs_canonical (hc : Canonical m q) (s : Sign) :
    Packs (.finite s m q hc.pos) (withSign s (m * 2 ^ q)) := by
  constructor
  · rw [unpack_pack hc s]
    exact .finite s hc
  · rw [unpack_pack hc s]
    rfl

/-- What has too large an exponent becomes an infinity. -/
theorem pack_overflow (hq : 972 ≤ q) (hm : 0 < m) :
    Float.Model.pack (.finite s m q hm) = Float.Model.pack (.infinity s) := by
  have hlarge : 2 ^ 11 ≤ (q + 1023 + 52).toNat + 1 := by omega
  have hpack : UnpackedFloat.pack Format.binary64 (.finite s m q hm) =
      UnpackedFloat.pack Format.binary64 (.infinity s) := if_pos hlarge
  simp only [Float.Model.pack, hpack]

/-- A mantissa of at most fifty-three bits at its last place. -/
theorem packs_finite (hm : 0 < m) (hlt : m < 2 ^ 53) (hq : -1074 ≤ q)
    (hfull : 2 ^ 52 ≤ m ∨ q = -1074) :
    Packs (.finite s m q hm) (withSign s (min (m * 2 ^ q) beyond)) := by
  by_cases hlarge : 972 ≤ q
  · have hm' : (2 : ℚ) ^ 52 ≤ m := by exact_mod_cast hfull.resolve_right (by omega)
    have hbeyond : beyond ≤ (m : ℚ) * 2 ^ q := by
      calc beyond = 2 ^ (1024 : Int) := by rw [beyond]
        _ ≤ 2 ^ (q + (52 : Nat)) := zpow_le_zpow_right₀ (by norm_num) (by push_cast; omega)
        _ = 2 ^ 52 * 2 ^ q := two_zpow_add 52 q
        _ ≤ m * 2 ^ q := mul_le_mul_of_nonneg_right hm' (two_zpow_pos q).le
    obtain ⟨hproper, hvalue⟩ := packs_infinity s
    rw [min_eq_right hbeyond]
    exact ⟨by rwa [pack_overflow hlarge hm], by rwa [pack_overflow hlarge hm]⟩
  · have hc : Canonical m q := ⟨hm, hlt, hq, by omega, hfull⟩
    rw [min_eq_left hc.lt_beyond.le]
    exact packs_canonical hc s

/-- Once at its last place, a mantissa is moved only where rounding has made it too long. -/
theorem packs_rounded (hn : n ≤ 2 ^ 53) (ht : -1074 ≤ t) (hfull : 2 ^ 52 ≤ n ∨ t = -1074)
    {em : ExtendedMantissa} (hround : em.roundedMantissa = n)
    (hshift : shiftToTargetExponent Format.binary64 a e acc = (em, t)) :
    Packs (roundWithAccuracy Format.binary64 s a e acc) (withSign s (min (n * 2 ^ t) beyond)) := by
  rcases hn.eq_or_lt with rfl | hlt
  · have hcarry : shiftToTargetExponent Format.binary64 (2 ^ 53) t .exact =
        (⟨2 ^ 52, false, false⟩, t + 1) := by
      have h := shift_overflow (show -1074 < t + 1 by omega)
      rwa [add_sub_cancel_right] at h
    have hvalue : ((2 ^ 53 : Nat) : ℚ) * 2 ^ t = ((2 ^ 52 : Nat) : ℚ) * 2 ^ (t + 1) := by
      rw [zpow_add_one₀ (by norm_num)]
      push_cast
      ring
    simp only [roundWithAccuracy, hshift, hround, hcarry]
    rw [dif_neg (by decide), hvalue]
    exact packs_finite (by decide) (by decide) (by omega) (.inl (le_refl _))
  · have hkeep : shiftToTargetExponent Format.binary64 n t .exact = (⟨n, false, false⟩, t) := by
      apply shift_exact
      rw [targetOf_eq]
      rcases hfull with hfull | rfl
      · have hpos : n ≠ 0 := by omega
        have hlog : n.log2 = 52 := (Nat.log2_eq_iff hpos).mpr ⟨hfull, hlt⟩
        omega
      · have hlog : n.log2 ≤ 52 := by
          rcases Nat.eq_zero_or_pos n with rfl | hpos
          · simp
          · exact Nat.lt_succ_iff.mp ((Nat.log2_lt (by omega)).mpr hlt)
        omega
    simp only [roundWithAccuracy, hshift, hround, hkeep]
    split
    · next hzero =>
      obtain rfl : n = 0 := hzero
      rw [Nat.cast_zero, zero_mul, min_eq_left beyond_pos.le, withSign_zero]
      exact packs_zero s
    · next hpos => exact packs_finite (Nat.pos_of_ne_zero hpos) hlt ht hfull

/-- Rounding with enough bits gives the nearest number. -/
theorem packs_roundWithAccuracy (hv : 0 < v)
    (hd : Describes (ExtendedMantissa.ofMantissaAndAccuracy a acc) (v / 2 ^ e))
    (ha : 52 ≤ a.log2 ∨ e ≤ -1074) :
    Packs (roundWithAccuracy Format.binary64 s a e acc) (nearestValue (withSign s v)) := by
  obtain ⟨⟨het, hleast, hlt, hge⟩, hem⟩ := hd.shiftToTarget ha
  have hlast : lastPlace v = targetOf a e := lastPlace_eq hleast hlt hge hv
  have hround := hem.roundedMantissa
  have hvalue : withSign s (min (((ExtendedMantissa.ofMantissaAndAccuracy a acc >>>
      (targetOf a e - e).toNat).roundedMantissa : ℚ) * 2 ^ targetOf a e) beyond) =
      nearestValue (withSign s v) := by
    rw [nearestValue_withSign hv.le, rounded, hlast, ← hround, Int.cast_natCast]
  have hupper := halfEven_place_le hv
  rw [hlast, ← hround] at hupper
  rw [← hvalue]
  refine packs_rounded (by exact_mod_cast hupper) hleast ?_ rfl (shiftToTargetExponent_eq het)
  by_cases hmin : targetOf a e = -1074
  · exact .inr hmin
  · left
    have hlower := le_halfEven_place hv (by rwa [hlast])
    rw [hlast, ← hround] at hlower
    exact_mod_cast hlower

/-- A whole mantissa at any exponent is rounded to the nearest number. -/
theorem packs_round (hm : 0 < m) :
    Packs (UnpackedFloat.round Format.binary64 s m e) (nearestValue (withSign s (m * 2 ^ e))) := by
  have hcast : (0 : ℚ) < m := by exact_mod_cast hm
  let k := (e - targetOf m e).toNat
  change Packs (roundWithAccuracy Format.binary64 s (m <<< k) (e - k) .exact) _
  have htarget := targetOf_eq m e
  have hvalue : (m : ℚ) * 2 ^ e / 2 ^ (e - k) = (m <<< k : Nat) := by
    rw [div_eq_iff (two_zpow_pos _).ne', Nat.shiftLeft_eq]
    push_cast
    rw [mul_assoc, ← two_zpow_add, sub_add_cancel]
  refine packs_roundWithAccuracy (mul_pos hcast (two_zpow_pos e)) ?_ ?_
  · rw [hvalue]
    exact describes_exact _
  · by_cases hleast : e - k ≤ -1074
    · exact .inr hleast
    · left
      have hlog : 52 ≤ m.log2 + k := by omega
      have hle : 2 ^ 52 ≤ m <<< k := by
        rw [Nat.shiftLeft_eq]
        calc 2 ^ 52 ≤ 2 ^ (m.log2 + k) := Nat.pow_le_pow_right (by decide) hlog
          _ = 2 ^ m.log2 * 2 ^ k := Nat.pow_add 2 _ _
          _ ≤ m * 2 ^ k := Nat.mul_le_mul_right _ (Nat.log2_self_le hm.ne')
      exact (Nat.le_log2 (by omega)).mpr hle

theorem packs_normalize (k : Int) (e : Int) :
    Packs (UnpackedFloat.normalize Format.binary64 k e .positive) (nearestValue (k * 2 ^ e)) := by
  rcases lt_trichotomy k 0 with h | rfl | h
  · obtain ⟨m, rfl⟩ : ∃ m : Nat, k = -(m : Int) := ⟨k.natAbs, by omega⟩
    have hround : UnpackedFloat.normalize Format.binary64 (-(m : Int)) e .positive =
        UnpackedFloat.round Format.binary64 .negative m e := by
      rw [UnpackedFloat.normalize, Int.compare_eq_lt.mpr h, neg_neg]
      rfl
    have hvalue : ((-(m : Int) : Int) : ℚ) * 2 ^ e = withSign .negative (m * 2 ^ e) := by
      push_cast
      exact neg_mul _ _
    rw [hround, hvalue]
    exact packs_round (by omega)
  · rw [Int.cast_zero, zero_mul, ← withSign_zero .positive, nearestValue_withSign (le_refl 0),
      rounded_zero, min_eq_left beyond_pos.le]
    exact packs_zero .positive
  · obtain ⟨m, rfl⟩ := Int.eq_ofNat_of_zero_le h.le
    have hround : UnpackedFloat.normalize Format.binary64 (m : Int) e .positive =
        UnpackedFloat.round Format.binary64 .positive m e := by
      rw [UnpackedFloat.normalize, Int.compare_eq_gt.mpr h]
      rfl
    rw [hround, Int.cast_natCast]
    exact packs_round (by omega)

theorem withSign_mul (s t : Sign) (v w : ℚ) : withSign (s * t) (v * w) = withSign s v * withSign t w := by
  cases s <;> cases t
  · exact (neg_mul_neg v w).symm
  · exact (neg_mul v w).symm
  · exact (mul_neg v w).symm
  · rfl

theorem withSign_div (s t : Sign) (v w : ℚ) : withSign (s / t) (v / w) = withSign s v / withSign t w := by
  cases s <;> cases t
  · exact (neg_div_neg_eq v w).symm
  · exact (neg_div w v).symm
  · exact (div_neg v).symm
  · rfl

theorem withSign_neg (s : Sign) (v : ℚ) : withSign (-s) v = -withSign s v := by
  cases s
  · exact (neg_neg v).symm
  · rfl

theorem cast_apply (s : Sign) (n : Nat) : ((s.apply n : Int) : ℚ) = withSign s n := by
  cases s
  · exact Int.cast_neg _
  · rfl

theorem withSign_scaled (s : Sign) (v w : ℚ) : withSign s (v * w) = withSign s v * w := by
  cases s
  · exact (neg_mul v w).symm
  · rfl

/-- A number with this value. -/
structure HasValue (x : Float) (v : ℚ) : Prop where
  number : x.isNaN = false
  value : value x = v

theorem Proper.isNaN_eq (h : Proper u) : u.isNaN = false := by
  cases h with
  | infinity s => rfl
  | zero s => rfl
  | finite s hc => rfl

theorem HasValue.of_packs (hz : z.toModel.unpack = (Float.Model.pack u).unpack) (h : Packs u v) :
    HasValue z v := by
  constructor
  · change z.toModel.unpack.isNaN = false
    rw [hz]
    exact h.proper.isNaN_eq
  · rw [Binary.value, hz]
    exact h.value

/-- A finite number is a zero or canonical. -/
inductive Finite : UnpackedFloat → Prop
  | zero (s : Sign) : Finite (.zero s)
  | finite {m : Nat} {q : Int} (s : Sign) (hc : Canonical m q) : Finite (.finite s m q hc.pos)

theorem finite_unpack (hx : x.isFinite = true) : Finite x.toModel.unpack := by
  rcases unpack_cases hx with ⟨s, hs, -⟩ | ⟨s, m, q, hc, hs, -⟩
  · rw [hs]
    exact .zero s
  · rw [hs]
    exact .finite s hc

theorem Finite.nearestValue_eq (hu : Finite u) : nearestValue (valueOf u) = valueOf u := by
  cases hu with
  | zero s =>
    have h := nearestValue_exact (show 0 < 2 ^ 53 by decide) (show -1074 ≤ 0 by decide) (by decide) s
    rwa [Nat.cast_zero, zero_mul, withSign_zero] at h
  | finite s hc => exact nearestValue_exact hc.lt hc.least hc.greatest s

theorem nearestValue_zero : nearestValue 0 = 0 := Finite.nearestValue_eq (.zero .positive)

theorem Finite.proper (hu : Finite u) : Proper u := by
  cases hu with
  | zero s => exact .zero s
  | finite s hc => exact .finite s hc

theorem Proper.packs (hu : Proper u) : Packs u (valueOf u) := by
  cases hu with
  | infinity s => exact packs_infinity s
  | zero s => exact packs_zero s
  | finite s hc => exact packs_canonical hc s

theorem Finite.packs (hu : Finite u) : Packs u (nearestValue (valueOf u)) := by
  rw [hu.nearestValue_eq]
  exact hu.proper.packs

theorem decreaseExponent_value (m : Nat) (h : t ≤ e) :
    ((decreaseExponent m e t).1 : ℚ) * 2 ^ t = m * 2 ^ e := by
  have he : e = t + ((e - t).toNat : Int) := by omega
  have hfirst : (decreaseExponent m e t).1 = m <<< (e - t).toNat := rfl
  rw [hfirst, Nat.shiftLeft_eq]
  push_cast
  rw [mul_assoc, ← two_zpow_add, ← he]

/-- Two finite mantissas at the smaller exponent add up to the exact sum. -/
theorem aligned_value (s₁ s₂ : Sign) (m₁ m₂ : Nat) (e₁ e₂ : Int) :
    ((s₁.apply (decreaseExponent m₁ e₁ (min e₁ e₂)).1 + s₂.apply (decreaseExponent m₂ e₂ (min e₁ e₂)).1 :
      Int) : ℚ) * 2 ^ min e₁ e₂ = withSign s₁ (m₁ * 2 ^ e₁) + withSign s₂ (m₂ * 2 ^ e₂) := by
  rw [Int.cast_add, cast_apply, cast_apply, add_mul, ← withSign_scaled, ← withSign_scaled,
    decreaseExponent_value m₁ (min_le_left _ _), decreaseExponent_value m₂ (min_le_right _ _)]

theorem Finite.packs_add {a b : UnpackedFloat} (ha : Finite a) (hb : Finite b) :
    Packs (UnpackedFloat.add Format.binary64 a b) (nearestValue (valueOf a + valueOf b)) := by
  cases ha with
  | zero s =>
    cases hb with
    | zero t =>
      simp only [valueOf, add_zero, nearestValue_zero, UnpackedFloat.add]
      split
      · exact packs_zero s
      · exact packs_zero .positive
    | finite t hd =>
      have h := (Finite.finite t hd).packs
      rwa [← zero_add (valueOf _)] at h
  | finite s hc =>
    cases hb with
    | zero t =>
      have h := (Finite.finite s hc).packs
      rwa [← add_zero (valueOf _)] at h
    | finite t hd =>
      rw [valueOf, valueOf, ← aligned_value]
      exact packs_normalize _ _

theorem apply_neg (s : Sign) (n : Int) : (-s).apply n = -s.apply n := by
  cases s
  · exact (neg_neg n).symm
  · rfl

theorem Finite.neg {b : UnpackedFloat} (hb : Finite b) : Finite b.neg := by
  cases hb with
  | zero s => exact .zero (-s)
  | finite s hc => exact .finite (-s) hc

theorem Proper.neg {b : UnpackedFloat} (hb : Proper b) : Proper b.neg := by
  cases hb with
  | infinity s => exact .infinity (-s)
  | zero s => exact .zero (-s)
  | finite s hc => exact .finite (-s) hc

theorem valueOf_neg (u : UnpackedFloat) : valueOf u.neg = -valueOf u := by
  cases u with
  | infinity s => exact withSign_neg s beyond
  | notANumber => exact neg_eq_zero.mpr rfl |>.symm
  | zero s => exact neg_eq_zero.mpr rfl |>.symm
  | finite s m q hm => exact withSign_neg s _

theorem Proper.abs {b : UnpackedFloat} (hb : Proper b) : Proper b.abs := by
  cases hb with
  | infinity s => exact .infinity .positive
  | zero s => exact .zero .positive
  | finite s hc => exact .finite .positive hc

theorem abs_withSign (s : Sign) (hv : 0 ≤ v) : |withSign s v| = v := by
  cases s
  · exact (abs_neg v).trans (abs_of_nonneg hv)
  · exact abs_of_nonneg hv

theorem valueOf_abs (u : UnpackedFloat) : valueOf u.abs = |valueOf u| := by
  cases u with
  | infinity s => exact (abs_withSign s beyond_pos.le).symm
  | notANumber => exact abs_zero.symm
  | zero s => exact abs_zero.symm
  | finite s m q hm =>
    exact (abs_withSign s (mul_nonneg (Nat.cast_nonneg m) (two_zpow_pos q).le)).symm

/-- A difference is the sum with the opposite. -/
theorem Finite.sub_eq {a b : UnpackedFloat} (ha : Finite a) (hb : Finite b) :
    UnpackedFloat.sub Format.binary64 a b = UnpackedFloat.add Format.binary64 a b.neg := by
  cases ha with
  | zero s =>
    cases hb with
    | zero t => rfl
    | finite t hd => rfl
  | finite s hc =>
    cases hb with
    | zero t => rfl
    | finite t hd => simp only [UnpackedFloat.sub, UnpackedFloat.add, UnpackedFloat.neg, apply_neg, sub_eq_add_neg]

theorem Finite.packs_mul {a b : UnpackedFloat} (ha : Finite a) (hb : Finite b) :
    Packs (UnpackedFloat.mul Format.binary64 a b) (nearestValue (valueOf a * valueOf b)) := by
  cases ha with
  | zero s =>
    rw [valueOf, zero_mul, nearestValue_zero]
    cases hb with
    | zero t => exact packs_zero (s * t)
    | finite t hd => exact packs_zero (s * t)
  | @finite m q s hc =>
    cases hb with
    | zero t =>
      rw [show valueOf (.zero t) = 0 from rfl, mul_zero, nearestValue_zero]
      exact packs_zero (s * t)
    | @finite n r t hd =>
      have hvalue : (m : ℚ) * 2 ^ q * (n * 2 ^ r) / 2 ^ (q + r) = (m * n : Nat) := by
        rw [div_eq_iff (two_zpow_pos _).ne', zpow_add₀ (by norm_num)]
        push_cast
        ring
      rw [valueOf, valueOf, ← withSign_mul]
      refine packs_roundWithAccuracy (mul_pos hc.value_pos hd.value_pos) ?_ ?_
      · rw [hvalue]
        exact describes_exact _
      · by_cases hleast : q + r ≤ -1074
        · exact .inr hleast
        · left
          have hm := hc.pos
          have hn := hd.pos
          have hle : 2 ^ 52 ≤ m * n := by
            rcases hc.full with hfull | rfl
            · exact Nat.le_trans hfull (Nat.le_mul_of_pos_right _ hn)
            · have hfull : 2 ^ 52 ≤ n := hd.full.resolve_right (by omega)
              exact Nat.le_trans hfull (Nat.le_mul_of_pos_left _ hm)
          exact (Nat.le_log2 (Nat.mul_pos hm hn).ne').mpr hle

theorem Finite.packs_div {a b : UnpackedFloat} (ha : Finite a) (hb : Finite b) (h0 : valueOf b ≠ 0) :
    Packs (UnpackedFloat.div Format.binary64 a b) (nearestValue (valueOf a / valueOf b)) := by
  cases hb with
  | zero t => exact absurd rfl h0
  | @finite n r t hd =>
    cases ha with
    | zero s =>
      rw [show valueOf (.zero s) = 0 from rfl, zero_div, nearestValue_zero]
      exact packs_zero (s / t)
    | @finite m q s hc =>
      obtain ⟨k, e, acc, hcore, hdescribes, hlog⟩ := divCore_spec q r hc.pos hd.pos
      rw [valueOf, valueOf, ← withSign_div]
      simp only [UnpackedFloat.div, hcore]
      exact packs_roundWithAccuracy (div_pos hc.value_pos hd.value_pos) hdescribes hlog

variable (hx : x.isFinite = true) (hy : y.isFinite = true)

include hx in
theorem nearestValue_value : nearestValue (value x) = value x := (finite_unpack hx).nearestValue_eq

include hx hy in
theorem hasValue_add : HasValue (x + y) (nearestValue (value x + value y)) :=
  .of_packs rfl ((finite_unpack hx).packs_add (finite_unpack hy))

include hx hy in
theorem hasValue_sub : HasValue (x - y) (nearestValue (value x - value y)) := by
  have hpacks := (finite_unpack hx).packs_add (finite_unpack hy).neg
  rw [valueOf_neg, ← sub_eq_add_neg, ← (finite_unpack hx).sub_eq (finite_unpack hy)] at hpacks
  exact .of_packs rfl hpacks

include hx hy in
theorem hasValue_mul : HasValue (x * y) (nearestValue (value x * value y)) :=
  .of_packs rfl ((finite_unpack hx).packs_mul (finite_unpack hy))

include hx hy in
theorem hasValue_div (h0 : value y ≠ 0) : HasValue (x / y) (nearestValue (value x / value y)) :=
  .of_packs rfl ((finite_unpack hx).packs_div (finite_unpack hy) h0)

theorem hasValue_neg (hx : x.isNaN = false) : HasValue (-x) (-value x) := by
  have hpacks := (proper_unpack hx).neg.packs
  rw [valueOf_neg] at hpacks
  exact .of_packs (neg_unpack x) hpacks

theorem hasValue_abs (hx : x.isNaN = false) : HasValue x.abs |value x| := by
  have hpacks := (proper_unpack hx).abs.packs
  rw [valueOf_abs] at hpacks
  exact .of_packs rfl hpacks

theorem Proper.value_bounds (h : Proper u) : -beyond ≤ valueOf u ∧ valueOf u ≤ beyond := by
  have hbeyond := beyond_pos
  cases h with
  | infinity s => cases s <;> simp only [valueOf, withSign] <;> constructor <;> linarith
  | zero s => exact ⟨by simp only [valueOf]; linarith, hbeyond.le⟩
  | finite s hc =>
    have hpos := hc.value_pos
    have hlt := hc.lt_beyond
    cases s <;> simp only [valueOf, withSign] <;> constructor <;> linarith

theorem Proper.isFinite_iff (h : Proper u) :
    u.isFinite = true ↔ -beyond < valueOf u ∧ valueOf u < beyond := by
  have hbeyond := beyond_pos
  cases h with
  | infinity s => cases s <;> simp [valueOf, withSign, UnpackedFloat.isFinite]
  | zero s => simpa [valueOf, UnpackedFloat.isFinite] using hbeyond
  | finite s hc =>
    have hpos := hc.value_pos
    have hlt := hc.lt_beyond
    refine iff_of_true rfl ?_
    cases s <;> simp only [valueOf, withSign] <;> constructor <;> linarith

theorem value_bounds (hx : x.isNaN = false) : -beyond ≤ value x ∧ value x ≤ beyond :=
  (proper_unpack hx).value_bounds

theorem isFinite_iff (hx : x.isNaN = false) :
    x.isFinite = true ↔ -beyond < value x ∧ value x < beyond :=
  (proper_unpack hx).isFinite_iff

theorem unpack_infinite (hx : x.isNaN = false) (hinf : x.isFinite = false) :
    ∃ s, x.toModel.unpack = .infinity s := by
  have hproper := proper_unpack hx
  change x.toModel.unpack.isFinite = false at hinf
  generalize x.toModel.unpack = u at hproper hinf
  cases hproper with
  | infinity s => exact ⟨s, rfl⟩
  | zero s => cases hinf
  | finite s hc => cases hinf

/-- A finite number above zero has the positive sign. -/
theorem Finite.eq_positive (hu : Finite u) (hpos : 0 < valueOf u) :
    ∃ m q, ∃ hm : 0 < m, u = .finite .positive m q hm := by
  cases hu with
  | zero s => exact absurd hpos (lt_irrefl 0)
  | finite s hc =>
    cases s with
    | positive => exact ⟨_, _, _, rfl⟩
    | negative =>
      have hvalue := hc.value_pos
      simp only [valueOf, withSign] at hpos
      linarith

theorem value_infinite (hx : x.isNaN = false) (hinf : x.isFinite = false) :
    value x = beyond ∨ value x = -beyond := by
  obtain ⟨s, hs⟩ := unpack_infinite hx hinf
  have hvalue : value x = withSign s beyond := by rw [value, hs]; rfl
  cases s with
  | positive => exact .inl hvalue
  | negative => exact .inr hvalue

theorem isFinite_of_beyond (hx : x.isNaN = false) (h : value x = beyond) : x.isFinite = false := by
  rw [← Bool.not_eq_true, isFinite_iff hx, h]
  rintro ⟨-, hless⟩
  exact lt_irrefl _ hless

/-- Adding a finite number and scaling by a positive one keep an infinity. -/
theorem hasValue_infinite (hx : x.isNaN = false) (hinf : x.isFinite = false) (hy : y.isFinite = true) :
    HasValue (x + y) (value x) ∧ HasValue (y + x) (value x) ∧
      (0 < value y → HasValue (x * y) (value x) ∧ HasValue (y * x) (value x) ∧
        HasValue (x / y) (value x)) := by
  obtain ⟨s, hs⟩ := unpack_infinite hx hinf
  have hvalue : value x = withSign s beyond := by rw [value, hs]; rfl
  have hresult : ∀ {z : Float} {u : UnpackedFloat}, z.toModel.unpack = (Float.Model.pack u).unpack →
      u = .infinity s → HasValue z (value x) := by
    rintro z u hz rfl
    exact .of_packs hz (hvalue ▸ packs_infinity s)
  have hadd : UnpackedFloat.add Format.binary64 x.toModel.unpack y.toModel.unpack = .infinity s ∧
      UnpackedFloat.add Format.binary64 y.toModel.unpack x.toModel.unpack = .infinity s := by
    rw [hs]
    have hu := finite_unpack hy
    generalize y.toModel.unpack = u at hu
    cases hu with
    | zero t => exact ⟨rfl, rfl⟩
    | finite t hd => exact ⟨rfl, rfl⟩
  refine ⟨hresult (add_unpack x y) hadd.1, hresult (add_unpack y x) hadd.2, ?_⟩
  intro hpos
  obtain ⟨m, q, hm, hu⟩ := (finite_unpack hy).eq_positive hpos
  refine ⟨hresult rfl ?_, hresult rfl ?_, hresult rfl ?_⟩
  all_goals
    rw [hs, hu]
    cases s <;> rfl

/-- A sum of numbers is a number if one of them is finite. -/
theorem isNaN_add (hx : x.isNaN = false) (hy : y.isFinite = true) :
    (x + y).isNaN = false ∧ (y + x).isNaN = false := by
  cases hfinite : x.isFinite with
  | true => exact ⟨(hasValue_add hfinite hy).number, (hasValue_add hy hfinite).number⟩
  | false =>
    obtain ⟨hleft, hright, -⟩ := hasValue_infinite hx hfinite hy
    exact ⟨hleft.number, hright.number⟩

/-- A finite number changes no infinity that it is taken from, nor one that is taken from it. -/
theorem hasValue_sub_infinite (hx : x.isNaN = false) (hinf : x.isFinite = false) (hy : y.isFinite = true) :
    HasValue (x - y) (value x) ∧ HasValue (y - x) (-value x) := by
  obtain ⟨s, hs⟩ := unpack_infinite hx hinf
  have hvalue : value x = withSign s beyond := by rw [value, hs]; rfl
  have hsub : UnpackedFloat.sub Format.binary64 x.toModel.unpack y.toModel.unpack = .infinity s ∧
      UnpackedFloat.sub Format.binary64 y.toModel.unpack x.toModel.unpack = .infinity (-s) := by
    rw [hs]
    have hu := finite_unpack hy
    generalize y.toModel.unpack = u at hu
    cases hu with
    | zero t => exact ⟨rfl, rfl⟩
    | finite t hd => exact ⟨rfl, rfl⟩
  rw [hvalue, ← withSign_neg]
  exact ⟨.of_packs rfl (hsub.1 ▸ packs_infinity s), .of_packs rfl (hsub.2 ▸ packs_infinity (-s))⟩

theorem isNaN_sub (hx : x.isNaN = false) (hy : y.isFinite = true) :
    (x - y).isNaN = false ∧ (y - x).isNaN = false := by
  cases hfinite : x.isFinite with
  | true => exact ⟨(hasValue_sub hfinite hy).number, (hasValue_sub hy hfinite).number⟩
  | false =>
    obtain ⟨hleft, hright⟩ := hasValue_sub_infinite hx hfinite hy
    exact ⟨hleft.number, hright.number⟩

/-- A number scaled by a positive finite one is a number. -/
theorem isNaN_scaled (hx : x.isNaN = false) (hy : y.isFinite = true) (hpos : 0 < value y) :
    (x * y).isNaN = false ∧ (y * x).isNaN = false ∧ (x / y).isNaN = false := by
  cases hfinite : x.isFinite with
  | true =>
    exact ⟨(hasValue_mul hfinite hy).number, (hasValue_mul hy hfinite).number,
      (hasValue_div hfinite hy hpos.ne').number⟩
  | false =>
    obtain ⟨-, -, hscaled⟩ := hasValue_infinite hx hfinite hy
    obtain ⟨hmul, hmul', hdiv⟩ := hscaled hpos
    exact ⟨hmul.number, hmul'.number, hdiv.number⟩

theorem div_mono (hx : x.isNaN = false) (hy : y.isNaN = false) (hz : z.isFinite = true)
    (hpos : 0 < value z) (h : x ≤ y) : x / z ≤ y / z := by
  have hx' := (isNaN_scaled hx hz hpos).2.2
  have hy' := (isNaN_scaled hy hz hpos).2.2
  have hle := (le_iff_value hx hy).mp h
  obtain ⟨hlow, -⟩ := value_bounds hx'
  obtain ⟨-, hhigh⟩ := value_bounds hy'
  obtain ⟨-, hxbound⟩ := value_bounds hx'
  obtain ⟨hybound, -⟩ := value_bounds hy'
  rw [le_iff_value hx' hy']
  cases hxf : x.isFinite with
  | true =>
    cases hyf : y.isFinite with
    | true =>
      rw [(hasValue_div hxf hz hpos.ne').value, (hasValue_div hyf hz hpos.ne').value]
      exact nearestValue_mono (div_le_div_of_nonneg_right hle hpos.le)
    | false =>
      have hkeep := ((hasValue_infinite hy hyf hz).2.2 hpos).2.2.value
      have hbelow := ((isFinite_iff hx).mp hxf).1
      rcases value_infinite hy hyf with hvalue | hvalue
      · rwa [hkeep, hvalue]
      · linarith
  | false =>
    have hkeep := ((hasValue_infinite hx hxf hz).2.2 hpos).2.2.value
    rcases value_infinite hx hxf with hvalue | hvalue
    · have hyf : y.isFinite = false := by
        rw [← Bool.not_eq_true, isFinite_iff hy]
        rintro ⟨-, hless⟩
        linarith
      have hkeep' := ((hasValue_infinite hy hyf hz).2.2 hpos).2.2.value
      rwa [hkeep, hkeep']
    · rwa [hkeep, hvalue]

end SignalEvolution.Binary

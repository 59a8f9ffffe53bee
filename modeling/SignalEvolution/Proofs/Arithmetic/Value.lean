import SignalEvolution.Proofs.Arithmetic.Equality

/-! # The values of numbers

Every number but NaN stands for a rational number, an infinity for the power of two that no
finite number reaches. Numbers compare as their values do.
-/
namespace SignalEvolution.Binary
open Float.Model Float.Model.UnpackedFloat

variable {m n : Nat} {q r : Int} {s : Sign} {v w : ℚ} {x y z : Float} {a b : UnpackedFloat}

def withSign : Sign → ℚ → ℚ
  | .positive, v => v
  | .negative, v => -v

/-- What the infinities stand for. -/
@[irreducible] def beyond : ℚ := 2 ^ (1024 : Int)

/-- Value of an unpacked number; a NaN has none. -/
def valueOf : UnpackedFloat → ℚ
  | .infinity s => withSign s beyond
  | .notANumber => 0
  | .zero _ => 0
  | .finite s m q _ => withSign s (m * 2 ^ q)

def value (x : Float) : ℚ := valueOf x.toModel.unpack

@[simp] theorem withSign_zero (s : Sign) : withSign s 0 = 0 := by
  cases s with
  | positive => rfl
  | negative => exact neg_eq_zero.mpr rfl

theorem beyond_pos : 0 < beyond := by
  rw [beyond]
  exact two_zpow_pos 1024

theorem Canonical.value_pos (hc : Canonical m q) : 0 < (m : ℚ) * 2 ^ q :=
  mul_pos (by exact_mod_cast hc.pos) (two_zpow_pos q)

theorem Canonical.lt_two_zpow (hc : Canonical m q) : (m : ℚ) * 2 ^ q < 2 ^ (q + 53) := by
  have hexp : q + 53 = q + (53 : Nat) := rfl
  have hm : (m : ℚ) < 2 ^ 53 := by exact_mod_cast hc.lt
  rw [hexp, two_zpow_add]
  exact mul_lt_mul_of_pos_right hm (two_zpow_pos q)

theorem Canonical.lt_beyond (hc : Canonical m q) : (m : ℚ) * 2 ^ q < beyond := by
  have hgreatest := hc.greatest
  rw [beyond]
  exact lt_of_lt_of_le hc.lt_two_zpow (zpow_le_zpow_right₀ (by norm_num) (by omega))

/-- An infinity, a zero, or a canonical number. -/
inductive Proper : UnpackedFloat → Prop
  | infinity (s : Sign) : Proper (.infinity s)
  | zero (s : Sign) : Proper (.zero s)
  | finite {m : Nat} {q : Int} (s : Sign) (hc : Canonical m q) : Proper (.finite s m q hc.pos)

theorem proper_unpack (hx : x.isNaN = false) : Proper x.toModel.unpack := by
  cases hfinite : x.isFinite with
  | true =>
    rcases unpack_cases hfinite with ⟨s, hs, -⟩ | ⟨s, m, q, hc, hs, -⟩
    · rw [hs]
      exact .zero s
    · rw [hs]
      exact .finite s hc
  | false =>
    rcases eq_infinity hfinite hx with rfl | rfl
    · exact .infinity .positive
    · exact .infinity .negative

theorem compare_canonical_lt (hc : Canonical m q) (hd : Canonical n r) (h : q < r) :
    (m : ℚ) * 2 ^ q < n * 2 ^ r := by
  have hleast := hc.least
  have hfull : 2 ^ 52 ≤ n := hd.full.resolve_right (by omega)
  have hn : (2 : ℚ) ^ 52 ≤ n := by exact_mod_cast hfull
  calc (m : ℚ) * 2 ^ q < 2 ^ (q + 53) := hc.lt_two_zpow
    _ ≤ 2 ^ (r + (52 : Nat)) := zpow_le_zpow_right₀ (by norm_num) (by push_cast; omega)
    _ = 2 ^ 52 * 2 ^ r := two_zpow_add 52 r
    _ ≤ n * 2 ^ r := mul_le_mul_of_nonneg_right hn (two_zpow_pos r).le

/-- Canonical numbers compare by their exponents first. -/
theorem compare_canonical (hc : Canonical m q) (hd : Canonical n r) :
    (compare q r).then (compare m n) = compare ((m : ℚ) * 2 ^ q) (n * 2 ^ r) := by
  rcases lt_trichotomy q r with h | rfl | h
  · rw [compare_lt_iff_lt.mpr h, compare_lt_iff_lt.mpr (compare_canonical_lt hc hd h)]
    rfl
  · have hq := two_zpow_pos q
    rw [compare_eq_iff_eq.mpr rfl]
    change compare m n = _
    rcases lt_trichotomy m n with hmn | rfl | hmn
    · have hcast : (m : ℚ) < n := by exact_mod_cast hmn
      rw [compare_lt_iff_lt.mpr hmn, compare_lt_iff_lt.mpr (mul_lt_mul_of_pos_right hcast hq)]
    · rw [compare_eq_iff_eq.mpr rfl, compare_eq_iff_eq.mpr rfl]
    · have hcast : (n : ℚ) < m := by exact_mod_cast hmn
      rw [compare_gt_iff_gt.mpr hmn, compare_gt_iff_gt.mpr (mul_lt_mul_of_pos_right hcast hq)]
  · rw [compare_gt_iff_gt.mpr h, compare_gt_iff_gt.mpr (compare_canonical_lt hd hc h)]
    rfl

theorem compare_neg (v w : ℚ) : compare (-v) (-w) = (compare v w).swap := by
  rcases lt_trichotomy v w with h | rfl | h
  · rw [compare_lt_iff_lt.mpr h, compare_gt_iff_gt.mpr (neg_lt_neg h)]
    rfl
  · rw [compare_eq_iff_eq.mpr rfl, compare_eq_iff_eq.mpr rfl]
    rfl
  · rw [compare_gt_iff_gt.mpr h, compare_lt_iff_lt.mpr (neg_lt_neg h)]
    rfl

/-- Numbers compare as their values do. -/
theorem compare_eq (ha : Proper a) (hb : Proper b) :
    UnpackedFloat.compare a b = some (compare (valueOf a) (valueOf b)) := by
  have hbeyond := beyond_pos
  have hlt : ∀ {v w : ℚ}, v < w → some Ordering.lt = some (compare v w) :=
    fun h => congrArg some (compare_lt_iff_lt.mpr h).symm
  have heq : ∀ {v : ℚ}, some Ordering.eq = some (compare v v) :=
    congrArg some (compare_eq_iff_eq.mpr rfl).symm
  have hgt : ∀ {v w : ℚ}, w < v → some Ordering.gt = some (compare v w) :=
    fun h => congrArg some (compare_gt_iff_gt.mpr h).symm
  cases ha with
  | infinity s =>
    cases hb with
    | infinity t =>
      cases s <;> cases t
      · exact heq
      · exact hlt (neg_lt_self hbeyond)
      · exact hgt (neg_lt_self hbeyond)
      · exact heq
    | zero t =>
      cases s
      · exact hlt (neg_neg_of_pos hbeyond)
      · exact hgt hbeyond
    | finite t hd =>
      have hpos := hd.value_pos
      have hless := hd.lt_beyond
      cases s <;> cases t <;> simp only [valueOf, withSign]
      · exact hlt (by linarith)
      · exact hlt (by linarith)
      · exact hgt (by linarith)
      · exact hgt (by linarith)
  | zero s =>
    cases hb with
    | infinity t =>
      cases t
      · exact hgt (neg_neg_of_pos hbeyond)
      · exact hlt hbeyond
    | zero t => exact heq
    | finite t hd =>
      cases t
      · exact hgt (neg_neg_of_pos hd.value_pos)
      · exact hlt hd.value_pos
  | finite s hc =>
    have hpos := hc.value_pos
    have hless := hc.lt_beyond
    cases hb with
    | infinity t =>
      cases s <;> cases t <;> simp only [valueOf, withSign]
      · exact hgt (by linarith)
      · exact hlt (by linarith)
      · exact hgt (by linarith)
      · exact hlt (by linarith)
    | zero t =>
      cases s
      · exact hlt (neg_neg_of_pos hpos)
      · exact hgt hpos
    | finite t hd =>
      have hpos' := hd.value_pos
      cases s <;> cases t <;> simp only [valueOf, withSign]
      · rw [compare_neg, ← compare_canonical hc hd]
        rfl
      · exact hlt (by linarith)
      · exact hgt (by linarith)
      · rw [← compare_canonical hc hd]
        rfl

theorem le_iff_value (hx : x.isNaN = false) (hy : y.isNaN = false) : x ≤ y ↔ value x ≤ value y := by
  rw [le_iff, UnpackedFloat.le, compare_eq (proper_unpack hx) (proper_unpack hy)]
  change (compare (value x) (value y)).isLE = true ↔ _
  rcases lt_trichotomy (value x) (value y) with h | h | h
  · simp [compare_lt_iff_lt.mpr h, h.le]
  · simp [compare_eq_iff_eq.mpr h, h.le]
  · simp [compare_gt_iff_gt.mpr h, h]

theorem lt_iff_value (hx : x.isNaN = false) (hy : y.isNaN = false) : x < y ↔ value x < value y := by
  rw [lt_iff, UnpackedFloat.lt, compare_eq (proper_unpack hx) (proper_unpack hy)]
  change (some (compare (value x) (value y)) == some .lt) = true ↔ _
  simp [compare_lt_iff_lt]

/-- Only numbers compare. -/
theorem number_of_compare {o : Ordering} (h : UnpackedFloat.compare a b = some o) :
    a.isNaN = false ∧ b.isNaN = false := by
  cases a with
  | notANumber => simp [UnpackedFloat.compare] at h
  | infinity s =>
    cases b with
    | notANumber => cases s <;> cases h
    | infinity t | zero t | finite t n r hn => exact ⟨rfl, rfl⟩
  | zero s =>
    cases b with
    | notANumber => cases h
    | infinity t | zero t | finite t n r hn => exact ⟨rfl, rfl⟩
  | finite s m q hm =>
    cases b with
    | notANumber => cases s <;> cases h
    | infinity t | zero t | finite t n r hn => exact ⟨rfl, rfl⟩

theorem numbers_of_lt (h : x < y) : x.isNaN = false ∧ y.isNaN = false := by
  rw [lt_iff] at h
  exact number_of_compare (beq_iff_eq.mp h)

theorem numbers_of_le (h : x ≤ y) : x.isNaN = false ∧ y.isNaN = false := by
  rw [le_iff, UnpackedFloat.le] at h
  cases ho : UnpackedFloat.compare x.toModel.unpack y.toModel.unpack with
  | none =>
    rw [ho] at h
    cases h
  | some o => exact number_of_compare ho

theorem number_le_trans (hxy : x ≤ y) (hyz : y ≤ z) : x ≤ z := by
  obtain ⟨hx, hy⟩ := numbers_of_le hxy
  obtain ⟨-, hz⟩ := numbers_of_le hyz
  rw [le_iff_value hx hy] at hxy
  rw [le_iff_value hy hz] at hyz
  exact (le_iff_value hx hz).mpr (hxy.trans hyz)

theorem number_le_of_lt (h : x < y) : x ≤ y := by
  obtain ⟨hx, hy⟩ := numbers_of_lt h
  exact (le_iff_value hx hy).mpr ((lt_iff_value hx hy).mp h).le

theorem le_self (hx : x.isNaN = false) : x ≤ x := (le_iff_value hx hx).mpr le_rfl

theorem not_lt_iff (hx : x.isNaN = false) (hy : y.isNaN = false) : ¬ x < y ↔ y ≤ x := by
  rw [lt_iff_value hx hy, le_iff_value hy hx, not_lt]

theorem beq_iff_value (hx : x.isNaN = false) (hy : y.isNaN = false) :
    (x == y) = true ↔ value x = value y := by
  rw [beq_eq, beq_iff_eq, compare_eq (proper_unpack hx) (proper_unpack hy)]
  change some (compare (value x) (value y)) = some .eq ↔ _
  simp

/-- A value other than zero belongs to one number. -/
theorem eq_of_value (hx : x.isNaN = false) (hy : y.isNaN = false) (h : value x = value y)
    (hne : value y ≠ 0) : x = y := by
  rcases beq_iff.mp ((beq_iff_value hx hy).mpr h) with ⟨-, s, hs⟩ | ⟨-, heq⟩
  · exact absurd (by rw [value, hs]; rfl) hne
  · exact heq

theorem not_isNaN (hx : x.isNaN = false) : ¬ Scalar.isNaN x = true := by
  simp [Scalar.isNaN, beq_self hx]

theorem max_cases (hx : x.isNaN = false) (hy : y.isNaN = false) :
    Scalar.max x y = y ∧ x ≤ y ∨ Scalar.max x y = x ∧ y ≤ x := by
  rw [Scalar.max, if_neg (not_isNaN hx)]
  by_cases h : x < y
  · exact .inl ⟨if_pos h, number_le_of_lt h⟩
  · exact .inr ⟨if_neg h, (not_lt_iff hx hy).mp h⟩

theorem min_cases (hx : x.isNaN = false) (hy : y.isNaN = false) :
    Scalar.min x y = y ∧ y ≤ x ∨ Scalar.min x y = x ∧ x ≤ y := by
  rw [Scalar.min, if_neg (not_isNaN hx)]
  by_cases h : y < x
  · exact .inl ⟨if_pos h, number_le_of_lt h⟩
  · exact .inr ⟨if_neg h, (not_lt_iff hy hx).mp h⟩

/-- A number is cut to the ends of a range or lies in it. -/
theorem clamp_cases (hx : x.isNaN = false) (hy : y.isNaN = false) (hz : z.isNaN = false) :
    Scalar.clamp x y z = x ∨ Scalar.clamp x y z = y ∨ Scalar.clamp x y z = z ∧ x ≤ z ∧ z ≤ y := by
  rw [Scalar.clamp]
  by_cases hlow : z < x
  · exact .inl (if_pos hlow)
  · rw [if_neg hlow]
    by_cases hhigh : y < z
    · exact .inr (.inl (if_pos hhigh))
    · rw [if_neg hhigh]
      exact .inr (.inr ⟨rfl, (not_lt_iff hz hx).mp hlow, (not_lt_iff hy hz).mp hhigh⟩)

end SignalEvolution.Binary

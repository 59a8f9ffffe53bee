import SignalEvolution.Indicator.Catalogue
import SignalEvolution.Proofs.Random.Numbers
import SignalEvolution.Proofs.Table

/-! # Declared parameters

Every declaration of the catalogue allows its own values. A stored value is rounded and then
clamped into the declared range, so that a reading uses an allowed value, or a NaN where a NaN
is stored.
-/
namespace SignalEvolution

open Binary

namespace ParamSpec

variable {spec : ParamSpec Float} {params : Table Float} {x : Float}

/-- The declaration allows the value. -/
def Admits (spec : ParamSpec Float) (x : Float) : Prop :=
  spec.least ≤ x ∧ x ≤ spec.greatest ∧ (spec.whole = true → isWhole x = true)

instance (spec : ParamSpec Float) (x : Float) : Decidable (spec.Admits x) :=
  inferInstanceAs (Decidable (_ ∧ _ ∧ _))

/-- The declaration allows its own values, which are positive, and random ones are drawn between
moderate ends. -/
structure Sound (spec : ParamSpec Float) : Prop where
  positive : 0 < spec.least
  finite : spec.greatest.isFinite = true
  least : spec.Admits spec.least
  greatest : spec.Admits spec.greatest
  default : spec.Admits spec.default
  low : Draw.Moderate spec.least
  scale : Draw.Moderate (Draw.scaleOf spec.least (Scalar.min (spec.default * 3) spec.greatest))

theorem Sound.between (hs : spec.Sound) (hlow : spec.least ≤ x) (hhigh : x ≤ spec.greatest) :
    x.isFinite = true ∧ 0 < Binary.value x := by
  obtain ⟨hleast, hx⟩ := numbers_of_le hlow
  obtain ⟨-, hgreatest⟩ := numbers_of_le hhigh
  have hpos := (lt_iff_value (numbers_of_lt hs.positive).1 hleast).mp hs.positive
  have hbelow := ((isFinite_iff hgreatest).mp hs.finite).2
  have hbeyond := beyond_pos
  rw [le_iff_value hleast hx] at hlow
  rw [le_iff_value hx hgreatest] at hhigh
  rw [hasValue_zero.value] at hpos
  rw [isFinite_iff hx]
  exact ⟨⟨by linarith, by linarith⟩, by linarith⟩

/-- Rounding comes before clamping, and the ends of a whole range are whole. -/
theorem Sound.normalize (hs : spec.Sound) (hx : x.isNaN = false) : spec.Admits (spec.normalize x) := by
  have hround := hasValue_roundHalfAway hx
  have hnumber : (if spec.whole then roundHalfAway x else x).isNaN = false := by
    split
    · exact hround.number
    · exact hx
  have hleast := (numbers_of_lt hs.positive).2
  have hgreatest := isNaN_of_isFinite hs.finite
  change spec.Admits (Scalar.clamp spec.least spec.greatest (if spec.whole then roundHalfAway x else x))
  rcases clamp_cases hleast hgreatest hnumber with heq | heq | ⟨heq, hlow, hhigh⟩
  · rw [heq]
    exact hs.least
  · rw [heq]
    exact hs.greatest
  · rw [heq]
    refine ⟨hlow, hhigh, ?_⟩
    intro hwhole
    have hfinite := (hs.between hlow hhigh).1
    rw [if_pos hwhole] at hfinite ⊢
    rw [isWhole_iff hfinite, hround.value]
    exact exists_int_round (Binary.value x)

/-- An allowed value stays as it is. -/
theorem Sound.normalize_eq (hs : spec.Sound) (h : spec.Admits x) : spec.normalize x = x := by
  obtain ⟨hlow, hhigh, hwhole⟩ := h
  obtain ⟨hfinite, hpos⟩ := hs.between hlow hhigh
  have hx := isNaN_of_isFinite hfinite
  have hround : (if spec.whole then roundHalfAway x else x) = x := by
    split
    · next hspec =>
      obtain ⟨n, hn⟩ := (isWhole_iff hfinite).mp (hwhole hspec)
      have hvalue := hasValue_roundHalfAway hx
      rw [hn, round_intCast, ← hn] at hvalue
      -- Only the two zeros share a value, and they are out of range.
      exact eq_of_value hvalue.number hx hvalue.value hpos.ne'
    · rfl
  obtain ⟨hleast, -⟩ := numbers_of_le hlow
  obtain ⟨-, hgreatest⟩ := numbers_of_le hhigh
  change Scalar.clamp spec.least spec.greatest (if spec.whole then roundHalfAway x else x) = x
  rw [hround, Scalar.clamp, if_neg ((not_lt_iff hx hleast).mpr hlow),
    if_neg ((not_lt_iff hgreatest hx).mpr hhigh)]

theorem normalize_nan (hx : x.isNaN = true) : spec.normalize x = x := by
  have hround : roundHalfAway x = x := by
    rw [eq_nan hx]
    decide +kernel
  have hlow : ¬ x < spec.least := fun h => Bool.false_ne_true ((numbers_of_lt h).1.symm.trans hx)
  have hhigh : ¬ spec.greatest < x := fun h => Bool.false_ne_true ((numbers_of_lt h).2.symm.trans hx)
  change Scalar.clamp spec.least spec.greatest (if spec.whole then roundHalfAway x else x) = x
  rw [hround, ite_self, Scalar.clamp, if_neg hlow, if_neg hhigh]

theorem Sound.value_cases (hs : spec.Sound) (params : Table Float) :
    spec.Admits (spec.value params) ∨ (spec.value params).isNaN = true := by
  rw [ParamSpec.value]
  cases params.find? spec.name with
  | none => exact .inl hs.default
  | some x =>
    cases hx : x.isNaN with
    | false => exact .inl (hs.normalize hx)
    | true =>
      right
      change (spec.normalize x).isNaN = true
      rwa [normalize_nan hx]

theorem Sound.value_admits (hs : spec.Sound) (h : ∀ x, params.find? spec.name = some x → x.isNaN = false) :
    spec.Admits (spec.value params) := by
  rw [ParamSpec.value]
  cases hfind : params.find? spec.name with
  | none => exact hs.default
  | some x => exact hs.normalize (h x hfind)

/-- Only zeros share their text, and they are out of range. -/
theorem Sound.value_eq_of_text (hs : spec.Sound) {p q : Table Float}
    (h : numberText (spec.value p) = numberText (spec.value q)) : spec.value p = spec.value q := by
  rcases eq_of_numberText h with heq | ⟨⟨s, hzero⟩, -⟩
  · exact heq
  rcases hs.value_cases p with ⟨hlow, hhigh, -⟩ | hnan
  · have hpos := (hs.between hlow hhigh).2
    rw [Binary.value, hzero] at hpos
    exact absurd hpos (lt_irrefl 0)
  · rw [nan_unpack hnan] at hzero
    cases hzero

theorem toNat_bounds (hlow : 1 ≤ x) (hhigh : x ≤ 200) :
    0 < Scalar.toNat x ∧ Scalar.toNat x ≤ 200 := by
  have hlimit : HasValue 200 200 := by exact_mod_cast hasValue_ofNat (show 200 < 2 ^ 53 by decide)
  have hx := (numbers_of_le hlow).2
  rw [le_iff_value hasValue_one.number hx, hasValue_one.value] at hlow
  rw [le_iff_value hx hlimit.number, hlimit.value] at hhigh
  have hself : HasValue x (Binary.value x) := ⟨hx, rfl⟩
  have hfinite := hself.isFinite_of_le (abs_le.mpr ⟨by linarith, by linarith⟩)
  obtain ⟨hword, hfloor⟩ := toUInt64_eq hfinite (by linarith) (by linarith)
  have hnat : Scalar.toNat x = ⌊Binary.value x⌋.toNat := by
    change x.toUInt64.toNat = _
    rw [hword, Nat.toUInt64, UInt64.toNat_ofNat']
    omega
  have hone : 1 ≤ ⌊Binary.value x⌋ := Int.le_floor.mpr (by exact_mod_cast hlow)
  have hmost : ⌊Binary.value x⌋ ≤ 200 := Int.floor_le_iff.mpr (by push_cast; linarith)
  omega

theorem Sound.bars_bounds (hs : spec.Sound) (hgreatest : spec.greatest ≤ 200) (params : Table Float) :
    0 < spec.bars params ∧ spec.bars params ≤ 200 := by
  rw [bars]
  rcases hs.value_cases params with ⟨-, hhigh, -⟩ | hnan
  · obtain ⟨hvalue, -⟩ := numbers_of_le hhigh
    rcases max_cases hvalue hasValue_one.number with ⟨hmax, -⟩ | ⟨hmax, hone⟩
    · rw [hmax]
      exact toNat_bounds (le_self hasValue_one.number) (by decide +kernel)
    · rw [hmax]
      exact toNat_bounds hone (number_le_trans hhigh hgreatest)
  · -- Next to a NaN the other operand is the larger one.
    rw [eq_nan hnan]
    decide +kernel

end ParamSpec

namespace Indicator

theorem specs_sound {i : Indicator} {spec : ParamSpec Float} (hspec : spec ∈ i.specs) : spec.Sound := by
  have hall : ∀ i ∈ all, ∀ spec ∈ (i.specs : List (ParamSpec Float)), 0 < spec.least ∧
      spec.greatest.isFinite = true ∧ spec.Admits spec.least ∧ spec.Admits spec.greatest ∧
      spec.Admits spec.default ∧ Draw.Moderate spec.least ∧
      Draw.Moderate (Draw.scaleOf spec.least (Scalar.min (spec.default * 3) spec.greatest)) := by
    decide +kernel
  have hmem : i ∈ all := by cases i <;> decide
  obtain ⟨hpos, hfinite, hleast, hgreatest, hdefault, hlow, hscale⟩ := hall i hmem spec hspec
  exact ⟨hpos, hfinite, hleast, hgreatest, hdefault, hlow, hscale⟩

theorem periodSpec_mem (i : Indicator) :
    i.periodSpec (α := Float) ∈ i.specs ∨ i.periodSpec (α := Float) ∈ simpleAverage.specs := by
  cases i <;> simp [specs, periodSpec]

theorem period_bounds (i : Indicator) (params : Table Float) :
    0 < i.periodSpec.bars params ∧ i.periodSpec.bars params ≤ 200 := by
  have hsound : i.periodSpec.Sound := i.periodSpec_mem.elim specs_sound specs_sound
  apply hsound.bars_bounds
  cases i <;> decide +kernel

end Indicator

end SignalEvolution

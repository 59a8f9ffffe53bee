import SignalEvolution.Proofs.Arithmetic.RoundTrip

/-! # Equal numbers

Two numbers are equal when both are zeros or when they are one and the same number, no NaN. So
numbers are written alike exactly when they are equal, and sums of zeros stay zeros.
-/
namespace SignalEvolution.Binary
open Float.Model Float.Model.UnpackedFloat

variable {s t : Sign} {e e' : BitVec 11} {f f' : BitVec 52} {x y z : Float}

/-- The fields that a number other than NaN came from. -/
def fields : UnpackedFloat → Sign × Nat × Nat
  | .infinity s => (s, 2047, 0)
  | .notANumber => (.positive, 2047, 1)
  | .zero s => (s, 0, 0)
  | .finite s m q _ => if m < 2 ^ 52 then (s, 0, m) else (s, (q + 1075).toNat, m - 2 ^ 52)

theorem fields_ofFields (h : (ofFields s e f).isNaN = false) :
    fields (ofFields s e f) = (s, e.toNat, f.toNat) := by
  have hf : f.toNat < 2 ^ 52 := f.isLt
  unfold ofFields at h ⊢
  split
  · next hall =>
    subst hall
    split
    · next hzero =>
      subst hzero
      rfl
    · next hpayload =>
      rw [if_pos rfl, if_neg hpayload] at h
      cases h
  · split
    · next hleast =>
      subst hleast
      split
      · next hzero =>
        subst hzero
        rfl
      · exact if_pos hf
    · have hm : ¬ 2 ^ 52 + f.toNat < 2 ^ 52 := by omega
      have hexponent : ((e.toNat : Int) - 1075 + 1075).toNat = e.toNat := by omega
      have hfraction : 2 ^ 52 + f.toNat - 2 ^ 52 = f.toNat := by omega
      rw [fields, if_neg hm, hexponent, hfraction]

theorem toBits_eq (b : BitVec 64) : b.toNat =
    (@unpackSign Format.binary64 b).toNat * 2 ^ 63 + (@unpackExponent Format.binary64 b).toNat * 2 ^ 52 +
      (@unpackMantissa Format.binary64 b).toNat := by
  have hb := b.isLt
  rw [toNat_unpackSign, toNat_unpackExponent, toNat_unpackMantissa]
  omega

theorem sign_inj (a b : BitVec 1) (h : Sign.ofBitVec a = Sign.ofBitVec b) : a = b := by
  have hbits (c : BitVec 1) : c = 0#1 ∨ c = 1#1 := by
    revert c
    decide
  rcases hbits a with rfl | rfl <;> rcases hbits b with rfl | rfl
  · rfl
  · cases h
  · cases h
  · rfl

theorem eq_of_unpack_eq (hx : x.isNaN = false) (h : x.toModel.unpack = y.toModel.unpack) : x = y := by
  have hnan : ∀ {z : Float}, z.isNaN = false →
      (UnpackedFloat.unpack Format.binary64 z.toBits.toBitVec).isNaN = false := fun h => h
  have hy : y.isNaN = false := by
    change y.toModel.unpack.isNaN = false
    rw [← h]
    exact hx
  have hxnan := hnan hx
  have hynan := hnan hy
  have hbits : UnpackedFloat.unpack Format.binary64 x.toBits.toBitVec =
      UnpackedFloat.unpack Format.binary64 y.toBits.toBitVec := h
  rw [unpack_eq] at hxnan hynan
  rw [unpack_eq, unpack_eq] at hbits
  have hfields := congrArg fields hbits
  rw [fields_ofFields hxnan, fields_ofFields hynan] at hfields
  obtain ⟨hsign, hrest⟩ := Prod.mk.inj hfields
  obtain ⟨he, hf⟩ := Prod.mk.inj hrest
  have hbits : x.toBits = y.toBits := by
    apply UInt64.toNat_inj.mp
    have hxbits := toBits_eq x.toBits.toBitVec
    have hybits := toBits_eq y.toBits.toBitVec
    rw [sign_inj _ _ hsign, he, hf, ← hybits] at hxbits
    exact hxbits
  obtain ⟨⟨xbits, _⟩⟩ := x
  obtain ⟨⟨ybits, _⟩⟩ := y
  obtain rfl : xbits = ybits := hbits
  rfl

theorem nan_unpack (hx : x.isNaN = true) : x.toModel.unpack = .notANumber := by
  change x.toModel.unpack.isNaN = true at hx
  generalize x.toModel.unpack = u at hx
  cases u with
  | notANumber => rfl
  | infinity s => cases hx
  | zero s => cases hx
  | finite s m q hm => cases hx

theorem eq_nan (hx : x.isNaN = true) : x = Float.nan := by
  rwa [Float.isNaN_eq_decide_eq_nan, decide_eq_true_eq] at hx

/-- A zero of either sign. -/
def IsZero (x : Float) : Prop := ∃ s, x.toModel.unpack = .zero s

theorem isZero_zero : IsZero 0 := ⟨.positive, zero_unpack⟩

theorem IsZero.neg (hx : IsZero x) : IsZero (-x) := by
  obtain ⟨s, hs⟩ := hx
  exact ⟨-s, neg_zero hs⟩

theorem add_unpack (x y : Float) : (x + y).toModel.unpack =
    (Float.Model.pack (UnpackedFloat.add Format.binary64 x.toModel.unpack y.toModel.unpack)).unpack := rfl

theorem IsZero.add (hx : IsZero x) (hy : IsZero y) : IsZero (x + y) := by
  obtain ⟨s, hs⟩ := hx
  obtain ⟨t, ht⟩ := hy
  rw [IsZero, add_unpack, hs, ht, UnpackedFloat.add]
  split
  · exact ⟨s, unpack_pack_zero s⟩
  · exact ⟨.positive, unpack_pack_zero .positive⟩

theorem IsZero.sum {xs : List Float} (h : ∀ x ∈ xs, IsZero x) : IsZero (Scalar.sum xs) := by
  have hfold : ∀ {total : Float}, IsZero total → IsZero (xs.foldl (· + ·) total) := by
    induction xs with
    | nil => exact id
    | cons x rest ih =>
      intro total htotal
      exact ih (fun y hy => h y (List.mem_cons_of_mem x hy)) (htotal.add (h x List.mem_cons_self))
  exact hfold isZero_zero.neg

/-- There are two of them. -/
theorem IsZero.eq_or (hx : IsZero x) : x = 0 ∨ x = -0 := by
  obtain ⟨s, hs⟩ := hx
  have hnan := isNaN_of_isFinite (isFinite_of_zero hs)
  cases s with
  | positive => exact .inl (eq_of_unpack_eq hnan (hs.trans zero_unpack.symm))
  | negative => exact .inr (eq_of_unpack_eq hnan (hs.trans (neg_zero zero_unpack).symm))

theorem lt_iff (x y : Float) : x < y ↔ x.toModel.unpack.lt y.toModel.unpack = true := by
  change decide (x.toModel.unpack.lt y.toModel.unpack = true) = true ↔ _
  rw [decide_eq_true_iff]

theorem le_iff (x y : Float) : x ≤ y ↔ x.toModel.unpack.le y.toModel.unpack = true := by
  change decide (x.toModel.unpack.le y.toModel.unpack = true) = true ↔ _
  rw [decide_eq_true_iff]

theorem IsZero.le_zero (hx : IsZero x) : x ≤ 0 := by
  obtain ⟨s, hs⟩ := hx
  rw [le_iff, hs, zero_unpack]
  rfl

/-- A finite number is a zero or on one side of it. -/
theorem sign_cases (h : x.isFinite = true) : IsZero x ∨ x < 0 ∨ 0 < x := by
  rcases unpack_cases h with ⟨s, hs, -⟩ | ⟨s, m, q, hc, hs, -⟩
  · exact .inl ⟨s, hs⟩
  · right
    rw [lt_iff, lt_iff, hs, zero_unpack]
    cases s with
    | positive => exact .inr rfl
    | negative => exact .inl rfl

theorem eq_of_compare {m n : Nat} {q r : Int} (h : (compare q r).then (compare m n) = .eq) :
    q = r ∧ m = n := by
  rw [Ordering.then_eq_eq, compare_eq_iff_eq, compare_eq_iff_eq] at h
  exact h

theorem compare_eq_some_eq {a b : UnpackedFloat} (h : UnpackedFloat.compare a b = some .eq) :
    (∃ s t, a = .zero s ∧ b = .zero t) ∨ a.isNaN = false ∧ a = b := by
  cases a with
  | notANumber => simp [UnpackedFloat.compare] at h
  | infinity s =>
    right
    cases b with
    | infinity t => cases s <;> cases t <;> first | exact ⟨rfl, rfl⟩ | cases h
    | notANumber => cases s <;> cases h
    | zero t => cases s <;> cases h
    | finite t n r hn => cases s <;> cases h
  | zero s =>
    cases b with
    | infinity t => cases t <;> cases h
    | notANumber => cases h
    | zero t => exact .inl ⟨s, t, rfl, rfl⟩
    | finite t n r hn => cases t <;> cases h
  | finite s m q hm =>
    right
    cases b with
    | infinity t => cases s <;> cases t <;> cases h
    | notANumber => cases s <;> cases h
    | zero t => cases s <;> cases h
    | finite t n r hn =>
      cases s <;> cases t
      · have heq := congrArg Ordering.swap (Option.some.inj h)
        rw [Ordering.swap_swap] at heq
        obtain ⟨rfl, rfl⟩ := eq_of_compare heq
        exact ⟨rfl, rfl⟩
      · cases h
      · cases h
      · obtain ⟨rfl, rfl⟩ := eq_of_compare (Option.some.inj h)
        exact ⟨rfl, rfl⟩

theorem compare_self {a : UnpackedFloat} (h : a.isNaN = false) : UnpackedFloat.compare a a = some .eq := by
  cases a with
  | notANumber => cases h
  | infinity s => cases s <;> rfl
  | zero s => rfl
  | finite s m q hm => cases s <;> simp [UnpackedFloat.compare]

theorem beq_iff : (x == y) = true ↔ IsZero x ∧ IsZero y ∨ x.isNaN = false ∧ x = y := by
  rw [beq_eq, beq_iff_eq]
  constructor
  · intro h
    rcases compare_eq_some_eq h with ⟨s, t, hs, ht⟩ | ⟨hnan, heq⟩
    · exact .inl ⟨⟨s, hs⟩, t, ht⟩
    · exact .inr ⟨hnan, eq_of_unpack_eq hnan heq⟩
  · rintro (⟨⟨s, hs⟩, t, ht⟩ | ⟨hnan, rfl⟩)
    · rw [hs, ht]
      rfl
    · exact compare_self hnan

theorem beq_self (h : x.isNaN = false) : (x == x) = true := beq_iff.mpr (.inr ⟨h, rfl⟩)

theorem beq_symm (h : (x == y) = true) : (y == x) = true := by
  rcases beq_iff.mp h with ⟨hx, hy⟩ | ⟨hnan, rfl⟩
  · exact beq_iff.mpr (.inl ⟨hy, hx⟩)
  · exact h

theorem beq_trans (hxy : (x == y) = true) (hyz : (y == z) = true) : (x == z) = true := by
  rcases beq_iff.mp hxy with ⟨hx, hy⟩ | ⟨-, rfl⟩
  · rcases beq_iff.mp hyz with ⟨-, hz⟩ | ⟨-, rfl⟩
    · exact beq_iff.mpr (.inl ⟨hx, hz⟩)
    · exact hxy
  · exact hyz

theorem eq_infinity (hfinite : x.isFinite = false) (hnan : x.isNaN = false) :
    x = infinity ∨ x = -infinity := by
  have hpositive : infinity.toModel.unpack = .infinity .positive := by
    rfl
  have hnegative : (-infinity).toModel.unpack = .infinity .negative := by
    rfl
  have hcases : ∃ s, x.toModel.unpack = .infinity s := by
    change x.toModel.unpack.isFinite = false at hfinite
    change x.toModel.unpack.isNaN = false at hnan
    cases hu : x.toModel.unpack with
    | infinity s => exact ⟨s, rfl⟩
    | notANumber => rw [hu] at hnan; cases hnan
    | zero s => rw [hu] at hfinite; cases hfinite
    | finite s m q hm => rw [hu] at hfinite; cases hfinite
  obtain ⟨s, hs⟩ := hcases
  cases s with
  | positive => exact .inl (eq_of_unpack_eq hnan (hs.trans hpositive.symm))
  | negative => exact .inr (eq_of_unpack_eq hnan (hs.trans hnegative.symm))

theorem IsZero.numberText (hx : IsZero x) : numberText x = "0" := by
  rcases hx.eq_or with rfl | rfl
  · decide +kernel
  · decide +kernel

/-- Two numbers have the same text in formulas exactly when they are equal. -/
theorem numberText_eq_iff (hx : x.isNaN = false) (hy : y.isNaN = false) :
    numberText x = numberText y ↔ (x == y) = true := by
  constructor
  · intro h
    cases hxf : x.isFinite with
    | true =>
      obtain ⟨u, hu, hux⟩ := finite?_numberText hxf
      cases hyf : y.isFinite with
      | true =>
        obtain ⟨v, hv, hvy⟩ := finite?_numberText hyf
        rw [← h, hu] at hv
        obtain rfl := Option.some.inj hv
        exact beq_trans (beq_symm hux) hvy
      | false =>
        have hnone := finite?_numberText_eq_none hyf
        rw [← h, hu] at hnone
        cases hnone
    | false =>
      cases hyf : y.isFinite with
      | true =>
        obtain ⟨v, hv, -⟩ := finite?_numberText hyf
        rw [← h, finite?_numberText_eq_none hxf] at hv
        cases hv
      | false =>
        have hdiffer : numberText infinity ≠ numberText (-infinity) := by decide +kernel
        rcases eq_infinity hxf hx with rfl | rfl <;> rcases eq_infinity hyf hy with rfl | rfl
        · exact beq_self hx
        · exact absurd h hdiffer
        · exact absurd h.symm hdiffer
        · exact beq_self hx
  · intro h
    rcases beq_iff.mp h with ⟨hx, hy⟩ | ⟨-, rfl⟩
    · rw [hx.numberText, hy.numberText]
    · rfl

theorem numberText_eq_nan_iff : numberText x = "NaN" ↔ x.isNaN = true := by
  constructor
  · intro h
    by_contra hx
    rw [Bool.not_eq_true] at hx
    cases hfinite : x.isFinite with
    | true =>
      obtain ⟨y, hy, -⟩ := finite?_numberText hfinite
      have hnone : Formula.finite? "NaN".toList = none := by decide +kernel
      rw [h, hnone] at hy
      cases hy
    | false =>
      have hpositive : numberText infinity ≠ "NaN" := by decide +kernel
      have hnegative : numberText (-infinity) ≠ "NaN" := by decide +kernel
      rcases eq_infinity hfinite hx with rfl | rfl
      · exact hpositive h
      · exact hnegative h
  · intro hx
    rw [eq_nan hx]
    decide +kernel

/-- The text determines the number up to the sign of zero. -/
theorem eq_of_numberText (h : numberText x = numberText y) : x = y ∨ IsZero x ∧ IsZero y := by
  cases hx : x.isNaN with
  | true =>
    have hy : y.isNaN = true := numberText_eq_nan_iff.mp (h.symm.trans (numberText_eq_nan_iff.mpr hx))
    exact .inl ((eq_nan hx).trans (eq_nan hy).symm)
  | false =>
    have hy : y.isNaN = false := by
      rw [← Bool.not_eq_true, ← numberText_eq_nan_iff, ← h, numberText_eq_nan_iff, hx]
      exact Bool.false_ne_true
    rcases beq_iff.mp ((numberText_eq_iff hx hy).mp h) with hzero | ⟨-, heq⟩
    · exact .inr hzero
    · exact .inl heq

end SignalEvolution.Binary

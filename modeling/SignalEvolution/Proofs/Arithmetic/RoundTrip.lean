import SignalEvolution.Formula.Reader
import SignalEvolution.Proofs.Arithmetic.Shortest

/-! # Numbers read back from their text

The text of a finite number is read as a number equal to it, and the text of any other
number is not read as a finite one.
-/
namespace SignalEvolution.Binary
open Float.Model Float.Model.UnpackedFloat

variable {m n : Nat} {q k : Int} {s : Sign} {x y : Float} {body : List Char} {negative : Bool}

theorem beq_eq (x y : Float) :
    (x == y) = (UnpackedFloat.compare x.toModel.unpack y.toModel.unpack == some .eq) := rfl

theorem beq_of_finite {hm : 0 < m} (hx : x.toModel.unpack = .finite s m q hm)
    (hy : y.toModel.unpack = .finite s m q hm) : (x == y) = true := by
  rw [beq_eq, hx, hy]
  cases s <;> simp [UnpackedFloat.compare]

theorem beq_of_zero {s t : Sign} (hx : x.toModel.unpack = .zero s) (hy : y.toModel.unpack = .zero t) :
    (x == y) = true := by
  rw [beq_eq, hx, hy]
  rfl

theorem neg_unpack (x : Float) : (-x).toModel.unpack = (Float.Model.pack x.toModel.unpack.neg).unpack := rfl

theorem neg_finite (hc : Canonical m q) (hx : x.toModel.unpack = .finite .positive m q hc.pos) :
    (-x).toModel.unpack = .finite .negative m q hc.pos := by
  rw [neg_unpack, hx]
  exact unpack_pack hc .negative

theorem neg_zero (hx : x.toModel.unpack = .zero s) : (-x).toModel.unpack = .zero (-s) := by
  rw [neg_unpack, hx]
  exact unpack_pack_zero (-s)

theorem isFinite_of_finite {hm : 0 < m} (hx : x.toModel.unpack = .finite s m q hm) : x.isFinite = true := by
  change x.toModel.unpack.isFinite = true
  rw [hx]
  rfl

theorem isFinite_of_zero (hx : x.toModel.unpack = .zero s) : x.isFinite = true := by
  change x.toModel.unpack.isFinite = true
  rw [hx]
  rfl

theorem isNaN_of_isFinite (hx : x.isFinite = true) : x.isNaN = false := by
  change x.toModel.unpack.isNaN = false
  change x.toModel.unpack.isFinite = true at hx
  cases hu : x.toModel.unpack <;> rw [hu] at hx <;> first | rfl | cases hx

/-- A text of digits, with a minus before it or not. -/
def signed (negative : Bool) (body : List Char) : List Char := if negative then '-' :: body else body

/-- The sign of a text. -/
def signOf (negative : Bool) : Sign := if negative then .negative else .positive

theorem signOf_eq (h : negative = true ↔ s = .negative) : signOf negative = s := by
  cases negative with
  | true => exact (h.mp rfl).symm
  | false =>
    cases s with
    | positive => rfl
    | negative => exact absurd (h.mpr rfl) Bool.false_ne_true

theorem read?_signed {c : Char} {cs : List Char} (hc : c.isDigit = true) (negative : Bool) :
    Decimal.read? (signed negative (c :: cs)) =
      (Decimal.unsigned? (c :: cs)).map fun x => if negative then -x else x := by
  cases negative with
  | false =>
    rw [signed, if_neg Bool.false_ne_true, Decimal.read?_digits hc]
    exact Option.map_id'.symm
  | true => exact Decimal.read?_minus hc

theorem read?_finite {c : Char} {cs : List Char} (hdigit : c.isDigit = true) (hc : Canonical m q)
    (hread : Decimal.unsigned? (c :: cs) = some (Decimal.nearest n k)) (hn : Near m q (n * 10 ^ k))
    (negative : Bool) :
    ∃ y, Decimal.read? (signed negative (c :: cs)) = some y ∧
      y.toModel.unpack = .finite (signOf negative) m q hc.pos := by
  have hpositive := unpack_pack hc .positive
  rw [read?_signed hdigit, hread, nearest_eq hc hn]
  cases negative with
  | false => exact ⟨_, rfl, hpositive⟩
  | true => exact ⟨_, rfl, neg_finite hc hpositive⟩

theorem zero_unpack : (0 : Float).toModel.unpack = .zero .positive := by
  have hparts : (0 : Float).isFinite = true ∧ parts 0 = (0, -1074) ∧ isNegative 0 = false := by
    decide +kernel
  obtain ⟨hfinite, hzero, hsign⟩ := hparts
  rcases unpack_cases hfinite with ⟨s, hunpack, -, hs⟩ | ⟨_, _, _, hc, -, hparts, -⟩
  · cases s with
    | positive => exact hunpack
    | negative =>
      rw [hs.mpr rfl] at hsign
      cases hsign
  · obtain ⟨rfl, -⟩ := Prod.mk.inj (hparts.symm.trans hzero)
    exact absurd hc.pos (by decide)

theorem read?_zero {c : Char} {cs : List Char} (hdigit : c.isDigit = true)
    (hread : Decimal.unsigned? (c :: cs) = some (Decimal.nearest 0 k)) (negative : Bool) :
    ∃ y, Decimal.read? (signed negative (c :: cs)) = some y ∧ y.toModel.unpack = .zero (signOf negative) := by
  have hzero : Decimal.nearest 0 k = 0 := rfl
  rw [read?_signed hdigit, hread, hzero]
  cases negative with
  | false => exact ⟨_, rfl, zero_unpack⟩
  | true => exact ⟨_, rfl, neg_zero zero_unpack⟩

theorem toDigits_cons (n : Nat) : ∃ c cs, Nat.toDigits 10 n = c :: cs ∧ c.isDigit = true := by
  obtain ⟨c, cs, h⟩ := List.exists_cons_of_ne_nil (Nat.toDigits_ne_nil : Nat.toDigits 10 n ≠ [])
  exact ⟨c, cs, h, Decimal.isDigits_toDigits n c (h ▸ List.mem_cons_self)⟩

theorem positional_cons (n : Nat) (point : Int) :
    ∃ c cs, Decimal.positional (Nat.toDigits 10 n) point false = c :: cs ∧ c.isDigit = true := by
  obtain ⟨c, cs, h, hc⟩ := toDigits_cons n
  rw [h]
  unfold Decimal.positional
  split
  · exact ⟨'0', _, rfl, rfl⟩
  · split
    · exact ⟨c, _, rfl, hc⟩
    · next hpoint _ =>
      obtain ⟨p, hp⟩ := Nat.exists_eq_succ_of_ne_zero (show point.natAbs ≠ 0 by omega)
      rw [hp]
      exact ⟨c, _, rfl, hc⟩

theorem magnitudeText_plain (x : Float) :
    Decimal.magnitudeText Decimal.plainStyle x =
      Decimal.positional (Nat.toDigits 10 (Shortest.decimal .up x).digits)
        (if (Shortest.decimal .up x).digits = 0 then 1
          else (Shortest.decimal .up x).exponent + (Nat.toDigits 10 (Shortest.decimal .up x).digits).length)
        false := rfl

theorem plain_eq (hx : x.isFinite = true) :
    (Decimal.plain x).toList = signed (isNegative x) (Decimal.magnitudeText Decimal.plainStyle x) := by
  have hnan := isNaN_of_isFinite hx
  unfold Decimal.plain Decimal.write
  rw [if_neg (by rw [hnan]; decide), if_pos hx, String.toList_ofList, signed]
  split <;> rfl

/-- Plain text of a finite number is read as that number, with the sign of a zero. -/
theorem read?_plain (hx : x.isFinite = true) :
    ∃ y, Decimal.read? (Decimal.plain x).toList = some y ∧ y.toModel.unpack = x.toModel.unpack := by
  rw [plain_eq hx, magnitudeText_plain]
  rcases unpack_cases hx with ⟨s, hunpack, hparts, hs⟩ | ⟨s, m, q, hc, hunpack, hparts, hs⟩
  · have hsign := signOf_eq hs
    have hdecimal : Shortest.decimal .up x = ⟨0, 0⟩ := by
      rw [Shortest.decimal, hparts]
      rfl
    rw [hdecimal, hunpack, ← hsign]
    have hread : Decimal.unsigned? ['0'] = some (Decimal.nearest 0 0) := rfl
    exact read?_zero rfl hread (isNegative x)
  · have hsign := signOf_eq hs
    have hnear := Shortest.decimal_near .up hc hparts
    have hdigits := digits_of_near hc hnear
    rw [if_neg (Nat.ne_of_gt hdigits), hunpack]
    obtain ⟨n, k, hread, hvalue⟩ := Decimal.unsigned?_positional (Shortest.decimal .up x).digits
      (Shortest.decimal .up x).exponent
    obtain ⟨c, cs, htext, hdigit⟩ := positional_cons (Shortest.decimal .up x).digits
      ((Shortest.decimal .up x).exponent + (Nat.toDigits 10 (Shortest.decimal .up x).digits).length)
    rw [htext] at hread ⊢
    rw [← hvalue] at hnear
    rw [← hsign]
    exact read?_finite hdigit hc hread hnear (isNegative x)

/-- Whole part of a magnitude. -/
def wholePart (m : Nat) (q : Int) : Nat :=
  if 0 ≤ q then m * Nat.pow 2 q.natAbs else m / Nat.pow 2 q.natAbs

theorem wholePart_eq (h : isWhole x = true) (hparts : parts x = (m, q)) :
    (wholePart m q : ℚ) = m * 2 ^ q := by
  unfold isWhole at h
  rw [hparts, Bool.and_eq_true, Bool.or_eq_true] at h
  unfold wholePart
  split
  · next hq =>
    have hpow : (2 : ℚ) ^ q = 2 ^ q.natAbs := by
      rw [← zpow_natCast]
      congr 1
      omega
    rw [hpow]
    simp
  · next hq =>
    have hdvd : 2 ^ q.natAbs ∣ m := by
      rcases h.2 with hge | hmod
      · exact absurd (of_decide_eq_true hge) hq
      · exact Nat.dvd_of_mod_eq_zero (beq_iff_eq.mp hmod)
    obtain ⟨n, rfl⟩ := hdvd
    have hpow : (2 : ℚ) ^ q.natAbs * 2 ^ q = 1 := by
      rw [← zpow_natCast, ← zpow_add₀ (by norm_num), ← zpow_zero (2 : ℚ)]
      congr 1
      omega
    have hquotient : 2 ^ q.natAbs * n / Nat.pow 2 q.natAbs = n := Nat.mul_div_cancel_left n (Nat.two_pow_pos _)
    rw [hquotient]
    push_cast
    linear_combination (-(n : ℚ)) * hpow

theorem wholePart_zero (q : Int) : wholePart 0 q = 0 := by
  unfold wholePart
  split
  · exact Nat.zero_mul _
  · exact Nat.zero_div _

theorem truncate_eq (hparts : parts x = (m, q)) :
    truncate x = if isNegative x then -(wholePart m q : Int) else wholePart m q := by
  rw [truncate, hparts]
  rfl

theorem toString_natCast (n : Nat) : (toString (n : Int)).toList = Nat.toDigits 10 n := String.toList_ofList

theorem toString_neg (hn : 0 < n) : (toString (-(n : Int))).toList = '-' :: Nat.toDigits 10 n := by
  obtain ⟨p, rfl⟩ := Nat.exists_eq_succ_of_ne_zero (Nat.ne_of_gt hn)
  have hrepr : toString (-((p + 1 : Nat) : Int)) = "-" ++ Nat.repr (p + 1) := rfl
  rw [hrepr, String.toList_append]
  exact congrArg (List.cons '-') String.toList_ofList

theorem finite?_of_read? (hread : Decimal.read? body = some y) (hy : y.isFinite = true) :
    Formula.finite? body = some y := by
  rw [Formula.finite?, hread, Option.filter_some, if_pos hy]

/-- The text of a finite number in formulas is read as a number equal to it. -/
theorem finite?_numberText (hx : x.isFinite = true) :
    ∃ y, Formula.finite? (numberText x).toList = some y ∧ (y == x) = true := by
  unfold numberText
  split
  · next h =>
    have hwhole := (Bool.and_eq_true_iff.mp h).1
    rcases unpack_cases hx with ⟨s, hunpack, hparts, -⟩ | ⟨s, m, q, hc, hunpack, hparts, hs⟩
    · have hzero : truncate x = 0 := by
        rw [truncate_eq hparts, wholePart_zero]
        split <;> rfl
      have hread : Decimal.unsigned? ['0'] = some (Decimal.nearest 0 0) := rfl
      obtain ⟨y, hy, hyu⟩ := read?_zero rfl hread false
      rw [hzero]
      exact ⟨y, finite?_of_read? hy (isFinite_of_zero hyu), beq_of_zero hyu hunpack⟩
    · have hvalue := wholePart_eq hwhole hparts
      have hnear : Near m q (wholePart m q * 10 ^ (0 : Int)) := by
        rw [zpow_zero, mul_one, hvalue]
        exact near_self m q
      have hpos := digits_of_near hc hnear
      have htext : (toString (truncate x)).toList =
          signed (isNegative x) (Nat.toDigits 10 (wholePart m q)) := by
        rw [truncate_eq hparts, signed]
        split
        · exact toString_neg hpos
        · exact toString_natCast _
      obtain ⟨c, cs, hcons, hdigit⟩ := toDigits_cons (wholePart m q)
      have hread : Decimal.unsigned? (Nat.toDigits 10 (wholePart m q)) =
          some (Decimal.nearest (wholePart m q) 0) := by
        rw [Decimal.unsigned?_digits (Decimal.isDigits_toDigits _) Nat.toDigits_ne_nil,
          Decimal.digitsValue_toDigits]
      rw [hcons] at hread
      obtain ⟨y, hy, hyu⟩ := read?_finite hdigit hc hread hnear (isNegative x)
      rw [signOf_eq hs] at hyu
      rw [htext, hcons]
      exact ⟨y, finite?_of_read? hy (isFinite_of_finite hyu), beq_of_finite hyu hunpack⟩
  · obtain ⟨y, hy, hyu⟩ := read?_plain hx
    refine ⟨y, finite?_of_read? hy ?_, ?_⟩
    · change y.toModel.unpack.isFinite = true
      rw [hyu]
      exact hx
    · rcases unpack_cases hx with ⟨s, hunpack, -⟩ | ⟨s, m, q, hc, hunpack, -⟩
      · exact beq_of_zero (hyu.trans hunpack) hunpack
      · exact beq_of_finite (hyu.trans hunpack) hunpack

/-- The text of any other number is not read as a finite one. -/
theorem finite?_numberText_eq_none (hx : x.isFinite = false) :
    Formula.finite? (numberText x).toList = none := by
  have hwhole : isWhole x = false := by
    rw [isWhole, hx]
    rfl
  rw [numberText, hwhole, Bool.false_and, if_neg Bool.false_ne_true, Decimal.plain, Decimal.write]
  split
  · decide +kernel
  · rw [hx, if_neg Bool.false_ne_true]
    split <;> decide +kernel

end SignalEvolution.Binary

import SignalEvolution.Proofs.Arithmetic.Nearest

/-! # Shortest decimals

The search for digits ends with a decimal in the interval of the number. On the grid
of seventeen digits two neighbouring points lie closer than the ends of the interval.
-/
namespace SignalEvolution.Shortest
open Binary

variable {m n d count fuel : Nat} {q k e : Int} {t : Target} {tie : Tie} {x : Float}

/-- The common factor of the interval's numbers, and their denominator. -/
def scale (q : Int) : Nat := if 0 ≤ q then Nat.pow 2 q.natAbs else 1

def denominator (q : Int) : Nat := if 0 ≤ q then 4 else 4 * Nat.pow 2 q.natAbs

theorem scale_eq (q : Int) : 4 * (scale q : ℚ) = 2 ^ q * denominator q := by
  unfold scale denominator
  split
  · next hq =>
    have hpow : (2 : ℚ) ^ q = 2 ^ q.natAbs := by
      rw [← zpow_natCast]
      congr 1
      omega
    rw [hpow, mul_comm]
    simp
  · next hq =>
    have hpow : (2 : ℚ) ^ q * 2 ^ q.natAbs = 1 := by
      rw [← zpow_natCast, ← zpow_add₀ (by norm_num), ← zpow_zero (2 : ℚ)]
      congr 1
      omega
    have hcast : ((4 * Nat.pow 2 q.natAbs : Nat) : ℚ) = 4 * 2 ^ q.natAbs := by simp
    rw [hcast]
    linear_combination (-4 : ℚ) * hpow

theorem denominator_pos (q : Int) : 0 < denominator q := by
  unfold denominator
  split
  · decide
  · exact Nat.mul_pos (by decide) (Nat.two_pow_pos _)

theorem target_below (hm : 0 < m) (q : Int) :
    ((target m q).below : ℚ) = (m - lowerGap m q) * 2 ^ q * denominator q := by
  have h := scale_eq q
  have hbelow : (target m q).below = (4 * m - if m = 2 ^ 52 ∧ q ≠ -1074 then 1 else 2) * scale q := rfl
  rw [hbelow, lowerGap]
  split
  · rw [Nat.cast_mul, Nat.cast_sub (by omega)]
    push_cast
    linear_combination (m - 1 / 4 : ℚ) * h
  · rw [Nat.cast_mul, Nat.cast_sub (by omega)]
    push_cast
    linear_combination (m - 1 / 2 : ℚ) * h

theorem target_above (m : Nat) (q : Int) :
    ((target m q).above : ℚ) = (m + 1 / 2) * 2 ^ q * denominator q := by
  have h := scale_eq q
  have habove : (target m q).above = (4 * m + 2) * scale q := rfl
  rw [habove]
  push_cast
  linear_combination (m + 1 / 2 : ℚ) * h

/-- The numbers of the target are multiplied by `lift k` and the points of the grid by `unit t k`, so
that both are whole. -/
def lift (k : Int) : Nat := if 0 ≤ k then 1 else Nat.pow 10 k.natAbs

def unit (t : Target) (k : Int) : Nat := if 0 ≤ k then Nat.pow 10 k.natAbs * t.den else t.den

def scaled (t : Target) (k : Int) : Target :=
  { t with num := t.num * lift k, below := t.below * lift k, above := t.above * lift k }

theorem lift_pos (k : Int) : 0 < lift k := by
  unfold lift
  split
  · decide
  · exact Nat.pow_pos (by decide)

theorem unit_eq (t : Target) (k : Int) : (unit t k : ℚ) = 10 ^ k * t.den * lift k := by
  unfold unit lift
  split
  · next hk =>
    have hpow : (10 : ℚ) ^ k = 10 ^ k.natAbs := by
      rw [← zpow_natCast]
      congr 1
      omega
    rw [hpow]
    simp
  · next hk =>
    have hpow : (10 : ℚ) ^ k * 10 ^ k.natAbs = 1 := by
      rw [← zpow_natCast, ← zpow_add₀ (by norm_num), ← zpow_zero (10 : ℚ)]
      congr 1
      omega
    have hcast : ((Nat.pow 10 k.natAbs : Nat) : ℚ) = 10 ^ k.natAbs := by simp
    rw [hcast]
    linear_combination (-(t.den : ℚ)) * hpow

/-- The choice between the points `low` and `low + 1` of a grid. -/
def pick (tie : Tie) (lowFits highFits : Bool) (low rest unit : Nat) : Option Nat :=
  if lowFits && highFits then
    if 2 * rest < unit then some low
    else if unit < 2 * rest then some (low + 1)
    else match tie with
      | .up => some (low + 1)
      | .even => some (if low % 2 = 0 then low else low + 1)
  else if lowFits then some low
  else if highFits then some (low + 1)
  else none

theorem pick_eq_some {lowFits highFits : Bool} {low rest unit : Nat}
    (h : pick tie lowFits highFits low rest unit = some n) :
    lowFits = true ∧ n = low ∨ highFits = true ∧ n = low + 1 := by
  cases lowFits <;> cases highFits <;> simp only [pick, Bool.and_true, Bool.and_false,
    if_true, Bool.false_eq_true, if_false] at h
  · cases h
  · exact .inr ⟨rfl, (Option.some.inj h).symm⟩
  · exact .inl ⟨rfl, (Option.some.inj h).symm⟩
  · split at h
    · exact .inl ⟨rfl, (Option.some.inj h).symm⟩
    · split at h
      · exact .inr ⟨rfl, (Option.some.inj h).symm⟩
      · cases tie with
        | up => exact .inr ⟨rfl, (Option.some.inj h).symm⟩
        | even =>
          have hn := (Option.some.inj h).symm
          split at hn
          · exact .inl ⟨rfl, hn⟩
          · exact .inr ⟨rfl, hn⟩

theorem pick_eq_none {lowFits highFits : Bool} {low rest unit : Nat}
    (h : pick tie lowFits highFits low rest unit = none) : lowFits = false ∧ highFits = false := by
  cases lowFits <;> cases highFits <;> simp only [pick, Bool.and_true, Bool.and_false,
    if_true, Bool.false_eq_true, if_false] at h
  · exact ⟨rfl, rfl⟩
  · cases h
  · cases h
  · split at h
    · cases h
    · split at h
      · cases h
      · cases tie <;> cases h

theorem onGrid_eq (t : Target) (tie : Tie) (k : Int) :
    t.onGrid tie k =
      pick tie
        (0 < (scaled t k).num / unit t k && (scaled t k).admits ((scaled t k).num / unit t k * unit t k))
        ((scaled t k).admits (((scaled t k).num / unit t k + 1) * unit t k))
        ((scaled t k).num / unit t k) ((scaled t k).num % unit t k) (unit t k) := by
  cases tie <;> rfl

theorem onGrid_sound (h : t.onGrid tie k = some n) : (scaled t k).admits (n * unit t k) = true := by
  rw [onGrid_eq] at h
  obtain ⟨hlow, rfl⟩ | ⟨hhigh, rfl⟩ := pick_eq_some h
  · exact (Bool.and_eq_true_iff.mp hlow).2
  · exact hhigh

/-- Where the grid offers nothing, its points around the number lie outside the interval. -/
theorem onGrid_none (h : t.onGrid tie k = none) :
    (0 < (scaled t k).num / unit t k →
      (scaled t k).admits ((scaled t k).num / unit t k * unit t k) = false) ∧
      (scaled t k).admits (((scaled t k).num / unit t k + 1) * unit t k) = false := by
  rw [onGrid_eq] at h
  obtain ⟨hlow, hhigh⟩ := pick_eq_none h
  refine ⟨fun hpos => ?_, hhigh⟩
  rw [decide_eq_true hpos, Bool.true_and] at hlow
  exact hlow

theorem admits_cases (h : t.admits n = false) : n ≤ t.below ∨ t.above ≤ n := by
  unfold Target.admits at h
  split at h
  · simp at h
    omega
  · simp at h
    omega

theorem admits_spec (h : t.admits n = true) :
    t.below ≤ n ∧ n ≤ t.above ∧ (t.closed = false → t.below < n ∧ n < t.above) := by
  unfold Target.admits at h
  split at h
  · next hclosed =>
    simp at h
    exact ⟨h.1, h.2, fun hopen => by rw [hclosed] at hopen; cases hopen⟩
  · simp at h
    exact ⟨by omega, by omega, fun _ => h⟩

/-- A point that the target admits is a decimal in the interval. -/
theorem near_of_admits (hm : 0 < m)
    (h : (scaled (target m q) k).admits (n * unit (target m q) k) = true) : Near m q (n * 10 ^ k) := by
  obtain ⟨hbelow, habove, hopen⟩ := admits_spec h
  have hfactor : (0 : ℚ) < denominator q * lift k := by
    exact_mod_cast Nat.mul_pos (denominator_pos q) (lift_pos k)
  have hden : ((target m q).den : ℚ) = denominator q := rfl
  have hpoint : ((n * unit (target m q) k : Nat) : ℚ) = n * 10 ^ k * (denominator q * lift k) := by
    push_cast
    rw [unit_eq, hden]
    ring
  have hlow : (((scaled (target m q) k).below : Nat) : ℚ) =
      (m - lowerGap m q) * 2 ^ q * (denominator q * lift k) := by
    change (((target m q).below * lift k : Nat) : ℚ) = _
    push_cast
    rw [target_below hm]
    ring
  have hhigh : (((scaled (target m q) k).above : Nat) : ℚ) =
      (m + 1 / 2) * 2 ^ q * (denominator q * lift k) := by
    change (((target m q).above * lift k : Nat) : ℚ) = _
    push_cast
    rw [target_above]
    ring
  have hbelow' : (((scaled (target m q) k).below : Nat) : ℚ) ≤ (n * unit (target m q) k : Nat) := by
    exact_mod_cast hbelow
  have habove' : ((n * unit (target m q) k : Nat) : ℚ) ≤ ((scaled (target m q) k).above : Nat) := by
    exact_mod_cast habove
  rw [hlow, hpoint] at hbelow'
  rw [hhigh, hpoint] at habove'
  refine ⟨le_of_mul_le_mul_right hbelow' hfactor, le_of_mul_le_mul_right habove' hfactor, fun hodd => ?_⟩
  obtain ⟨hb, ha⟩ := hopen (by simp [scaled, target, hodd])
  have hb' : (((scaled (target m q) k).below : Nat) : ℚ) < (n * unit (target m q) k : Nat) := by
    exact_mod_cast hb
  have ha' : ((n * unit (target m q) k : Nat) : ℚ) < ((scaled (target m q) k).above : Nat) := by
    exact_mod_cast ha
  rw [hlow, hpoint] at hb'
  rw [hhigh, hpoint] at ha'
  exact ⟨lt_of_mul_lt_mul_right hb' hfactor.le, lt_of_mul_lt_mul_right ha' hfactor.le⟩

theorem dropZeros_value (fuel d : Nat) (e : Int) :
    ((dropZeros fuel d e).digits : ℚ) * 10 ^ (dropZeros fuel d e).exponent = d * 10 ^ e := by
  induction fuel generalizing d e with
  | zero => rfl
  | succ fuel ih =>
    unfold dropZeros
    split
    · next h =>
      obtain ⟨n, hn⟩ := Nat.dvd_of_mod_eq_zero h.2
      have hdiv : d / 10 = n := by omega
      rw [ih, hdiv, zpow_add_one₀ (by norm_num), hn]
      push_cast
      ring
    · rfl

theorem search_eq (hgrid : t.onGrid tie (e - 16) ≠ none) :
    ∀ (fuel count : Nat), 0 < fuel → count + fuel = 18 →
      ∃ n k, t.onGrid tie k = some n ∧ search t tie e fuel count = dropZeros 20 n k
  | fuel + 1, count, _, hsum => by
    unfold search
    dsimp only
    split
    · next n hn => exact ⟨n, _, hn, rfl⟩
    · next hnone =>
      rcases Nat.eq_zero_or_pos fuel with rfl | hfuel
      · have hlast : e - (count : Int) + 1 = e - 16 := by omega
        rw [hlast] at hnone
        exact absurd hnone hgrid
      · exact search_eq hgrid fuel (count + 1) hfuel (by omega)

theorem decimalExponent_le {num : Nat} (hnum : 0 < num) (den : Nat) :
    (10 : ℚ) ^ decimalExponent num den * den ≤ num := by
  have hlow := Decimal.pow_digitCount_le hnum
  have hpos := Decimal.digitCount_pos num
  have hden := Decimal.lt_pow_digitCount den
  unfold decimalExponent
  extract_lets guess power fits
  have hpower : (power : ℚ) = 10 ^ (guess.natAbs : Int) := by
    simp only [power]
    exact_mod_cast rfl
  split
  · next hfits =>
    simp only [fits] at hfits
    split at hfits
    · next hge =>
      rw [← Int.natAbs_of_nonneg hge, ← hpower]
      exact_mod_cast hfits
    · next hlt =>
      have hneg : guess = -(guess.natAbs : Int) := by omega
      rw [hneg, zpow_neg, ← hpower, inv_mul_le_iff₀ (by rw [hpower]; positivity), mul_comm]
      exact_mod_cast hfits
  · have hdenQ : (den : ℚ) ≤ 10 ^ (digitCount den : Int) := by exact_mod_cast hden.le
    have hlowQ : (10 : ℚ) ^ ((digitCount num : Int) - 1) ≤ num := by
      have hcast : ((digitCount num : Int) - 1) = ((digitCount num - 1 : Nat) : Int) := by omega
      rw [hcast]
      exact_mod_cast hlow
    calc (10 : ℚ) ^ (guess - 1) * den
        ≤ 10 ^ (guess - 1) * 10 ^ (digitCount den : Int) := by gcongr
      _ = 10 ^ ((digitCount num : Int) - 1) := by
          rw [← zpow_add₀ (by norm_num)]
          congr 1
          omega
      _ ≤ num := hlowQ

theorem scale_pos (q : Int) : 0 < scale q := by
  unfold scale
  split
  · exact Nat.two_pow_pos _
  · decide

theorem unit_pos (hden : 0 < t.den) (k : Int) : 0 < unit t k := by
  unfold unit
  split
  · exact Nat.mul_pos (Nat.pow_pos (by decide)) hden
  · exact hden

/-- The grid of seventeen digits has at least `10 ^ 16` points below the number. -/
theorem unit_le (hnum : 0 < t.num) (hk : decimalExponent t.num t.den = k + 16) :
    10 ^ 16 * unit t k ≤ (scaled t k).num := by
  have hexp := decimalExponent_le hnum t.den
  have hpow : (10 : ℚ) ^ (k + 16) = 10 ^ k * 10 ^ 16 := zpow_add₀ (by norm_num) k 16
  rw [hk, hpow] at hexp
  have hcast : ((10 ^ 16 * unit t k : Nat) : ℚ) ≤ (t.num * lift k : Nat) := by
    have hassoc : ((10 ^ 16 * unit t k : Nat) : ℚ) = 10 ^ k * 10 ^ 16 * t.den * (lift k : ℚ) := by
      push_cast
      rw [unit_eq]
      ring
    rw [hassoc]
    push_cast
    gcongr
  exact_mod_cast hcast

/-- Two neighbouring points of a grid that has `10 ^ 16` points below the number are closer to each
other than the ends of the interval. -/
theorem width_lt {F u : Nat} (hc : Canonical m q) (hF : 0 < F) (hu : 10 ^ 16 * u ≤ 4 * m * F) :
    u + (4 * m - if m = 2 ^ 52 ∧ q ≠ -1074 then 1 else 2) * F < (4 * m + 2) * F := by
  have hlt : m * F < 2 ^ 53 * F := Nat.mul_lt_mul_of_pos_right hc.lt hF
  have hpos : 1 * F ≤ m * F := Nat.mul_le_mul_right F hc.pos
  rw [Nat.mul_assoc] at hu
  rw [Nat.add_mul, Nat.sub_mul, Nat.mul_assoc]
  split
  · next h =>
    rw [h.1] at hu hlt hpos ⊢
    omega
  · omega

/-- On the grid of seventeen digits the number has a neighbour inside its interval. -/
theorem onGrid_seventeen (hc : Canonical m q) (tie : Tie) :
    (target m q).onGrid tie (decimalExponent (target m q).num (target m q).den - 16) ≠ none := by
  intro hnone
  generalize hk : decimalExponent (target m q).num (target m q).den - 16 = k at hnone
  obtain ⟨hbelow, habove⟩ := onGrid_none hnone
  have hF : 0 < scale q * lift k := Nat.mul_pos (scale_pos q) (lift_pos k)
  have hnum : (scaled (target m q) k).num = 4 * m * (scale q * lift k) := Nat.mul_assoc _ _ _
  have hlower : (scaled (target m q) k).below =
      (4 * m - if m = 2 ^ 52 ∧ q ≠ -1074 then 1 else 2) * (scale q * lift k) := Nat.mul_assoc _ _ _
  have hupper : (scaled (target m q) k).above = (4 * m + 2) * (scale q * lift k) := Nat.mul_assoc _ _ _
  have hnumpos : 0 < (target m q).num :=
    Nat.mul_pos (Nat.mul_pos (by decide) hc.pos) (scale_pos q)
  have hunit := unit_le hnumpos (show _ = k + 16 by omega)
  have hden : 0 < (target m q).den := denominator_pos q
  have hunitpos := unit_pos hden k
  have hwidth := width_lt hc hF (hnum ▸ hunit)
  rw [← hlower, ← hupper] at hwidth
  have hlow := Nat.div_mul_le_self (scaled (target m q) k).num (unit (target m q) k)
  have hhigh := Nat.lt_mul_div_succ (scaled (target m q) k).num hunitpos
  rw [Nat.mul_comm] at hhigh
  have hquotient : 0 < (scaled (target m q) k).num / unit (target m q) k :=
    Nat.div_pos (by omega) hunitpos
  have hb := admits_cases (hbelow hquotient)
  have ha := admits_cases habove
  have hinside : (scaled (target m q) k).below ≤ (scaled (target m q) k).num ∧
      (scaled (target m q) k).num < (scaled (target m q) k).above := by
    rw [hnum, hlower, hupper]
    exact ⟨Nat.mul_le_mul_right _ (Nat.sub_le _ _), Nat.mul_lt_mul_of_pos_right (by omega) hF⟩
  rw [Nat.add_mul, Nat.one_mul] at hhigh ha
  omega

/-- The shortest decimal of a number lies in the interval of the reals that round to it. -/
theorem decimal_near (tie : Tie) (hc : Canonical m q) (hparts : parts x = (m, q)) :
    Near m q ((decimal tie x).digits * 10 ^ (decimal tie x).exponent) := by
  obtain ⟨n, k, hgrid, hsearch⟩ := search_eq (onGrid_seventeen hc tie) 17 1 (by decide) (by decide)
  have heq : decimal tie x = dropZeros 20 n k := by
    have hpos := hc.pos
    rw [decimal, hparts]
    simp only [if_neg (show m ≠ 0 by omega)]
    exact hsearch
  rw [heq, dropZeros_value]
  exact near_of_admits hc.pos (onGrid_sound hgrid)

end SignalEvolution.Shortest

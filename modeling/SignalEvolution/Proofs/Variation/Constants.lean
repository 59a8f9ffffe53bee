import SignalEvolution.Proofs.Evolution.Settings
import SignalEvolution.Proofs.Random.Normal
import SignalEvolution.Proofs.Variation.Inheritance

/-! # Constants and their domain

Settings give the least and the greatest constant. The generator draws from the part of that
domain between 0 and 100, or from all of it where there is no such part. It rounds to two
decimal places after that, which may lead out of the domain again. A mutated constant is
brought into the domain last.
-/
namespace SignalEvolution

open Binary
open Draw (Always)
open PartialDraw (Unless)

variable {σ : Type} [WordSource σ] {s : EvolutionSettings} {g : Generator} {x y : Float}

/-- A constant has a property; other kinds have none to meet. -/
def Kind.ConstantIs (P : Float → Prop) : Kind → Prop
  | .constant x => P x
  | _ => True

namespace Generator

/-- A number to two decimal places. -/
def cents (x : Float) : Float := roundHalfAway (x * 100) / 100

theorem hasValue_hundred : HasValue 100 100 := by
  exact_mod_cast hasValue_ofNat (show 100 < 2 ^ 53 by decide)

theorem hundred_finite : (100 : Float).isFinite = true :=
  hasValue_hundred.isFinite_of_le (by norm_num)

theorem hundred_pos : 0 < value 100 := by
  rw [hasValue_hundred.value]
  norm_num

/-- Scaling, rounding and scaling back are all monotone. -/
theorem cents_mono (hx : x.isFinite = true) (hy : y.isFinite = true) (h : x ≤ y) : cents x ≤ cents y := by
  have hx' := hasValue_mul hx hundred_finite
  have hy' := hasValue_mul hy hundred_finite
  have hx'' := hasValue_roundHalfAway hx'.number
  have hy'' := hasValue_roundHalfAway hy'.number
  have hle := (le_iff_value (isNaN_of_isFinite hx) (isNaN_of_isFinite hy)).mp h
  have hscaled : value (x * 100) ≤ value (y * 100) := by
    rw [hx'.value, hy'.value]
    exact nearestValue_mono (mul_le_mul_of_nonneg_right hle hundred_pos.le)
  have hround : roundHalfAway (x * 100) ≤ roundHalfAway (y * 100) := by
    rw [le_iff_value hx''.number hy''.number, hx''.value, hy''.value]
    exact round_mono hscaled
  exact div_mono hx''.number hy''.number hundred_finite hundred_pos hround

/-- A constant that the generator may draw: a number of its range, to two decimal places. -/
def Fresh (g : Generator) (c : Float) : Prop :=
  ∃ x, g.constantLow ≤ x ∧ x < g.constantHigh ∧ c = cents x

/-- The generator draws from a range of finite width in the domain of the settings. -/
structure DrawsWithin (g : Generator) (s : EvolutionSettings) : Prop where
  low : s.constantMin ≤ g.constantLow
  order : g.constantLow < g.constantHigh
  high : g.constantHigh ≤ s.constantMax
  width : (g.constantHigh - g.constantLow).isFinite = true

end Generator

namespace EvolutionSettings

/-- The domain of constants is not empty and has finite ends. -/
structure FiniteDomain (s : EvolutionSettings) : Prop where
  least : s.constantMin.isFinite = true
  greatest : s.constantMax.isFinite = true
  order : s.constantMin < s.constantMax

/-- The constant is in the domain of the settings. -/
def InDomain (s : EvolutionSettings) (c : Float) : Prop := s.constantMin ≤ c ∧ c ≤ s.constantMax

end EvolutionSettings

namespace Generator

/-- A range on one side of zero is no wider than its farther end is far. -/
theorem width_finite (hx : x.isFinite = true) (hy : y.isFinite = true) (hle : value x ≤ value y)
    (hside : 0 ≤ value x ∨ value y ≤ 0) : (y - x).isFinite = true := by
  have hwidth := hasValue_sub hy hx
  have hpos := beyond_pos
  have hnonneg : 0 ≤ nearestValue (value y - value x) := nearestValue_nonneg (by linarith)
  apply hwidth.isFinite (by linarith)
  rcases hside with hside | hside
  · have hless := ((isFinite_iff (isNaN_of_isFinite hy)).mp hy).2
    calc nearestValue (value y - value x) ≤ nearestValue (value y) := nearestValue_mono (by linarith)
      _ = value y := nearestValue_value hy
      _ < beyond := hless
  · obtain ⟨hlow, hhigh⟩ := (isFinite_iff (isNaN_of_isFinite hx)).mp hx
    have hneg := hasValue_neg (isNaN_of_isFinite hx)
    have hfinite : (-x).isFinite = true := hneg.isFinite (by linarith) (by linarith)
    calc nearestValue (value y - value x) ≤ nearestValue (value (-x)) :=
          nearestValue_mono (by rw [hneg.value]; linarith)
      _ = -value x := by rw [nearestValue_value hfinite, hneg.value]
      _ < beyond := by linarith

theorem withConstants_drawsWithin (hx : x.isFinite = true) (hy : y.isFinite = true) (h : x < y)
    (hlow : s.constantMin ≤ x) (hhigh : y ≤ s.constantMax) (hside : 0 ≤ value x ∨ value y ≤ 0) :
    (g.withConstants x y).DrawsWithin s := by
  have hlt := (lt_iff_value (isNaN_of_isFinite hx) (isNaN_of_isFinite hy)).mp h
  rw [withConstants, if_pos h]
  exact ⟨hlow, h, hhigh, width_finite hx hy hlt.le hside⟩

theorem lower_end (hx : x.isFinite = true) :
    x ≤ Scalar.max x 0 ∧ 0 ≤ value (Scalar.max x 0) ∧ (Scalar.max x 0).isFinite = true := by
  have hnan := isNaN_of_isFinite hx
  have hzero := hasValue_zero
  rcases max_cases hnan hzero.number with ⟨heq, hle⟩ | ⟨heq, hle⟩
  · rw [heq]
    exact ⟨hle, hzero.value.ge, hzero.isFinite_of_le (by norm_num)⟩
  · rw [heq]
    rw [le_iff_value hzero.number hnan, hzero.value] at hle
    exact ⟨le_self hnan, hle, hx⟩

theorem upper_end (hx : x.isFinite = true) :
    Scalar.min x 100 ≤ x ∧ (Scalar.min x 100).isFinite = true := by
  have hnan := isNaN_of_isFinite hx
  rcases min_cases hnan hasValue_hundred.number with ⟨heq, hle⟩ | ⟨heq, hle⟩
  · rw [heq]
    exact ⟨hle, hundred_finite⟩
  · rw [heq]
    exact ⟨le_self hnan, hx⟩

/-- A domain without a part from 0 to 100 lies on one side of zero. -/
theorem side_of_no_part (hx : x.isFinite = true) (hy : y.isFinite = true)
    (h : ¬ Scalar.max x 0 < Scalar.min y 100) : 0 ≤ value x ∨ value y ≤ 0 := by
  have hxnan := isNaN_of_isFinite hx
  have hynan := isNaN_of_isFinite hy
  have hzero := hasValue_zero
  have hhundred := hasValue_hundred
  rcases max_cases hxnan hzero.number with ⟨hmax, -⟩ | ⟨-, hle⟩
  · right
    rw [hmax] at h
    rcases min_cases hynan hhundred.number with ⟨hmin, -⟩ | ⟨hmin, -⟩
    · rw [hmin, lt_iff_value hzero.number hhundred.number, hzero.value, hhundred.value] at h
      norm_num at h
    · rw [hmin, lt_iff_value hzero.number hynan, hzero.value] at h
      exact not_lt.mp h
  · left
    rwa [le_iff_value hzero.number hxnan, hzero.value] at hle

theorem ofSettings_drawsWithin (h : s.FiniteDomain) : (ofSettings s).DrawsWithin s := by
  obtain ⟨hlow, hside, hlowfinite⟩ := lower_end h.least
  obtain ⟨hhigh, hhighfinite⟩ := upper_end h.greatest
  simp only [ofSettings]
  split
  · next hpart =>
    exact withConstants_drawsWithin hlowfinite hhighfinite hpart hlow hhigh (.inl hside)
  · next hpart =>
    exact withConstants_drawsWithin h.least h.greatest h.order (le_self (isNaN_of_isFinite h.least))
      (le_self (isNaN_of_isFinite h.greatest)) (side_of_no_part h.least h.greatest hpart)

/-- The ends of the range are finite, for they lie between those of the domain. -/
theorem DrawsWithin.ends (hg : g.DrawsWithin s) (h : s.FiniteDomain) :
    g.constantLow.isFinite = true ∧ g.constantHigh.isFinite = true := by
  obtain ⟨hlownan, hhighnan⟩ := numbers_of_lt hg.order
  have hleast := isNaN_of_isFinite h.least
  have hgreatest := isNaN_of_isFinite h.greatest
  have hlow := (le_iff_value hleast hlownan).mp hg.low
  have horder := (lt_iff_value hlownan hhighnan).mp hg.order
  have hhigh := (le_iff_value hhighnan hgreatest).mp hg.high
  have hbelow := ((isFinite_iff hleast).mp h.least).1
  have habove := ((isFinite_iff hgreatest).mp h.greatest).2
  rw [isFinite_iff hlownan, isFinite_iff hhighnan]
  exact ⟨⟨by linarith, by linarith⟩, by linarith, by linarith⟩

/-- A constant from the range lies between its ends to two decimal places. -/
theorem DrawsWithin.between {c : Float} (hg : g.DrawsWithin s) (h : s.FiniteDomain) (hc : g.Fresh c) :
    cents g.constantLow ≤ c ∧ c ≤ cents g.constantHigh := by
  obtain ⟨x, hlow, hhigh, rfl⟩ := hc
  obtain ⟨hlowfinite, hhighfinite⟩ := hg.ends h
  have hx : x.isFinite = true := by
    obtain ⟨hnan, hhighnan⟩ := numbers_of_lt hhigh
    have hbelow := (le_iff_value (isNaN_of_isFinite hlowfinite) hnan).mp hlow
    have habove := (lt_iff_value hnan hhighnan).mp hhigh
    rw [isFinite_iff hnan]
    exact ⟨((isFinite_iff (isNaN_of_isFinite hlowfinite)).mp hlowfinite).1.trans_le hbelow,
      habove.trans ((isFinite_iff hhighnan).mp hhighfinite).2⟩
  exact ⟨cents_mono hlowfinite hx hlow, cents_mono hx hhighfinite (number_le_of_lt hhigh)⟩

/-- Where rounding keeps the ends of the domain in it, it keeps all constants in it. -/
theorem DrawsWithin.fresh_inDomain {c : Float} (hg : g.DrawsWithin s) (h : s.FiniteDomain)
    (hleast : s.constantMin ≤ cents s.constantMin) (hgreatest : cents s.constantMax ≤ s.constantMax)
    (hc : g.Fresh c) : s.InDomain c := by
  obtain ⟨hlow, hhigh⟩ := hg.ends h
  obtain ⟨habove, hbelow⟩ := hg.between h hc
  have hfirst := cents_mono h.least hlow hg.low
  have hlast := cents_mono hhigh h.greatest hg.high
  exact ⟨number_le_trans (number_le_trans hleast hfirst) habove,
    number_le_trans (number_le_trans hbelow hlast) hgreatest⟩

theorem DrawsWithin.ready (hg : g.DrawsWithin s) : g.Ready := ⟨hg.order, hg.width⟩

theorem constant_fresh (hlow : g.constantLow.isFinite = true) (hhigh : g.constantHigh.isFinite = true) :
    Unless (g.constant : PartialDraw σ Tree) (¬ g.Ready) (Tree.Every (Kind.ConstantIs g.Fresh)) := by
  apply (Draw.below_range hlow hhigh).bind
  rintro x ⟨hleast, hless⟩
  exact Unless.pure (Tree.every_leaf ⟨x, hleast, hless, rfl⟩)

theorem DrawsWithin.draws (hg : g.DrawsWithin s) (h : s.FiniteDomain) :
    g.Draws σ (Kind.ConstantIs g.Fresh) where
  operator _ := trivial
  comparator _ := trivial
  series _ := trivial
  constant := constant_fresh (hg.ends h).1 (hg.ends h).2
  indicator := by
    apply Always.after
    intro n
    apply Always.after
    intro params
    exact Always.pure (Tree.every_leaf trivial)

theorem spot_zero (hlow : x.isFinite = true) (hwidth : (y - x).isFinite = true) :
    Draw.spot x y 0 ≤ x ∧ x ≤ Draw.spot x y 0 := by
  have hzero : HasValue (Draw.ofHighBits 0) 0 := by
    have h := Draw.hasValue_ofHighBits 0
    have hshare : Draw.share 0 = 0 := by norm_num [Draw.share, Draw.fractionOf]
    rwa [hshare] at h
  have hscaled := hasValue_mul (hzero.isFinite_of_le (by norm_num)) hwidth
  rw [hzero.value, zero_mul, nearestValue_zero] at hscaled
  have hspot : HasValue (Draw.spot x y 0) (value x) := by
    have h := hasValue_add (hscaled.isFinite_of_le (by norm_num)) hlow
    rwa [hscaled.value, zero_add, nearestValue_value hlow] at h
  have hnan := isNaN_of_isFinite hlow
  rw [le_iff_value hspot.number hnan, le_iff_value hnan hspot.number, hspot.value]
  exact ⟨le_rfl, le_rfl⟩

theorem below_first {w : UInt64} (words : List UInt64) (state : UInt64) (hrange : Draw.Drawable x y)
    (h : Draw.spot x y w < y) : (Draw.below x y).run (⟨w :: words, state⟩ : ListedWords) =
      some (Draw.spot x y w, ⟨words, state⟩) := by
  obtain ⟨n, hn⟩ : ∃ n, Draw.patience = n + 1 := ⟨Nat.pow 2 32 - 1, by decide⟩
  rw [Draw.below, if_pos hrange, hn]
  change some (StateT.run (if Draw.spot x y w < y then pure (Draw.spot x y w) else Draw.belowFrom x y n)
    (⟨words, state⟩ : ListedWords)) = _
  rw [if_pos h]
  rfl

/-- The first word asks for a constant and the second one settles which. -/
theorem terminal_constant (hready : g.Ready) (h : Draw.spot g.constantLow g.constantHigh 0 < g.constantHigh) :
    g.terminal.run (⟨[0x8000000000000000, 0], 0⟩ : ListedWords) =
      some (.constant (cents (Draw.spot g.constantLow g.constantHigh 0)), ⟨[], 0⟩) := by
  change (((Draw.below g.constantLow g.constantHigh).run (⟨[0], 0⟩ : ListedWords)).bind fun r =>
    some (Tree.constant (cents r.1), r.2)) = _
  rw [below_first [] 0 hready h, Option.bind_some]

theorem terminal_low_end (hlow : g.constantLow.isFinite = true) (hready : g.Ready) :
    ∃ x, x ≤ g.constantLow ∧ g.constantLow ≤ x ∧
      g.terminal.run (⟨[0x8000000000000000, 0], 0⟩ : ListedWords) =
        some (.constant (cents x), ⟨[], 0⟩) := by
  obtain ⟨hle, hge⟩ := spot_zero hlow hready.2
  obtain ⟨hnan, hlownan⟩ := numbers_of_le hle
  obtain ⟨-, hhighnan⟩ := numbers_of_lt hready.1
  have hspot : Draw.spot g.constantLow g.constantHigh 0 < g.constantHigh := by
    rw [lt_iff_value hnan hhighnan]
    exact ((le_iff_value hnan hlownan).mp hle).trans_lt ((lt_iff_value hlownan hhighnan).mp hready.1)
  exact ⟨_, hle, hge, terminal_constant hready hspot⟩

end Generator

namespace EvolutionSettings

variable {x : Float}

theorem clampConstant_inDomain (h : s.FiniteDomain) (hx : x.isNaN = false) :
    s.InDomain (s.clampConstant x) := by
  have hleast := isNaN_of_isFinite h.least
  have hgreatest := isNaN_of_isFinite h.greatest
  have horder := number_le_of_lt h.order
  rw [clampConstant, if_pos horder]
  rcases clamp_cases hleast hgreatest hx with heq | heq | ⟨heq, hlow, hhigh⟩
  · rw [heq]
    exact ⟨le_self hleast, horder⟩
  · rw [heq]
    exact ⟨horder, le_self hgreatest⟩
  · rw [heq]
    exact ⟨hlow, hhigh⟩

end EvolutionSettings

namespace Tree

/-- The deviation of a mutation is positive, and infinite around an infinite constant. -/
theorem deviation_spec (hx : x.isNaN = false) : 0 < Binary.value (Scalar.max (x.abs * 0.1) 1) ∧
    (x.isFinite = false → (Scalar.max (x.abs * 0.1) 1).isFinite = false) := by
  have htenth : (0.1 : Float).isFinite = true := by decide +kernel
  have hpos : 0 < Binary.value 0.1 := by
    have h : (0 : Float) < 0.1 := by decide +kernel
    rwa [lt_iff_value hasValue_zero.number (isNaN_of_isFinite htenth), hasValue_zero.value] at h
  have hmagnitude := hasValue_abs hx
  have hscaled := (isNaN_scaled hmagnitude.number htenth hpos).1
  have hgrown : x.isFinite = false → Binary.value (x.abs * 0.1) = beyond := by
    intro hinf
    have habs : Binary.value x.abs = beyond := by
      rw [hmagnitude.value]
      rcases value_infinite hx hinf with hvalue | hvalue
      · rw [hvalue, abs_of_pos beyond_pos]
      · rw [hvalue, abs_neg, abs_of_pos beyond_pos]
    have hinf' : x.abs.isFinite = false := isFinite_of_beyond hmagnitude.number habs
    rw [((hasValue_infinite hmagnitude.number hinf' htenth).2.2 hpos).1.value, habs]
  have hone := hasValue_one
  have hlimit := pow_lt_beyond
  rcases max_cases hscaled hone.number with ⟨heq, hle⟩ | ⟨heq, hle⟩
  · rw [heq, hone.value]
    rw [le_iff_value hscaled hone.number, hone.value] at hle
    refine ⟨one_pos, ?_⟩
    intro hinf
    rw [hgrown hinf] at hle
    linarith
  · rw [heq]
    rw [le_iff_value hone.number hscaled, hone.value] at hle
    exact ⟨by linarith, fun hinf => isFinite_of_beyond hscaled (hgrown hinf)⟩

/-- A constant that is a number is moved to a number, and that is brought into the domain. -/
theorem mutateKind_constant (h : s.FiniteDomain) (hlog : Draw.LogIsNumber) (hx : x.isNaN = false) :
    Always (mutateKind s (.constant x) : Draw σ Kind) fun k =>
      ∃ c, k = .constant c ∧ s.InDomain c := by
  obtain ⟨hpos, hinfinite⟩ := deviation_spec hx
  apply (Draw.normal_number hlog hpos).bind
  rintro delta ⟨hdelta, hstill⟩
  apply Always.pure
  refine ⟨_, rfl, EvolutionSettings.clampConstant_inDomain h ?_⟩
  cases hfinite : x.isFinite with
  | true => exact (isNaN_add hdelta hfinite).2
  | false =>
    rw [hstill (hinfinite hfinite)]
    exact (isNaN_add hx (hasValue_zero.isFinite_of_le (by norm_num))).1

/-- The new kind is a constant of the domain where the old one was a number. -/
theorem pointMutation_constant (h : s.FiniteDomain) (hlog : Draw.LogIsNumber) (t : Tree) :
    Always (t.pointMutation s : Draw σ Tree) fun u => u = t ∨
      ∃ path ∈ t.paths, ∃ target, t.get? path = some target ∧
        ∃ kind, u = t.graft path (.node kind target.children) ∧
          ∀ x, target.kind = .constant x → x.isNaN = false → ∃ c, kind = .constant c ∧ s.InDomain c := by
  have hkind : ∀ k, Always (mutateKind s k : Draw σ Kind) fun l =>
      ∀ x, k = .constant x → x.isNaN = false → ∃ c, l = .constant c ∧ s.InDomain c := by
    intro k
    constructor
    rintro w x rfl hx
    exact (mutateKind_constant h hlog hx).holds w
  apply (pointMutation_result s hkind t).imp
  rintro u (rfl | ⟨path, hpath, target, hget, kind, hkind, rfl⟩)
  · exact .inl rfl
  · exact .inr ⟨path, hpath, target, hget, kind, rfl, hkind⟩

end Tree

/-- Settings that pass their check with finite ends of the domain. The generator draws constants
from a part of the domain that has a finite width, to two decimal places: they lie between the
ends of that part so rounded, of which the lower one is drawn for some words, and in the domain
itself if its own ends are not rounded out of it. A mutated constant is in the domain, as far as
logarithms of positive numbers are numbers. -/
theorem EvolutionSettings.fresh_and_mutated_constants (hcheck : s.check = .ok ())
    (hmin : s.constantMin.isFinite = true) (hmax : s.constantMax.isFinite = true) :
    let g := Generator.ofSettings s
    (s.constantMin ≤ g.constantLow ∧ g.constantLow < g.constantHigh ∧ g.constantHigh ≤ s.constantMax ∧
      (g.constantHigh - g.constantLow).isFinite = true) ∧
    (Unless (g.terminal : PartialDraw σ Tree) False (Tree.Every (Kind.ConstantIs g.Fresh)) ∧
      (∀ budget, Unless (g.tree budget : PartialDraw σ Tree) False (Tree.Every (Kind.ConstantIs g.Fresh))) ∧
      Unless (g.signal : PartialDraw σ Tree) False (Tree.Every (Kind.ConstantIs g.Fresh))) ∧
    (∀ c, g.Fresh c → Generator.cents g.constantLow ≤ c ∧ c ≤ Generator.cents g.constantHigh) ∧
    (∃ x, x ≤ g.constantLow ∧ g.constantLow ≤ x ∧
      g.terminal.run (⟨[0x8000000000000000, 0], 0⟩ : ListedWords) =
        some (.constant (Generator.cents x), ⟨[], 0⟩)) ∧
    (s.constantMin ≤ Generator.cents s.constantMin → Generator.cents s.constantMax ≤ s.constantMax →
      ∀ c, g.Fresh c → s.InDomain c) ∧
    (Draw.LogIsNumber → ∀ t : Tree, Always (t.pointMutation s : Draw σ Tree) fun u => u = t ∨
      ∃ path ∈ t.paths, ∃ target, t.get? path = some target ∧
        ∃ kind, u = t.graft path (.node kind target.children) ∧
          ∀ x, target.kind = .constant x → x.isNaN = false →
            ∃ c, kind = .constant c ∧ s.InDomain c) := by
  intro g
  have hdomain : s.FiniteDomain := ⟨hmin, hmax, (EvolutionSettings.check_eq_ok_iff.mp hcheck).constants⟩
  have hg : g.DrawsWithin s := Generator.ofSettings_drawsWithin hdomain
  have hdraws : g.Draws σ (Kind.ConstantIs g.Fresh) := hg.draws hdomain
  have hready : ¬ ¬ g.Ready := not_not_intro hg.ready
  refine ⟨⟨hg.low, hg.order, hg.high, hg.width⟩,
    ⟨hdraws.terminal.total hready, fun budget => (hdraws.tree budget).total hready,
      hdraws.signal.total hready⟩, ?_, ?_, ?_, ?_⟩
  · intro c hc
    exact hg.between hdomain hc
  · exact Generator.terminal_low_end (hg.ends hdomain).1 hg.ready
  · intro hleast hgreatest c hc
    exact hg.fresh_inDomain hdomain hleast hgreatest hc
  · intro hlog t
    exact Tree.pointMutation_constant hdomain hlog t

/-- The default settings, and a mutation of the constant 5. -/
theorem EvolutionSettings.fresh_and_mutated_constants_default :
    let s := EvolutionSettings.default
    let g := Generator.ofSettings s
    s.check = .ok () ∧ s.constantMin.isFinite = true ∧ s.constantMax.isFinite = true ∧
    Unless (g.signal : PartialDraw ListedWords Tree) False (Tree.Every (Kind.ConstantIs g.Fresh)) ∧
    (∀ c, g.Fresh c → s.InDomain c) ∧
    (Draw.LogIsNumber → Always ((Tree.constant 5).pointMutation s : Draw ListedWords Tree) fun u =>
      ∃ c, u = .constant c ∧ s.InDomain c) := by
  intro s g
  have hcheck : EvolutionSettings.default.check = .ok () := by rfl
  have hmin : s.constantMin.isFinite = true := by decide +kernel
  have hmax : s.constantMax.isFinite = true := by decide +kernel
  obtain ⟨-, ⟨-, -, hsignal⟩, -, -, hinside, hmutated⟩ :=
    fresh_and_mutated_constants (σ := ListedWords) hcheck hmin hmax
  refine ⟨hcheck, hmin, hmax, hsignal, hinside (by decide +kernel) (by decide +kernel), ?_⟩
  intro hlog
  apply (hmutated hlog (.constant 5)).imp
  rintro u (rfl | ⟨path, hpath, target, hget, kind, rfl, hconstant⟩)
  · exact ⟨5, rfl, by decide +kernel, by decide +kernel⟩
  · obtain rfl : path = [] := by simpa [Tree.constant, Tree.paths, Tree.childPaths] using hpath
    obtain rfl : Tree.constant 5 = target := by simpa [Tree.get?] using hget
    obtain ⟨c, rfl, hc⟩ := hconstant 5 rfl (by decide +kernel)
    exact ⟨c, rfl, hc⟩

/-- A domain without a number of two decimal places: the constant that is drawn is rounded to zero
and lies below it. -/
theorem EvolutionSettings.fresh_constant_outside_domain :
    let s : EvolutionSettings := { EvolutionSettings.default with constantMin := 0.001, constantMax := 0.004 }
    let words : ListedWords := ⟨[0x8000000000000000, 0], 0⟩
    s.check = .ok () ∧ s.constantMin.isFinite = true ∧ s.constantMax.isFinite = true ∧
    ∃ c, (Generator.ofSettings s).terminal.run words = some (.constant c, ⟨[], 0⟩) ∧ ¬ s.InDomain c := by
  intro s words
  have hvalid : s.Valid := by
    constructor
    case rates => decide +kernel
    case convergenceWindow => exact fun hstop => Bool.noConfusion hstop
    all_goals decide +kernel
  let g := Generator.ofSettings s
  have hrun := Generator.terminal_constant (g := g) (by decide +kernel) (by decide +kernel)
  have hout : ¬ s.constantMin ≤ Generator.cents (Draw.spot g.constantLow g.constantHigh 0) := by
    decide +kernel
  exact ⟨check_eq_ok_iff.mpr hvalid, by decide +kernel, by decide +kernel, _, hrun, fun hc => hout hc.1⟩

end SignalEvolution

import Mathlib
import SignalEvolution.Proofs.Arithmetic.Exact
import SignalEvolution.Proofs.Indicator.Calculation

/-! # Oscillators stay in their range

Three indicators declare a range for their readings. They divide by a smoothed loss or by the
extent of a window, and each has a reading of its own where that is nothing. Over rational numbers
no division is by zero and no reading leaves the declared range, as long as every close lies
between the low and the high of its bar.
-/
namespace SignalEvolution.Indicator

variable {n : Nat} {f : ℚ → ℚ} {xs : List ℚ} {bars : List (Bar ℚ)} {bar : Bar ℚ}
variable {start : ℚ × ℚ} {high low close gain loss : ℚ}

def oscillators : List Indicator := [relativeStrength, williamsRange, stochastic]

namespace Divided

def quotient? (x y : ℚ) : Option ℚ := if y = 0 then none else some (x / y)

def mean? (xs : List ℚ) : Option ℚ :=
  if xs.isEmpty then some 0 else quotient? (Scalar.sum xs) xs.length

def smoothed? (n : Nat) (f : ℚ → ℚ) (xs : List ℚ) : Option ℚ := do
  let first ← mean? ((xs.take n).map f)
  (xs.drop n).foldlM (fun average x => quotient? (average * (n - 1) + f x) n) first

def share? (gain loss : ℚ) : Option ℚ :=
  if loss = 0 then some (if gain = 0 then 50 else 100)
  else do return 100 - (← quotient? 100 (1 + (← quotient? gain loss)))

def relativeStrength? (n : Nat) (bars : List (Bar ℚ)) : Option ℚ := do
  let changes := pairwise (fun previous bar => bar.close - previous.close) bars
  let gain ← smoothed? n (fun d => Scalar.max d 0) changes
  let loss ← smoothed? n (fun d => Scalar.max (-d) 0) changes
  share? gain loss

/-- Highest high and lowest low, begun with numbers that no bar is meant to pass. -/
def extentFrom (start : ℚ × ℚ) (bars : List (Bar ℚ)) : ℚ × ℚ :=
  bars.foldl (fun e bar => (Scalar.max e.1 bar.high, Scalar.min e.2 bar.low)) start

def williams? (extent : ℚ × ℚ) (close : ℚ) : Option ℚ :=
  if extent.1 = extent.2 then some (-50)
  else quotient? (-100 * (extent.1 - close)) (extent.1 - extent.2)

def position? (extent : ℚ × ℚ) (close : ℚ) : Option ℚ :=
  if extent.1 = extent.2 then some 50
  else quotient? (100 * (close - extent.2)) (extent.1 - extent.2)

/-- A function of the extent of the last bars and of the last close. -/
def onWindow? (start : ℚ × ℚ) (n : Nat) (bars : List (Bar ℚ)) (f : ℚ × ℚ → ℚ → Option ℚ) : Option ℚ := do
  let window ← window? n bars
  f (extentFrom start window) (← window.getLast?).close

/-- The reading of an oscillator by quotients that fail where the divisor is zero. -/
def reading? (start : ℚ × ℚ) (i : Indicator) (params : Table ℚ) (bars : List (Bar ℚ)) : Option ℚ :=
  let n := i.periodSpec.bars params
  match i with
  | relativeStrength => if bars.length < n + 1 then none else relativeStrength? n bars
  | williamsRange => onWindow? start n bars williams?
  | stochastic => onWindow? start n bars position?
  | _ => none

theorem quotient?_eq {y : ℚ} (h : y ≠ 0) (x : ℚ) : quotient? x y = some (x / y) := if_neg h

theorem mean?_eq (xs : List ℚ) : mean? xs = some (Scalar.mean xs) := by
  rw [mean?, Exact.mean_eq, Exact.sum_eq]
  split
  · rfl
  · next h =>
    have hlength : (xs.length : ℚ) ≠ 0 := by simpa using h
    rw [quotient?_eq hlength]

end Divided

open Divided

theorem smooth_eq (n average x : ℚ) : smooth n average x = (average * (n - 1) + x) / n := rfl

theorem smoothed_eq (n : Nat) (f : ℚ → ℚ) (xs : List ℚ) : smoothed n f xs =
    (xs.drop n).foldl (fun average x => smooth (n : ℚ) average (f x)) (Scalar.mean ((xs.take n).map f)) := rfl

theorem smoothed?_eq (hn : 0 < n) (f : ℚ → ℚ) (xs : List ℚ) : smoothed? n f xs = some (smoothed n f xs) := by
  have hsize : (n : ℚ) ≠ 0 := Nat.cast_ne_zero.mpr hn.ne'
  have hfold : ∀ (rest : List ℚ) (average : ℚ),
      rest.foldlM (fun average x => quotient? (average * (n - 1) + f x) n) average =
        some (rest.foldl (fun average x => smooth (n : ℚ) average (f x)) average) := by
    intro rest
    induction rest with
    | nil => exact fun _ => rfl
    | cons x rest ih =>
      intro average
      rw [List.foldlM_cons, quotient?_eq hsize, Option.bind_eq_bind, Option.bind_some, ih]
      rfl
  rw [smoothed?, mean?_eq, Option.bind_eq_bind, Option.bind_some, hfold, smoothed_eq]

theorem mean_nonneg (h : ∀ x ∈ xs, 0 ≤ x) : 0 ≤ Scalar.mean xs := by
  rw [Exact.mean_eq]
  split
  · exact le_refl 0
  · exact div_nonneg (List.sum_nonneg h) (Nat.cast_nonneg _)

/-- Shares that are not negative make no average negative. -/
theorem smooth_nonneg {average x : ℚ} (hn : 0 < n) (ha : 0 ≤ average) (hx : 0 ≤ x) :
    0 ≤ smooth (n : ℚ) average x := by
  have hsize : (1 : ℚ) ≤ n := Nat.one_le_cast.mpr hn
  rw [smooth_eq]
  exact div_nonneg (add_nonneg (mul_nonneg ha (sub_nonneg.mpr hsize)) hx) (Nat.cast_nonneg n)

theorem smoothed_nonneg (hn : 0 < n) (hf : ∀ x, 0 ≤ f x) (xs : List ℚ) : 0 ≤ smoothed n f xs := by
  have hfold : ∀ (rest : List ℚ) (average : ℚ), 0 ≤ average →
      0 ≤ rest.foldl (fun average x => smooth (n : ℚ) average (f x)) average := by
    intro rest
    induction rest with
    | nil => exact fun _ ha => ha
    | cons x rest ih => exact fun average ha => ih _ (smooth_nonneg hn ha (hf x))
  rw [smoothed_eq]
  apply hfold
  apply mean_nonneg
  intro y hy
  obtain ⟨x, -, rfl⟩ := List.mem_map.mp hy
  exact hf x

/-- The gains in percent of gains and losses. -/
def share (gain loss : ℚ) : ℚ :=
  if loss = 0 then (if gain = 0 then 50 else 100) else 100 - 100 / (1 + gain / loss)

theorem share_between (hgain : 0 ≤ gain) (hloss : 0 ≤ loss) : 0 ≤ share gain loss ∧ share gain loss ≤ 100 := by
  rw [share]
  split
  · split <;> norm_num
  · have hratio : 1 ≤ 1 + gain / loss := le_add_of_nonneg_right (div_nonneg hgain hloss)
    have hpart : 100 / (1 + gain / loss) ≤ 100 := div_le_self (by norm_num) hratio
    have hnonneg : 0 ≤ 100 / (1 + gain / loss) := div_nonneg (by norm_num) (zero_le_one.trans hratio)
    exact ⟨sub_nonneg.mpr hpart, sub_le_self 100 hnonneg⟩

theorem share?_eq (hgain : 0 ≤ gain) (hloss : 0 ≤ loss) : share? gain loss = some (share gain loss) := by
  rw [share?, share]
  split
  · rfl
  · next hnone =>
    have hsum : 1 + gain / loss ≠ 0 := (add_pos_of_pos_of_nonneg one_pos (div_nonneg hgain hloss)).ne'
    rw [quotient?_eq hnone, Option.bind_eq_bind, Option.bind_some, quotient?_eq hsum]
    rfl

theorem strength_eq (n : Nat) (bars : List (Bar ℚ)) : strength n bars =
    share (smoothed n (fun d => Scalar.max d 0) (pairwise (fun previous bar => bar.close - previous.close) bars))
      (smoothed n (fun d => Scalar.max (-d) 0)
        (pairwise (fun previous bar => bar.close - previous.close) bars)) := by
  simp only [share, ← beq_iff_eq (a := smoothed n _ _)]
  rfl

theorem scalar_max_nonneg (x : ℚ) : 0 ≤ Scalar.max x 0 := by
  rw [Exact.max_eq]
  exact le_max_right x 0

theorem relativeStrength?_spec (hn : 0 < n) (bars : List (Bar ℚ)) :
    relativeStrength? n bars = some (strength n bars) ∧ 0 ≤ strength n bars ∧ strength n bars ≤ 100 := by
  have hgain := smoothed_nonneg hn (fun d => scalar_max_nonneg d)
    (pairwise (fun previous bar => bar.close - previous.close) bars)
  have hloss := smoothed_nonneg hn (fun d => scalar_max_nonneg (-d))
    (pairwise (fun previous bar => bar.close - previous.close) bars)
  rw [strength_eq]
  refine ⟨?_, share_between hgain hloss⟩
  simp only [relativeStrength?, smoothed?_eq hn, Option.bind_eq_bind, Option.bind_some]
  exact share?_eq hgain hloss

theorem extentFrom_cons (start : ℚ × ℚ) (bar : Bar ℚ) (rest : List (Bar ℚ)) :
    extentFrom start (bar :: rest) = extentFrom (max start.1 bar.high, min start.2 bar.low) rest := by
  rw [extentFrom, List.foldl_cons, Exact.max_eq, Exact.min_eq]
  rfl

theorem extentFrom_bounds (start : ℚ × ℚ) (bars : List (Bar ℚ)) :
    start.1 ≤ (extentFrom start bars).1 ∧ (extentFrom start bars).2 ≤ start.2 ∧
      ∀ bar ∈ bars, bar.high ≤ (extentFrom start bars).1 ∧ (extentFrom start bars).2 ≤ bar.low := by
  induction bars generalizing start with
  | nil => exact ⟨le_refl _, le_refl _, by simp⟩
  | cons bar rest ih =>
    obtain ⟨hhigh, hlow, hrest⟩ := ih (max start.1 bar.high, min start.2 bar.low)
    rw [extentFrom_cons, List.forall_mem_cons]
    exact ⟨(le_max_left _ _).trans hhigh, hlow.trans (min_le_left _ _),
      ⟨(le_max_right _ _).trans hhigh, hlow.trans (min_le_right _ _)⟩, hrest⟩

theorem extent_cons (bar : Bar ℚ) (rest : List (Bar ℚ)) :
    extent (bar :: rest) = extentFrom (bar.high, bar.low) (bar :: rest) := rfl

/-- Numbers that no bar passes have no part in the extent. -/
theorem extentFrom_eq (hstart : ∀ bar ∈ bars, start.1 ≤ bar.high ∧ bar.low ≤ start.2) (hne : bars ≠ []) :
    extentFrom start bars = extent bars := by
  cases bars with
  | nil => exact absurd rfl hne
  | cons bar rest =>
    obtain ⟨hhigh, hlow⟩ := hstart bar List.mem_cons_self
    rw [extent_cons, extentFrom_cons, extentFrom_cons, max_eq_right hhigh, min_eq_right hlow, max_self,
      min_self]

theorem extent_bounds (h : bar ∈ bars) : bar.high ≤ (extent bars).1 ∧ (extent bars).2 ≤ bar.low := by
  cases bars with
  | nil => exact absurd h List.not_mem_nil
  | cons first rest =>
    obtain ⟨-, -, hall⟩ := extentFrom_bounds (first.high, first.low) (first :: rest)
    exact hall bar h

theorem percent_between {part whole : ℚ} (hpart : 0 ≤ part) (hwhole : part ≤ whole) :
    0 ≤ 100 * part / whole ∧ 100 * part / whole ≤ 100 := by
  have hnonneg : 0 ≤ whole := hpart.trans hwhole
  refine ⟨div_nonneg (mul_nonneg (by norm_num) hpart) hnonneg, ?_⟩
  exact div_le_of_le_mul₀ hnonneg (by norm_num) (mul_le_mul_of_nonneg_left hwhole (by norm_num))

theorem williams_eq (bars : List (Bar ℚ)) (close : ℚ) : williams bars close =
    if (extent bars).1 == (extent bars).2 then -50
    else -100 * ((extent bars).1 - close) / ((extent bars).1 - (extent bars).2) := rfl

theorem position_eq (bars : List (Bar ℚ)) (close : ℚ) : position bars close =
    if (extent bars).1 == (extent bars).2 then 50
    else 100 * (close - (extent bars).2) / ((extent bars).1 - (extent bars).2) := rfl

theorem williams?_eq (bars : List (Bar ℚ)) (close : ℚ) :
    williams? (extent bars) close = some (williams bars close) := by
  rw [williams?, williams_eq]
  split
  · next h => rw [if_pos (beq_iff_eq.mpr h)]
  · next h => rw [if_neg (mt beq_iff_eq.mp h), quotient?_eq (sub_ne_zero.mpr h)]

theorem position?_eq (bars : List (Bar ℚ)) (close : ℚ) :
    position? (extent bars) close = some (position bars close) := by
  rw [position?, position_eq]
  split
  · next h => rw [if_pos (beq_iff_eq.mpr h)]
  · next h => rw [if_neg (mt beq_iff_eq.mp h), quotient?_eq (sub_ne_zero.mpr h)]

theorem williams_between (hlow : (extent bars).2 ≤ close) (hhigh : close ≤ (extent bars).1) :
    -100 ≤ williams bars close ∧ williams bars close ≤ 0 := by
  rw [williams_eq]
  split
  · norm_num
  · obtain ⟨hnonneg, hle⟩ := percent_between (sub_nonneg.mpr hhigh) (sub_le_sub_left hlow (extent bars).1)
    rw [neg_mul, neg_div]
    exact ⟨neg_le_neg hle, neg_nonpos.mpr hnonneg⟩

theorem position_between (hlow : (extent bars).2 ≤ close) (hhigh : close ≤ (extent bars).1) :
    0 ≤ position bars close ∧ position bars close ≤ 100 := by
  rw [position_eq]
  split
  · norm_num
  · exact percent_between (sub_nonneg.mpr hlow) (sub_le_sub_right hhigh (extent bars).2)

theorem bars_pos (spec : ParamSpec ℚ) (params : Table ℚ) : 0 < spec.bars params := by
  have hone : 1 ≤ Scalar.max (spec.value params) 1 := by
    rw [Exact.max_eq]
    exact le_max_right _ 1
  have hfloor : 1 ≤ (Scalar.max (spec.value params) 1).floor := Rat.le_floor_iff.mpr (by exact_mod_cast hone)
  change 0 < Nat.min (Scalar.max (spec.value params) 1).floor.toNat (UInt64.size - 1)
  exact lt_min (by omega) (by decide)

theorem mem_of_window? {β : Type} {w xs : List β} {x : β} (hw : window? n xs = some w) (h : x ∈ w) : x ∈ xs := by
  rw [window?] at hw
  split at hw
  · cases hw
  · obtain rfl := Option.some.inj hw
    exact List.mem_of_mem_drop h

/-- What the last window shows of its extent and of the last close. -/
theorem onWindow?_eq (hstart : ∀ bar ∈ bars, start.1 ≤ bar.high ∧ bar.low ≤ start.2)
    {f : ℚ × ℚ → ℚ → Option ℚ} {g : List (Bar ℚ) → ℚ → ℚ} (h : ∀ w close, f (extent w) close = some (g w close)) :
    onWindow? start n bars f = (window? n bars).bind fun w => w.getLast?.bind fun bar => some (g w bar.close) := by
  rw [onWindow?, Option.bind_eq_bind]
  cases hw : window? n bars with
  | none => rfl
  | some w =>
    have hextent : extentFrom start w = extent w :=
      extentFrom_eq (fun bar hbar => hstart bar (mem_of_window? hw hbar)) (window?_ne_nil hw)
    simp only [Option.bind_some, Option.bind_eq_bind, hextent, h]

/-- A reading of the last window is one of a close within the extent. -/
theorem exists_window {g : List (Bar ℚ) → ℚ → ℚ} {x : ℚ}
    (hbars : ∀ b ∈ bars, b.low ≤ b.close ∧ b.close ≤ b.high)
    (hx : ((window? n bars).bind fun w => w.getLast?.bind fun bar => some (g w bar.close)) = some x) :
    ∃ w close, (extent w).2 ≤ close ∧ close ≤ (extent w).1 ∧ x = g w close := by
  obtain ⟨w, hw, hlast⟩ := Option.bind_eq_some_iff.mp hx
  obtain ⟨bar, hbar, hvalue⟩ := Option.bind_eq_some_iff.mp hlast
  have hmem : bar ∈ w := List.mem_of_getLast? hbar
  obtain ⟨hlow, hhigh⟩ := hbars bar (mem_of_window? hw hmem)
  obtain ⟨hmost, hleast⟩ := extent_bounds hmem
  exact ⟨w, bar.close, hleast.trans hlow, hhigh.trans hmost, (Option.some.inj hvalue).symm⟩

/-- Whatever the parameters, the reading of an oscillator is within its range, and no division on
the way to it is by zero. -/
theorem oscillators_in_range {i : Indicator} (hi : i ∈ oscillators) (params : Table ℚ)
    (hbars : ∀ b ∈ bars, b.low ≤ b.close ∧ b.close ≤ b.high) {x : ℚ} (hx : i.reading? params bars = some x) :
    (∃ least greatest, i.range? = some (least, greatest) ∧ least ≤ x ∧ x ≤ greatest) ∧
    ∀ start : ℚ × ℚ, (∀ b ∈ bars, start.1 ≤ b.high ∧ b.low ≤ start.2) →
      Divided.reading? start i params bars = some x := by
  have hcases : i = relativeStrength ∨ i = williamsRange ∨ i = stochastic := by simpa [oscillators] using hi
  rcases hcases with rfl | rfl | rfl
  · obtain ⟨hdivided, hlow, hhigh⟩ := relativeStrength?_spec (bars_pos relativeStrength.periodSpec params) bars
    have hreading : (if bars.length < relativeStrength.periodSpec.bars params + 1 then none
        else some (strength (relativeStrength.periodSpec.bars params) bars)) = some x := hx
    obtain ⟨henough, hx⟩ := Option.ite_none_left_eq_some.mp hreading
    obtain rfl := Option.some.inj hx
    refine ⟨⟨0, 100, rfl, hlow, hhigh⟩, fun start _ => ?_⟩
    simp only [Divided.reading?, if_neg henough, hdivided]
  · obtain ⟨w, close, hlow, hhigh, hvalue⟩ := exists_window hbars hx
    obtain ⟨hleast, hgreatest⟩ := williams_between hlow hhigh
    refine ⟨⟨-100, 0, rfl, hvalue ▸ hleast, hvalue ▸ hgreatest⟩, fun start hstart => ?_⟩
    exact (onWindow?_eq hstart williams?_eq).trans hx
  · obtain ⟨w, close, hlow, hhigh, hvalue⟩ := exists_window hbars hx
    obtain ⟨hleast, hgreatest⟩ := position_between hlow hhigh
    refine ⟨⟨0, 100, rfl, hvalue ▸ hleast, hvalue ▸ hgreatest⟩, fun start hstart => ?_⟩
    exact (onWindow?_eq hstart position?_eq).trans hx

/-- After two falls by one and a rise by two the average gain is 1 and the average loss 1/2. -/
theorem oscillators_in_range_rise :
    relativeStrength ∈ oscillators ∧
    (∀ b ∈ [Bar.flat (9 : ℚ) 1, Bar.flat 8 1, Bar.flat 7 1, Bar.flat 9 1], b.low ≤ b.close ∧ b.close ≤ b.high) ∧
    relativeStrength.reading? (Table.ofList [("period", (2 : ℚ))])
      [Bar.flat 9 1, Bar.flat 8 1, Bar.flat 7 1, Bar.flat 9 1] = some (200 / 3) ∧
    (∃ least greatest, relativeStrength.range? = some (least, greatest) ∧
      least ≤ (200 / 3 : ℚ) ∧ (200 / 3 : ℚ) ≤ greatest) ∧
    Divided.reading? (0, 1000) relativeStrength (Table.ofList [("period", 2)])
      [Bar.flat 9 1, Bar.flat 8 1, Bar.flat 7 1, Bar.flat 9 1] = some (200 / 3) := by
  have hbars : ∀ b ∈ [Bar.flat (9 : ℚ) 1, Bar.flat 8 1, Bar.flat 7 1, Bar.flat 9 1],
      b.low ≤ b.close ∧ b.close ≤ b.high := by decide +kernel
  have hread : relativeStrength.reading? (Table.ofList [("period", (2 : ℚ))])
      [Bar.flat 9 1, Bar.flat 8 1, Bar.flat 7 1, Bar.flat 9 1] = some (200 / 3) := by decide +kernel
  obtain ⟨hrange, hdivided⟩ := oscillators_in_range (i := relativeStrength) (by decide) _ hbars hread
  exact ⟨by decide, hbars, hread, hrange, hdivided (0, 1000) (by decide +kernel)⟩

end SignalEvolution.Indicator

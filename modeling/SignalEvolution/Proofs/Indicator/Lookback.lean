import SignalEvolution.Proofs.Indicator.Calculation
import SignalEvolution.Proofs.Indicator.Names
import SignalEvolution.Proofs.Indicator.Parameters

/-! # Lookbacks

An indicator states how many bars it needs and each calculation checks for itself whether there
are enough. Both agree wherever no parameter is a NaN, so that the close stands in for a reading
only while there are too few bars.
-/
namespace SignalEvolution.Indicator
open Binary

variable {β γ : Type} {n : Nat} {xs : List β}

theorem isSome_window? (hn : 0 < n) : (window? n xs).isSome = true ↔ n ≤ xs.length := by
  rw [window?]
  split <;> simp <;> omega

theorem isSome_exponential? {α : Type} [Scalar α] (hn : 0 < n) (f : β → α) :
    (exponential? n f xs).isSome = true ↔ n ≤ xs.length := by
  rw [exponential?]
  split <;> simp <;> omega

theorem isSome_ite {m : Nat} (x : γ) : (if m < n then none else some x).isSome = true ↔ n ≤ m := by
  split <;> simp <;> omega

/-- The indicators that see only the last bars, as many as they need. -/
def windowed : List Indicator :=
  [simpleAverage, weightedAverage, momentum, rateOfChange, williamsRange, stochastic, commodityChannel,
    standardDeviation, upperBand, lowerBand, volumeAverage]

/-- A reading that is a function of the last bars, as many as the lookback says. -/
def OfWindow {α : Type} [Scalar α] (i : Indicator) (params : Table α) : Prop :=
  ∃ g : List (Bar α) → Option α, (∀ w, w ≠ [] → (g w).isSome = true) ∧
    ∀ bars, i.reading? params bars = (window? (i.lookback params) bars).bind g

section
variable {α : Type} [Scalar α]

theorem ofWindow_map {i : Indicator} {params : Table α} (g : List (Bar α) → α)
    (h : ∀ bars, i.reading? params bars = (window? (i.lookback params) bars).map g) : i.OfWindow params := by
  refine ⟨fun w => some (g w), fun _ _ => rfl, ?_⟩
  intro bars
  rw [h, Option.map_eq_bind]
  rfl

theorem ofWindow_of_mem {i : Indicator} (hi : i ∈ windowed) (params : Table α) : i.OfWindow params := by
  cases i with
  | simpleAverage => exact ofWindow_map _ fun _ => rfl
  | weightedAverage => exact ofWindow_map _ fun _ => rfl
  | momentum =>
    refine ⟨_, ?_, fun _ => rfl⟩
    intro w hne
    obtain ⟨first, last, -, hfirst, -, hlast⟩ := exists_ends hne
    simp [hfirst, hlast]
  | rateOfChange =>
    refine ⟨_, ?_, fun _ => rfl⟩
    intro w hne
    obtain ⟨first, last, -, hfirst, -, hlast⟩ := exists_ends hne
    simp [hfirst, hlast]
  | williamsRange =>
    refine ⟨_, ?_, fun _ => rfl⟩
    intro w hne
    simp [List.getLast?_eq_some_getLast hne]
  | stochastic =>
    refine ⟨_, ?_, fun _ => rfl⟩
    intro w hne
    simp [List.getLast?_eq_some_getLast hne]
  | commodityChannel =>
    refine ⟨channel, ?_, fun _ => rfl⟩
    intro w hne
    obtain ⟨x, -, hx⟩ := channel?_eq hne
    simp [hx]
  | standardDeviation => exact ofWindow_map _ fun _ => rfl
  | upperBand =>
    apply ofWindow_map
    intro bars
    rw [reading?, band?, closes, window?_map, Option.map_map, Option.map_map]
    rfl
  | lowerBand =>
    apply ofWindow_map
    intro bars
    rw [reading?, band?, closes, window?_map, Option.map_map, Option.map_map]
    rfl
  | volumeAverage => exact ofWindow_map _ fun _ => rfl
  | _ => exact absurd hi (by decide)

theorem OfWindow.isSome_reading? {i : Indicator} {params : Table α} (h : i.OfWindow params)
    (hpos : 0 < i.lookback params) (bars : List (Bar α)) :
    (i.reading? params bars).isSome = true ↔ i.lookback params ≤ bars.length := by
  obtain ⟨g, hg, hreading⟩ := h
  rw [← isSome_window? hpos, hreading]
  cases hw : window? (i.lookback params) bars with
  | none => rfl
  | some w => simp [hg w (window?_ne_nil hw)]

end

variable {i : Indicator} {params : Table Float}

theorem toNat_value_pos {spec : ParamSpec Float} (hspec : spec ∈ averageDivergence.specs)
    (h : ∀ e ∈ params.entries, e.2.isNaN = false) : 0 < Scalar.toNat (spec.value params) := by
  have hends : ∀ spec ∈ (averageDivergence.specs (α := Float)), 1 ≤ spec.least ∧ spec.greatest ≤ 200 := by
    decide +kernel
  obtain ⟨hleast, hgreatest⟩ := hends spec hspec
  obtain ⟨hlow, hhigh, -⟩ := (specs_sound hspec).value_admits fun x hx =>
    h (spec.name, x) (Table.find?_eq_some_iff.mp hx)
  exact (ParamSpec.toNat_bounds (number_le_trans hleast hlow) (number_le_trans hhigh hgreatest)).1

theorem lookback_bounds (hi : i ∈ windowed) (params : Table Float) :
    0 < i.lookback params ∧ i.lookback params ≤ 201 := by
  have hperiod := i.period_bounds params
  have hlookback : i.lookback params = i.periodSpec.bars params ∨
      i.lookback params = i.periodSpec.bars params + 1 := by
    cases i with
    | averageDivergence => exact absurd hi (by decide)
    | balanceVolume => exact absurd hi (by decide)
    | _ => simp [lookback]
  omega

/-- There is a reading exactly when there are as many bars as the lookback says. -/
theorem isSome_reading?_iff (i : Indicator) (h : ∀ e ∈ params.entries, e.2.isNaN = false)
    (bars : List (Bar Float)) : (i.reading? params bars).isSome = true ↔ i.lookback params ≤ bars.length := by
  by_cases hi : i ∈ windowed
  · exact (ofWindow_of_mem hi params).isSome_reading? (lookback_bounds hi params).1 bars
  cases i with
  | exponentialAverage => exact isSome_exponential? (period_bounds _ params).1 Bar.close
  | averageDivergence =>
    -- A NaN would count as no bars, and there is no average of none.
    have hfast : 0 < Scalar.toNat (fastSpec.value params) := toNat_value_pos List.mem_cons_self h
    have hslow : 0 < Scalar.toNat (slowSpec.value params) :=
      toNat_value_pos (List.mem_cons_of_mem _ List.mem_cons_self) h
    have hboth : averageDivergence.lookback params ≤ bars.length ↔
        Scalar.toNat (fastSpec.value params) ≤ bars.length ∧ Scalar.toNat (slowSpec.value params) ≤ bars.length :=
      Nat.max_le
    rw [hboth, ← isSome_exponential? hfast Bar.close, ← isSome_exponential? hslow Bar.close, reading?]
    cases exponential? (Scalar.toNat (fastSpec.value params)) Bar.close bars <;>
      cases exponential? (Scalar.toNat (slowSpec.value params)) Bar.close bars <;> simp
  | relativeStrength => exact isSome_ite _
  | averageTrueRange => exact isSome_ite _
  | balanceVolume => exact isSome_ite _
  | _ => exact absurd (by decide) hi

/-- Where no parameter is a NaN, no calculation goes out of range and there is a reading exactly
when there are as many bars as the lookback says. So where none is supplied the close stands in
for the reading only while there are too few bars. -/
theorem reading_of_enough_bars (i : Indicator) (h : ∀ e ∈ params.entries, e.2.isNaN = false) :
    (∀ bars, i.calculation? params bars = some (i.reading? params bars) ∧
      ((i.reading? params bars).isSome = true ↔ i.lookback params ≤ bars.length)) ∧
    ∀ c : Context, c.supplied? (i.key params) = none →
      (c.bars.length < i.lookback params → i.readingIn params c = c.current.close) ∧
      (i.lookback params ≤ c.bars.length → i.reading? params c.bars = some (i.readingIn params c)) := by
  refine ⟨fun bars => ⟨i.calculation?_eq params bars, isSome_reading?_iff i h bars⟩, ?_⟩
  intro c hsupplied
  rw [readingIn_eq, hsupplied, Option.getD_none]
  constructor
  · intro hfew
    exact if_pos hfew
  · intro henough
    obtain ⟨x, hx⟩ := Option.isSome_iff_exists.mp ((isSome_reading?_iff i h c.bars).mpr henough)
    simp only [hx, Option.getD_some]
    rw [if_neg (Nat.not_lt.mpr henough)]

/-- A momentum over 2.6 bars, which are three, needs four: with one of them it is the close. -/
theorem reading_of_enough_bars_rounded :
    (∀ e ∈ (Table.ofList [("period", 2.6)]).entries, e.2.isNaN = false) ∧
    (momentum.reading? (Table.ofList [("period", 2.6)]) (List.replicate 4 (Bar.flat 10 1))).isSome = true ∧
    momentum.readingIn (Table.ofList [("period", 2.6)]) (Context.start (Bar.flat 10 1) 5) = 10 := by
  have hnumbers : ∀ e ∈ (Table.ofList [("period", (2.6 : Float))]).entries, e.2.isNaN = false := by
    decide +kernel
  obtain ⟨hcalculated, hread⟩ := reading_of_enough_bars momentum hnumbers
  refine ⟨hnumbers, (hcalculated (List.replicate 4 (Bar.flat 10 1))).2.mpr (by decide +kernel), ?_⟩
  exact (hread (Context.start (Bar.flat 10 1) 5) rfl).1 (by decide +kernel)

end SignalEvolution.Indicator

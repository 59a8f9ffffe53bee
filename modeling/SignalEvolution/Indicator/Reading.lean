import SignalEvolution.Indicator.Catalogue
import SignalEvolution.Market.Bar

/-! # Indicator readings

A reading is computed from bars, oldest first, and belongs to the last of them.
With fewer bars than the lookback there is none. Averages start from the plain
mean of the first bars where they smooth, and use the last bars where they do
not.
-/
namespace SignalEvolution.Indicator

variable {α β γ : Type} [Scalar α]

/-- The last `n` entries, where `n` is positive and there are as many. -/
def window? (n : Nat) (xs : List β) : Option (List β) :=
  if n = 0 ∨ xs.length < n then none else some (xs.drop (xs.length - n))

@[specialize] def pairwise (f : β → β → γ) : List β → List γ
  | x :: y :: rest => f x y :: pairwise f (y :: rest)
  | _ => []

def closes (bars : List (Bar α)) : List α := bars.map Bar.close

/-- Exponential average of a quantity, started with the mean of its first `n` values. -/
@[specialize] def exponential? (n : Nat) (f : β → α) (xs : List β) : Option α :=
  if n = 0 ∨ xs.length < n then none
  else
    let weight : α := 2 / (Scalar.ofNat n + 1)
    some ((xs.drop n).foldl (fun average x => weight * f x + (1 - weight) * average)
      (Scalar.mean ((xs.take n).map f)))

/-- One step of an average in which the newest of `n` shares changes. -/
@[specialize] def smooth (n average x : α) : α := (average * (n - 1) + x) / n

/-- Running average of a quantity, started with the mean of its first `n` values. -/
@[specialize] def smoothed (n : Nat) (f : β → α) (xs : List β) : α :=
  let size := Scalar.ofNat n
  (xs.drop n).foldl (fun average x => smooth size average (f x)) (Scalar.mean ((xs.take n).map f))

@[specialize] def weightedMean (xs : List α) : α :=
  let totals := xs.foldl (fun (s : α × α × Nat) x =>
    let weight := Scalar.ofNat (s.2.2 + 1)
    (s.1 + weight * x, s.2.1 + weight, s.2.2 + 1)) ((0 : α), (0 : α), 0)
  totals.1 / totals.2.1

@[specialize] def extent (bars : List (Bar α)) : α × α :=
  let start := match Scalar.finiteBounds (α := α), bars with
    | some (least, greatest), _ => (least, greatest)
    | none, bar :: _ => (bar.high, bar.low)
    | none, [] => (0, 0)
  bars.foldl (fun e bar => (Scalar.max e.1 bar.high, Scalar.min e.2 bar.low)) start

/-- Share of the gains in all changes, in percent; 50 without any change. -/
@[specialize] def strength (n : Nat) (bars : List (Bar α)) : α :=
  let changes := pairwise (fun previous bar => bar.close - previous.close) bars
  let gain := smoothed n (fun d => Scalar.max d 0) changes
  let loss := smoothed n (fun d => Scalar.max (-d) 0) changes
  if loss == 0 then (if gain == 0 then Scalar.ofNat 50 else Scalar.ofNat 100)
  else Scalar.ofNat 100 - Scalar.ofNat 100 / (1 + gain / loss)

/-- Distance of the close from the highest high, in percent of the extent, below zero. -/
@[specialize] def williams (bars : List (Bar α)) (close : α) : α :=
  let (high, low) := extent bars
  if high == low then -Scalar.ofNat 50
  else -Scalar.ofNat 100 * (high - close) / (high - low)

@[specialize] def position (bars : List (Bar α)) (close : α) : α :=
  let (high, low) := extent bars
  if high == low then Scalar.ofNat 50
  else Scalar.ofNat 100 * (close - low) / (high - low)

/-- Deviation of the last typical price from the mean one, in scaled mean deviations. -/
@[specialize] def channel (bars : List (Bar α)) : Option α :=
  let typical := bars.map fun b => (b.high + b.low + b.close) / 3
  let average := Scalar.mean typical
  let spread := Scalar.mean (typical.map fun x => Scalar.abs (x - average))
  if spread == 0 then some 0
  else typical.getLast?.map fun x => (x - average) / (Scalar.ofNat 15 / Scalar.ofNat 1000 * spread)

@[specialize] def trueRange (previous bar : Bar α) : α :=
  Scalar.max (Scalar.max (bar.high - bar.low) (Scalar.abs (bar.high - previous.close)))
    (Scalar.abs (bar.low - previous.close))

/-- Adds volumes to a total, each with the sign of the change of the close. -/
@[specialize] def signedVolume (total : α) : List (Bar α) → α
  | previous :: bar :: rest =>
    if previous.close < bar.close then signedVolume (total + bar.volume) (bar :: rest)
    else if bar.close < previous.close then signedVolume (total - bar.volume) (bar :: rest)
    else signedVolume total (bar :: rest)
  | _ => total

/-- Mean of the last closes and the half width of the band around it. -/
@[specialize] def band? (i : Indicator) (params : Table α) (bars : List (Bar α)) : Option (α × α) :=
  (window? (i.periodSpec.bars params) (closes bars)).map fun xs =>
    (Scalar.mean xs, widthSpec.value params * Scalar.deviation xs)

/-- Number of bars that a reading needs, the current one included. -/
@[specialize] def lookback (i : Indicator) (params : Table α) : Nat :=
  match i with
  | averageDivergence =>
    Nat.max (Scalar.toNat (fastSpec.value params)) (Scalar.toNat (slowSpec.value params))
  | balanceVolume => 2
  | relativeStrength | momentum | rateOfChange | averageTrueRange => i.periodSpec.bars params + 1
  | _ => i.periodSpec.bars params

@[specialize] def reading? (i : Indicator) (params : Table α) (bars : List (Bar α)) : Option α :=
  let n := i.periodSpec.bars params
  match i with
  | simpleAverage => (window? n bars).map fun w => Scalar.mean (closes w)
  | exponentialAverage => exponential? n Bar.close bars
  | weightedAverage => (window? n bars).map fun w => weightedMean (closes w)
  | averageDivergence => do
    let fast ← exponential? (Scalar.toNat (fastSpec.value params)) Bar.close bars
    let slow ← exponential? (Scalar.toNat (slowSpec.value params)) Bar.close bars
    return fast - slow
  | relativeStrength => if bars.length < n + 1 then none else some (strength n bars)
  | momentum => do
    let w ← window? (n + 1) bars
    return (← w.getLast?).close - (← w.head?).close
  | rateOfChange => do
    let w ← window? (n + 1) bars
    let base := (← w.head?).close
    let last := (← w.getLast?).close
    return if base == 0 then 0 else (last / base - 1) * Scalar.ofNat 100
  | williamsRange => do
    let w ← window? n bars
    return williams w (← w.getLast?).close
  | stochastic => do
    let w ← window? n bars
    return position w (← w.getLast?).close
  | commodityChannel => (window? n bars).bind channel
  | averageTrueRange =>
    if bars.length < n + 1 then none
    else some (smoothed n id (pairwise trueRange bars))
  | standardDeviation => (window? n bars).map fun w => Scalar.deviation (closes w)
  | upperBand => (band? i params bars).map fun b => b.1 + b.2
  | lowerBand => (band? i params bars).map fun b => b.1 - b.2
  | balanceVolume => if bars.length < 2 then none else some (signedVolume 0 bars)
  | volumeAverage => (window? n bars).map fun w => Scalar.mean (w.map Bar.volume)

end SignalEvolution.Indicator

import SignalEvolution.Market.Bar
import SignalEvolution.Random.Normal

/-! # Random markets

A geometric walk of the price with a slight upward drift. Each bar opens at the
close before it; its high and its low stand a little outside of both.
-/
namespace SignalEvolution.Market

variable {σ : Type} [WordSource σ]

@[specialize] def move : Draw σ Float := Draw.normal 0.0003 0.01

/-- How far a bar reaches beyond its opening and its close, relatively. -/
@[specialize] def wick : Draw σ Float := do
  let x ← Draw.normal 0 0.004
  return x.abs

@[specialize] def nextBar (opening : Float) : Draw σ (Bar Float) := do
  let close := opening * (1 + (← move))
  let high := Scalar.max opening close * (1 + (← wick))
  let low := Scalar.min opening close * (1 - (← wick))
  let volume := 1000 * (1 + (← wick) * 100)
  return { opening, high, low, close, volume }

/-- A number of bars, the first of which opens at the given price. -/
@[specialize] def walk : Nat → (opening : Float) → Draw σ (List (Bar Float))
  | 0, _ => pure []
  | n + 1, opening => do
    let bar ← nextBar opening
    let rest ← walk n bar.close
    return bar :: rest

end SignalEvolution.Market

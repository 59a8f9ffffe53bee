import SignalEvolution.Arithmetic.Scalar
import SignalEvolution.Problem

/-! # Settings of a backtest -/
namespace SignalEvolution

structure BacktestSettings (α : Type) where
  initialCapital : α
  /-- Share of the notional charged on each side of a trade. -/
  commission : α
  /-- Share of the price lost with every fill. -/
  slippage : α
  periodsPerYear : α
  historyCapacity : Nat
  noTradeScore : α

namespace BacktestSettings

def default : BacktestSettings Float := ⟨10000, 0.001, 0.0005, 252, 256, -1⟩

def check {α : Type} [Scalar α] (s : BacktestSettings α) : Except Problem Unit :=
  if s.initialCapital ≤ 0 then .error (.configuration "Initial capital must be positive")
  else if s.commission < 0 ∨ s.slippage < 0 then
    .error (.configuration "Commission and slippage must be non-negative")
  else if s.periodsPerYear ≤ 0 then .error (.configuration "Periods per year must be positive")
  else .ok ()

end BacktestSettings
end SignalEvolution

import SignalEvolution.Backtest.Account
import SignalEvolution.Indicator.Reading

/-! # Performance metrics

Trade statistics and risk ratios of an equity curve, each under its name. Ratios
assume no riskless interest and are scaled to a year.
-/
namespace SignalEvolution.Metrics

variable {α : Type} [Scalar α]

/-- Statistics of the trades; none without trades. -/
@[specialize] def ofTrades (trades : List (Trade α)) : List (String × α) :=
  if trades.isEmpty then []
  else
    let (won, lost) := trades.partition fun t => (0 : α) < t.profit
    let gain := Scalar.sum (won.map Trade.profit)
    let loss := Scalar.sum (lost.map fun t => Scalar.abs t.profit)
    let rate := Scalar.ofNat won.length / Scalar.ofNat trades.length * Scalar.ofNat 100
    [("win_rate", rate)] ++
      (if won.isEmpty then [] else [("avg_win", gain / Scalar.ofNat won.length)]) ++
      (if lost.isEmpty then [] else [("avg_loss", loss / Scalar.ofNat lost.length)]) ++
      (if (0 : α) < loss then [("profit_factor", gain / loss)] else [])

/-- The highest value so far and the largest loss from such a value, in percent. -/
@[specialize] def drawdownStep (state : α × α) (x : α) : α × α :=
  let peak := if state.1 < x then x else state.1
  if 0 < peak then
    let loss := (peak - x) / peak * Scalar.ofNat 100
    (peak, if state.2 < loss then loss else state.2)
  else (peak, state.2)

@[specialize] def maxDrawdown (equity : List α) : α :=
  match equity with
  | [] => 0
  | first :: _ => (equity.foldl drawdownStep (first, 0)).2

/-- Relative changes from entry to entry; none from zero. -/
@[specialize] def returns (equity : List α) : List α :=
  Indicator.pairwise (fun before after => if before == 0 then 0 else (after - before) / before) equity

/-- A mean over a spread, scaled to a year; 0 without spread. -/
@[specialize] def ratio (mean spread scale : α) : α :=
  if 0 < spread then mean / spread * scale else 0

/-- Risk of an equity curve; none with fewer than two entries. -/
@[specialize] def ofEquity (equity : List α) (periodsPerYear : α) : List (String × α) :=
  if equity.length < 2 then []
  else
    let changes := returns equity
    let volatility := Scalar.deviation changes
    let scale := Scalar.sqrt (Scalar.max periodsPerYear 1)
    let mean := Scalar.mean changes
    let falls := changes.map fun r => Scalar.min r 0
    let downside := Scalar.sqrt (Scalar.mean (falls.map fun r => r * r))
    [("max_drawdown_pct", maxDrawdown equity), ("volatility", volatility),
      ("sharpe_ratio", ratio mean volatility scale), ("sortino_ratio", ratio mean downside scale)]

@[specialize] def all (capital periodsPerYear : α) (trades : List (Trade α)) (equity : List α) :
    Table α :=
  let final := equity.getLast?.getD capital
  Table.ofList (ofTrades trades ++ ofEquity equity periodsPerYear ++
    [("num_trades", Scalar.ofNat trades.length), ("final_balance", final),
      ("return_pct", (final - capital) / capital * Scalar.ofNat 100)])

end SignalEvolution.Metrics

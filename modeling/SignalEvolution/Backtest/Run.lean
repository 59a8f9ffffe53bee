import SignalEvolution.Backtest.Metrics
import SignalEvolution.Backtest.Settings
import SignalEvolution.Fitness
import SignalEvolution.Tree.Evaluation

/-! # Backtests

A backtest follows a signal over a series of bars at their closes and sells what
is left at the last one. A gene scores the annual Sharpe ratio of its tree.
-/
namespace SignalEvolution

namespace BacktestSettings

variable {α : Type} [Scalar α]

def account (s : BacktestSettings α) : Account α :=
  Account.start s.initialCapital s.commission s.slippage

/-- The account after all bars, sold out at the last close. -/
@[specialize] def trade (s : BacktestSettings α) (closes : List α) (signals : List Bool) : Account α :=
  let walked := s.account.walk 0 (closes.zip signals)
  match closes.getLast? with
  | none => walked
  | some last => walked.finish (closes.length - 1) last

end BacktestSettings

structure Backtest where
  metrics : Table Float
  trades : List (Trade Float)
  equity : List Float

namespace Backtest

def run (s : BacktestSettings Float) (bars : List (Bar Float)) (t : Tree) : Backtest :=
  let account := s.trade (bars.map Bar.close) (t.signals s.historyCapacity bars)
  { metrics := Metrics.all s.initialCapital s.periodsPerYear account.trades account.equity
    trades := account.trades
    equity := account.equity }

def metric (b : Backtest) (name : String) : Float := (b.metrics.find? name).getD 0

/-- The Sharpe ratio where there are trades and it is finite. -/
def score (b : Backtest) (noTradeScore : Float) : Float :=
  let sharpe := b.metric "sharpe_ratio"
  if b.trades.isEmpty || !sharpe.isFinite then noTradeScore else sharpe

def finiteMetrics (b : Backtest) : Table Json :=
  Table.ofList ((b.metrics.entries.filter fun e => e.2.isFinite).map fun e => (e.1, .double e.2))

def evaluator (s : BacktestSettings Float) (bars : List (Bar Float)) : Evaluator := .ofGene fun g =>
  let b := run s bars g.root
  { score := b.score s.noTradeScore, metadata := b.finiteMetrics }

end Backtest
end SignalEvolution

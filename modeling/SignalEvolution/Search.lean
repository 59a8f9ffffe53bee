import SignalEvolution.Backtest.Run
import SignalEvolution.Configuration.Store
import SignalEvolution.Evolution.Engine
import SignalEvolution.Formula.Reader
import SignalEvolution.Market.Walk
import SignalEvolution.Random.ChaCha
import SignalEvolution.Record.Exchange

/-! # Searches

A search evolves signals on a random market from a few known formulas and random
ones. It reports the best gene of the last population in words and as a record
that can be read back. One seed fixes the market, the identities and the run.
-/
namespace SignalEvolution.Search

def barCount : Nat := 500

def openingPrice : Float := 100

/-- The seed of the market where the settings have none. -/
def marketSeed : UInt64 := 42

def knownFormulas : List String := ["SMA(10) > SMA(30)", "RSI(14) < 30", "close > EMA(50)"]

def tag : String := "synthetic"

structure Finding where
  best : Scored
  generations : Nat
  termination : Termination

/-- Genes of the known formulas, filled up with random ones. -/
def start (known drawn : List Gene) (size : Nat) : List Gene :=
  known ++ drawn.take (size - known.length)

/-- Runs a search, which breaks off where the draws of its engine do; `chance` serves for settings
without a seed. -/
def run (c : Configuration) (chance : ChaChaWords) : ExceptT Problem Option Finding := do
  let seed := ChaChaWords.ofSeed (c.evolution.seed.getD marketSeed)
  let (bars, _) := (Market.walk barCount openingPrice).run seed
  c.backtesting.check
  let engine ← Engine.make c.evolution ((c.evolution.seed.map ChaChaWords.ofSeed).getD chance)
  let size := c.evolution.populationSize
  let trees ← ((knownFormulas.take size).mapM (Formula.parse c.formulas.mode) : Except Problem _)
  let (known, _) := (Draw.forEach Gene.ofTree trees).run seed
  let (drawn, engine) ← engine.draw (c.evolution.population engine.generator)
  let (outcome, _, _) ←
    engine.evolve (some (start known drawn size)) (Backtest.evaluator c.backtesting bars)
  match outcome.best? with
  | some best => return { best, generations := outcome.history.length, termination := outcome.termination }
  | none => throw (.configuration "evolution produced an empty population")

namespace Finding

def metrics (f : Finding) : Table Float :=
  Table.ofList (f.best.fitness.metadata.entries.filterMap fun e => e.2.real?.map (e.1, ·))

def record (f : Finding) (s : ExchangeSettings) (now : Instant) : GeneRecord :=
  GeneRecord.ofGene f.best.gene { status := .passed, metrics := f.metrics }
    ((Provenance.ofSettings s now).tagged tag)

def summary (f : Finding) : List String :=
  ["Best after " ++ toString f.generations ++ " generations (" ++ f.termination.name ++ "): " ++
      f.best.gene.formula,
    "Fitness: " ++ Decimal.fixed 4 f.best.score]

/-- The lines of a report, given only if its record can be read back. -/
def report (f : Finding) (s : ExchangeSettings) (now : Instant) : Except Problem (List String) := do
  let text := (f.record s now).text
  let v ← Problem.json.orValue (Json.ofText text)
  let _ ← Exchange.decode s.mode now v
  return f.summary ++ (Text.splitOn '\n' text.toList).map String.ofList

end Finding

/-- Searches with the configuration of a file and of variables, and reports. -/
def reportOf (file : Option (Option Layers.File)) (environment : List (String × String)) (now : Instant)
    (chance : ChaChaWords) : ExceptT Problem Option (List String) := do
  let (loaded, store) := ({} : ConfigurationStore).loadLayers file environment
  loaded
  let finding ← run store.current chance
  finding.report store.current.exchange now

end SignalEvolution.Search

import SignalEvolution.Backtest.Settings
import SignalEvolution.Evolution.Settings
import SignalEvolution.Formula.Reader
import SignalEvolution.Json.Record

/-! # Sections of a configuration

Each section has a name, its fields in a fixed order, defaults for all of them
and a check. How texts and numbers stand for each other is left to the way of
reading: files are read strictly, layered sources more freely.
-/
namespace SignalEvolution

inductive Setting where
  | natural (n : Nat)
  | real (x : Float)
  | truth (b : Bool)
  | text (s : String)
  | unset

namespace Setting

def ofOption {α : Type} (f : α → Setting) : Option α → Setting
  | some a => f a
  | none => unset

def toJson : Setting → Json
  | natural n => .integer n
  | real x => .double x
  | truth b => .bool b
  | text s => .text s
  | unset => .null

end Setting

/-- How single values and lists are read. -/
structure Conversion where
  /-- A list that stands for a record may have items after its last field. -/
  longLists : Bool
  natural : Reader Nat
  real : Reader Float
  truth : Reader Bool
  text : Reader String
  choice : {α : Type} → (α → String) → List α → Reader α

namespace Conversion

/-- Every value has its own type; a whole number may stand for a real one. -/
def strict : Conversion where
  longLists := false
  natural := Reader.natural
  real := Reader.number
  truth := Reader.bool
  text := Reader.text
  choice := Reader.choice

def record {α : Type} (c : Conversion) (names : List String) (build : RecordFields → Option α) :
    Reader α :=
  let read := Reader.record names build
  if c.longLists then Reader.firstItems names.length read else read

end Conversion

namespace Mode

def all : List Mode := [.lenient, .strict]

def name : Mode → String
  | .lenient => "lenient"
  | .strict => "strict"

end Mode

namespace EvolutionSettings

def sectionName : String := "evolution"

def fields (s : EvolutionSettings) : List (String × Setting) :=
  [("population_size", .natural s.populationSize), ("num_generations", .natural s.generations),
    ("mutation_rate", .real s.pointMutationRate),
    ("subtree_mutation_rate", .real s.subtreeMutationRate), ("crossover_rate", .real s.crossoverRate),
    ("is_transposition_rate", .real s.transpositionRate),
    ("ris_transposition_rate", .real s.rootTranspositionRate),
    ("inversion_rate", .real s.inversionRate), ("selection_method", .text s.selection.name),
    ("tournament_size", .natural s.tournamentSize), ("elitism_count", .natural s.eliteCount),
    ("max_depth", .natural s.maxDepth), ("max_nodes", .natural s.maxNodes),
    ("constant_min", .real s.constantMin), ("constant_max", .real s.constantMax),
    ("target_fitness", .ofOption .real s.targetFitness),
    ("convergence_window", .natural s.convergenceWindow),
    ("convergence_epsilon", .real s.convergenceEpsilon),
    ("stop_on_convergence", .truth s.stopOnConvergence),
    ("parallel_evaluation", .truth s.parallelEvaluation),
    ("seed", .ofOption (fun w => .natural w.toNat) s.seed)]

def reader (c : Conversion) : Reader EvolutionSettings :=
  c.record (default.fields.map (·.1)) fun r => do
    let d := default
    let populationSize ← r.withDefault "population_size" d.populationSize c.natural
    let generations ← r.withDefault "num_generations" d.generations c.natural
    let pointMutationRate ← r.withDefault "mutation_rate" d.pointMutationRate c.real
    let subtreeMutationRate ← r.withDefault "subtree_mutation_rate" d.subtreeMutationRate c.real
    let crossoverRate ← r.withDefault "crossover_rate" d.crossoverRate c.real
    let transpositionRate ← r.withDefault "is_transposition_rate" d.transpositionRate c.real
    let rootTranspositionRate ← r.withDefault "ris_transposition_rate" d.rootTranspositionRate c.real
    let inversionRate ← r.withDefault "inversion_rate" d.inversionRate c.real
    let selection ← r.withDefault "selection_method" d.selection
      (c.choice SelectionMethod.name SelectionMethod.all)
    let tournamentSize ← r.withDefault "tournament_size" d.tournamentSize c.natural
    let eliteCount ← r.withDefault "elitism_count" d.eliteCount c.natural
    let maxDepth ← r.withDefault "max_depth" d.maxDepth c.natural
    let maxNodes ← r.withDefault "max_nodes" d.maxNodes c.natural
    let constantMin ← r.withDefault "constant_min" d.constantMin c.real
    let constantMax ← r.withDefault "constant_max" d.constantMax c.real
    let targetFitness ← r.withDefault "target_fitness" d.targetFitness (Reader.optional c.real)
    let convergenceWindow ← r.withDefault "convergence_window" d.convergenceWindow c.natural
    let convergenceEpsilon ← r.withDefault "convergence_epsilon" d.convergenceEpsilon c.real
    let stopOnConvergence ← r.withDefault "stop_on_convergence" d.stopOnConvergence c.truth
    let parallelEvaluation ← r.withDefault "parallel_evaluation" d.parallelEvaluation c.truth
    let seed ← r.withDefault "seed" none (Reader.optional c.natural)
    return { populationSize, generations, pointMutationRate, subtreeMutationRate, crossoverRate,
             transpositionRate, rootTranspositionRate, inversionRate, selection, tournamentSize,
             eliteCount, maxDepth, maxNodes, constantMin, constantMax, targetFitness,
             convergenceWindow, convergenceEpsilon, stopOnConvergence, parallelEvaluation,
             seed := seed.map Nat.toUInt64 }

end EvolutionSettings

namespace BacktestSettings

def sectionName : String := "backtesting"

def fields (s : BacktestSettings Float) : List (String × Setting) :=
  [("initial_capital", .real s.initialCapital), ("commission", .real s.commission),
    ("slippage", .real s.slippage), ("periods_per_year", .real s.periodsPerYear),
    ("history_capacity", .natural s.historyCapacity), ("no_trade_fitness", .real s.noTradeScore)]

def reader (c : Conversion) : Reader (BacktestSettings Float) :=
  c.record (default.fields.map (·.1)) fun r => do
    let d := default
    let initialCapital ← r.withDefault "initial_capital" d.initialCapital c.real
    let commission ← r.withDefault "commission" d.commission c.real
    let slippage ← r.withDefault "slippage" d.slippage c.real
    let periodsPerYear ← r.withDefault "periods_per_year" d.periodsPerYear c.real
    let historyCapacity ← r.withDefault "history_capacity" d.historyCapacity c.natural
    let noTradeScore ← r.withDefault "no_trade_fitness" d.noTradeScore c.real
    return { initialCapital, commission, slippage, periodsPerYear, historyCapacity, noTradeScore }

end BacktestSettings

structure FormulaSettings where
  mode : Mode := .lenient

namespace FormulaSettings

def sectionName : String := "parser"

def fields (s : FormulaSettings) : List (String × Setting) := [("mode", .text s.mode.name)]

def reader (c : Conversion) : Reader FormulaSettings :=
  c.record ["mode"] fun r => do
    let mode ← r.withDefault "mode" .lenient (c.choice Mode.name Mode.all)
    return { mode }

end FormulaSettings

structure ExchangeSettings where
  mode : Mode := .lenient
  author : String := "anonymous"
  source : String := "tradegene"

namespace ExchangeSettings

def sectionName : String := "protocol"

def fields (s : ExchangeSettings) : List (String × Setting) :=
  [("compat_mode", .text s.mode.name), ("default_author", .text s.author),
    ("default_source", .text s.source)]

def reader (c : Conversion) : Reader ExchangeSettings :=
  c.record ["compat_mode", "default_author", "default_source"] fun r => do
    let d : ExchangeSettings := {}
    let mode ← r.withDefault "compat_mode" d.mode (c.choice Mode.name Mode.all)
    let author ← r.withDefault "default_author" d.author c.text
    let source ← r.withDefault "default_source" d.source c.text
    return { mode, author, source }

def check (s : ExchangeSettings) : Except Problem Unit :=
  if (Text.trim s.source.toList).isEmpty then
    .error (.configuration "Default source must not be empty")
  else .ok ()

end ExchangeSettings

structure Configuration where
  evolution : EvolutionSettings := .default
  backtesting : BacktestSettings Float := .default
  formulas : FormulaSettings := {}
  exchange : ExchangeSettings := {}

namespace Configuration

def sections (c : Configuration) : List (String × List (String × Setting)) :=
  [(EvolutionSettings.sectionName, c.evolution.fields),
    (BacktestSettings.sectionName, c.backtesting.fields),
    (FormulaSettings.sectionName, c.formulas.fields),
    (ExchangeSettings.sectionName, c.exchange.fields)]

/-- All settings as JSON; their numbers need not be finite. -/
def toJson (c : Configuration) : Json :=
  Json.ofFields (c.sections.map fun e => (e.1, Json.ofFields (e.2.map fun f => (f.1, f.2.toJson))))

def reader (conv : Conversion) : Reader Configuration :=
  conv.record (({} : Configuration).sections.map (·.1)) fun r => do
    let evolution ← r.withDefault EvolutionSettings.sectionName .default (EvolutionSettings.reader conv)
    let backtesting ← r.withDefault BacktestSettings.sectionName .default (BacktestSettings.reader conv)
    let formulas ← r.withDefault FormulaSettings.sectionName {} (FormulaSettings.reader conv)
    let exchange ← r.withDefault ExchangeSettings.sectionName {} (ExchangeSettings.reader conv)
    return { evolution, backtesting, formulas, exchange }

def check (c : Configuration) : Except Problem Unit := do
  c.evolution.check
  c.backtesting.check
  c.exchange.check

end Configuration
end SignalEvolution

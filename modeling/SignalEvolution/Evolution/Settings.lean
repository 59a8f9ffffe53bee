import SignalEvolution.Arithmetic.Decimal
import SignalEvolution.Problem

/-! # Settings of an evolution run -/
namespace SignalEvolution

inductive SelectionMethod where
  | tournament
  | roulette
  deriving Repr, DecidableEq

namespace SelectionMethod

def all : List SelectionMethod := [tournament, roulette]

def name : SelectionMethod → String
  | tournament => "Tournament"
  | roulette => "Roulette"

end SelectionMethod

structure EvolutionSettings where
  populationSize : Nat
  generations : Nat
  pointMutationRate : Float
  subtreeMutationRate : Float
  crossoverRate : Float
  transpositionRate : Float
  rootTranspositionRate : Float
  inversionRate : Float
  selection : SelectionMethod
  tournamentSize : Nat
  eliteCount : Nat
  maxDepth : Nat
  maxNodes : Nat
  /-- Constants that point mutation writes stay between these two. -/
  constantMin : Float
  constantMax : Float
  targetFitness : Option Float
  convergenceWindow : Nat
  convergenceEpsilon : Float
  stopOnConvergence : Bool
  parallelEvaluation : Bool
  seed : Option UInt64

namespace EvolutionSettings

def default : EvolutionSettings :=
  { populationSize := 50, generations := 30, pointMutationRate := 0.1, subtreeMutationRate := 0.05,
    crossoverRate := 0.7, transpositionRate := 0.1, rootTranspositionRate := 0.1,
    inversionRate := 0.1, selection := .tournament, tournamentSize := 3, eliteCount := 2,
    maxDepth := 6, maxNodes := 50, constantMin := -1000, constantMax := 1000,
    targetFitness := none, convergenceWindow := 10, convergenceEpsilon := 1e-6,
    stopOnConvergence := false, parallelEvaluation := false, seed := none }

instance : Inhabited EvolutionSettings := ⟨default⟩

def refuse (reason : String) : Except Problem Unit := .error (.configuration reason)

/-- A probability; a NaN is none. -/
def checkRate (name : String) (rate : Float) : Except Problem Unit :=
  if 0 ≤ rate ∧ rate ≤ 1 then .ok ()
  else refuse (name ++ " must be between 0 and 1, got " ++ Decimal.plain rate)

def check (s : EvolutionSettings) : Except Problem Unit := do
  if s.populationSize < 2 then refuse "Population size must be at least 2"
  checkRate "mutation_rate" s.pointMutationRate
  checkRate "subtree_mutation_rate" s.subtreeMutationRate
  checkRate "crossover_rate" s.crossoverRate
  checkRate "is_transposition_rate" s.transpositionRate
  checkRate "ris_transposition_rate" s.rootTranspositionRate
  checkRate "inversion_rate" s.inversionRate
  if s.populationSize ≤ s.eliteCount then
    refuse ("Elitism count (" ++ toString s.eliteCount ++
      ") must be smaller than population size (" ++ toString s.populationSize ++ ")")
  if s.tournamentSize = 0 then refuse "Tournament size must be at least 1"
  if s.maxDepth = 0 ∨ s.maxNodes = 0 then refuse "max_depth and max_nodes must be positive"
  if ¬ s.constantMin < s.constantMax then
    refuse ("constant_min (" ++ Decimal.plain s.constantMin ++ ") must be below constant_max (" ++
      Decimal.plain s.constantMax ++ ")")
  if s.stopOnConvergence ∧ s.convergenceWindow < 2 then
    refuse "Convergence window must span at least 2 generations"

end EvolutionSettings
end SignalEvolution

import SignalEvolution.Gene
import SignalEvolution.Json.Basic

/-! # Fitness of genes

A run asks for the fitness of every gene of every generation that it comes to, once for each place
in the population. Nothing is taken for granted of the answers: an evaluator may keep a state of
its own, ask a clock or be called in any order, so an answer is a matter of the call.
-/
namespace SignalEvolution

structure Fitness where
  score : Float
  metadata : Table Json := Table.empty

/-- What judges genes: the answer to each call of a run, which is made for one place in one generation. -/
abbrev Evaluator := (generation place : Nat) → Gene → Fitness

def Evaluator.ofGene (f : Gene → Fitness) : Evaluator := fun _ _ g => f g

end SignalEvolution

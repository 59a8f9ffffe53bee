import SignalEvolution.Fitness
import SignalEvolution.Tree.Distance

/-! # Scored populations

Individuals are ranked by their scores in the total order of numbers, a score
that is NaN counting as minus infinity.
-/
namespace SignalEvolution

structure Scored where
  gene : Gene
  fitness : Fitness

namespace Scored

def score (s : Scored) : Float := s.fitness.score

def rank (s : Scored) : Float := Scalar.rank s.score

/-- Position of a score in the ranking, higher for better ones. -/
def standing (s : Scored) : Int := Binary.orderKey s.rank

/-- The better of two; of equals the second. -/
def better (a b : Scored) : Scored := if b.standing < a.standing then a else b

/-- The best of a population; of equals the last. -/
def best? : List Scored → Option Scored
  | [] => none
  | first :: rest => some (rest.foldl better first)

/-- From best to worst; equals keep their order. -/
def ranked (population : List Scored) : List Scored :=
  population.mergeSort fun a b => b.standing ≤ a.standing

def elites (population : List Scored) (count : Nat) : List Gene :=
  ((ranked population).take count).map Scored.gene

def worstRank? : List Scored → Option Float
  | [] => none
  | first :: rest => some (rest.foldl
      (fun lowest s => if Binary.orderKey s.rank < Binary.orderKey lowest then s.rank else lowest)
      first.rank)

end Scored

structure GenerationStats where
  generation : Nat
  best : Float
  /-- Mean of the finite scores. -/
  average : Float
  worst : Float
  diversity : Float
  bestId : String
  bestFormula : String

namespace GenerationStats

def notANumber : Float := 0.0 / 0.0

def ofPopulation (generation : Nat) (population : List Scored) : GenerationStats :=
  let best := Scored.best? population
  let finite := (population.map Scored.score).filter Float.isFinite
  { generation
    best := (best.map Scored.score).getD notANumber
    average := if finite.isEmpty then notANumber else Scalar.mean finite
    worst := (Scored.worstRank? population).getD notANumber
    diversity := Diversity.ofTrees (population.map fun s => s.gene.root)
    bestId := (best.map fun s => s.gene.id).getD ""
    bestFormula := (best.map fun s => s.gene.formula).getD "" }

end GenerationStats

/-- Whether the last `window` best scores differ by less than `epsilon`. -/
def hasConverged {α : Type} [Scalar α] (best : List α) (window : Nat) (epsilon : α) : Bool :=
  if window = 0 ∨ best.length < window then false
  else match (best.drop (best.length - window)).map Scalar.rank with
    | [] => false
    | first :: rest => rest.foldl Scalar.max first - rest.foldl Scalar.min first < epsilon

end SignalEvolution

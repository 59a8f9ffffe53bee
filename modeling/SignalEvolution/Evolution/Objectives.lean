import SignalEvolution.Evolution.Engine
import SignalEvolution.Text.Quoted

/-! # Weighted objectives

Several scores are joined by weights. Objectives without a weight of their own
share what the others leave of 1, or 1 as a whole where the others come to
nothing.
-/
namespace SignalEvolution

namespace Weights

variable {α : Type} [Scalar α]

@[specialize] def given (weights : List (Option α)) : α := Scalar.sum (weights.filterMap id)

def openCount (weights : List (Option α)) : Nat := (weights.filter Option.isNone).length

@[specialize] def share (weights : List (Option α)) : α :=
  if openCount weights = 0 then 0
  else if given weights == 0 then 1 / Scalar.ofNat (openCount weights)
  else Scalar.max (1 - given weights) 0 / Scalar.ofNat (openCount weights)

@[specialize] def effective (weights : List (Option α)) : List α :=
  weights.map fun w => w.getD (share weights)

/-- Whether the given weights leave nothing for the others. -/
@[specialize] def exhausted (weights : List (Option α)) : Bool := !(given weights < 1)

end Weights

structure Objective (α : Type := Float) where
  name : String
  weight : Option α
  score : (generation place : Nat) → Gene → α

namespace Objective

variable {α : Type} [Scalar α]

@[specialize] def weights (objectives : List (Objective α)) : List α :=
  Weights.effective (objectives.map Objective.weight)

@[specialize] def starved (objectives : List (Objective α)) : List String :=
  if Weights.exhausted (objectives.map Objective.weight) then
    (objectives.filter fun o => o.weight.isNone).map Objective.name
  else []

/-- Weighted sum of the scores, each of them kept under its name. -/
def evaluator (objectives : List Objective) : Evaluator := fun generation place g =>
  let scores := objectives.map fun o => o.score generation place g
  { score := (scores.zip (weights objectives)).foldl (fun sum e => sum + e.2 * e.1) 0
    metadata := Table.ofList ((objectives.zip scores).map fun e => (e.1.name, Json.number e.2)) }

@[specialize] def check (objectives : List (Objective α)) : Except Problem Unit :=
  if objectives.isEmpty then
    .error (.configuration "multi-objective run needs at least one objective")
  else if (weights objectives).any fun w => !Scalar.isFinite w then
    .error (.configuration "objective weights must be finite")
  else if !(starved objectives).isEmpty then
    .error (.configuration ("explicit weights leave nothing for unweighted objectives " ++
      Text.quotedList (starved objectives)))
  else .ok ()

end Objective

/-- A run over objectives; refused ones leave the engine as it is. -/
@[specialize] def Engine.evolveObjectives {σ : Type} [WordSource σ] (e : Engine σ)
    (initial : Option (List Gene)) (objectives : List Objective) :
    Option (Except Problem (Outcome × List Event) × Engine σ) :=
  match Objective.check objectives with
  | .error p => some (.error p, e)
  | .ok () =>
    (e.evolve initial (Objective.evaluator objectives)).map fun (outcome, events, e) =>
      (.ok (outcome, events), e)

end SignalEvolution

import SignalEvolution.Evolution.Population
import SignalEvolution.Evolution.Settings
import SignalEvolution.Random.Draw

/-! # Selection of parents

A tournament takes the best of a few individuals. The roulette wheel takes an
individual with a chance in proportion to its score, as far as that is positive
and finite.
-/
namespace SignalEvolution

namespace Roulette

variable {α β : Type} [Scalar α]

@[specialize] def weight (score : α) : α :=
  if Scalar.isFinite score then Scalar.max score 0 else 0

/-- Walks over positive weights until they use up the spin. -/
@[specialize] def stop? (spin : α) : List (α × β) → Option β
  | [] => none
  | (w, x) :: rest =>
    if w ≤ 0 then stop? spin rest
    else if spin - w ≤ 0 then some x
    else stop? (spin - w) rest

/-- Where a spin over a share `u` of all weights ends; at the last positive weight when
rounding leaves a rest. -/
@[specialize] def spin? (u : α) (weighted : List (α × β)) : Option β :=
  match stop? (u * Scalar.sum (weighted.map (·.1))) weighted with
  | some x => some x
  | none => (weighted.reverse.find? fun e => 0 < e.1).map (·.2)

end Roulette

namespace Scored

variable {σ : Type} [WordSource σ]

@[specialize] def member (population : List Scored) : Draw σ (Option Scored) := do
  if population.isEmpty then return none
  let n ← Draw.index population.length
  return population[n]?

@[specialize] def challenge (population : List Scored) : (rounds : Nat) → Scored → Draw σ Scored
  | 0, best => pure best
  | rounds + 1, best => do
    match ← member population with
    | none => challenge population rounds best
    | some candidate =>
      challenge population rounds (if best.rank < candidate.rank then candidate else best)

@[specialize] def tournament (population : List Scored) (size : Nat) : Draw σ (Option Scored) := do
  match ← member population with
  | none => return none
  | some first => return some (← challenge population (Nat.max size 1 - 1) first)

@[specialize] def roulette (population : List Scored) : Draw σ (Option Scored) := do
  if population.isEmpty then return none
  let weighted := population.map fun s => (Roulette.weight s.score, s)
  if Scalar.sum (weighted.map (·.1)) ≤ 0 then member population
  else
    let u ← Draw.unit
    return Roulette.spin? u weighted

@[specialize] def select (settings : EvolutionSettings) (population : List Scored) :
    Draw σ (Option Scored) :=
  match settings.selection with
  | .tournament => tournament population settings.tournamentSize
  | .roulette => roulette population

end Scored
end SignalEvolution

import SignalEvolution.Evolution.Hall
import SignalEvolution.Evolution.Selection
import SignalEvolution.Variation.Operators

/-! # Evolution

A population is scored, entered into the hall of fame and summarised; then the
elites and the offspring of selected pairs form the next one. The run ends at
the target, at convergence or after the last generation, in this order. It breaks
off where a draw does. Memory is taken to be there for every population and history.
-/
namespace SignalEvolution

inductive Termination where
  | targetReached
  | converged
  | generationBudget
  deriving Repr, DecidableEq

namespace Termination

def all : List Termination := [targetReached, converged, generationBudget]

def name : Termination → String
  | targetReached => "TargetReached"
  | converged => "Converged"
  | generationBudget => "GenerationBudget"

end Termination

structure Outcome where
  /-- The last population that was scored. -/
  population : List Scored
  history : List GenerationStats
  termination : Termination

def Outcome.best? (o : Outcome) : Option Scored := Scored.best? o.population

inductive Event where
  | started (generation : Nat)
  | evaluated (current total : Nat)
  | completed (stats : GenerationStats) (hallSize : Nat)

structure Engine (σ : Type) where
  settings : EvolutionSettings
  generator : Generator
  hall : Hall
  words : σ

namespace EvolutionSettings

variable {σ : Type} [WordSource σ]

/-- How often a tree that is too large is drawn again. -/
def maxRedraws : Nat := 8

/-- A comparison of two terminals, or a terminal alone where even that is too large. -/
@[specialize] def minimalSignal (s : EvolutionSettings) (g : Generator) : PartialDraw σ Tree := do
  if s.maxNodes < 3 ∨ s.maxDepth < 2 then g.terminal
  else
    let cmp ← (Draw.choose? Comparator.all).sure
    let left ← g.terminal
    let right ← g.terminal
    return Tree.compare (cmp.getD .greater) left right

/-- Draws signals until one fits, and settles for a minimal one in the end. -/
@[specialize] def fittingSignal (s : EvolutionSettings) (g : Generator) : (redraws : Nat) → PartialDraw σ Tree
  | 0 => do
    let t ← g.signal
    if s.maxNodes < t.nodeCount then s.minimalSignal g else return t
  | redraws + 1 => do
    let t ← g.signal
    if s.maxNodes < t.nodeCount then s.fittingSignal g redraws else return t

@[specialize] def individual (s : EvolutionSettings) (g : Generator) : PartialDraw σ Gene := do
  let t ← s.fittingSignal g maxRedraws
  (Gene.ofTree t).sure

@[specialize] def population (s : EvolutionSettings) (g : Generator) : PartialDraw σ (List Gene) :=
  (s.individual g).times s.populationSize

@[specialize] def fitPopulation (s : EvolutionSettings) (g : Generator) (genes : List Gene) :
    PartialDraw σ (List Gene) := do
  let kept := genes.take s.populationSize
  let added ← (s.individual g).times (s.populationSize - kept.length)
  return kept ++ added

@[specialize] def pair (s : EvolutionSettings) (a b : Gene) (generation : Nat) : Draw σ (Gene × Gene) := do
  let roll ← Draw.unit
  if roll < s.crossoverRate then Gene.cross s a b generation
  else
    let childA ← Gene.offspring a.root [a] generation
    let childB ← Gene.offspring b.root [b] generation
    return (childA, childB)

/-- Two children of parents that are selected, before mutation. -/
@[specialize] def litter (s : EvolutionSettings) (scored : List Scored) (generation : Nat) :
    Draw σ (Option (Gene × Gene)) := do
  let first ← Scored.select s scored
  let second ← Scored.select s scored
  match first, second with
  | some p, some q =>
    let children ← s.pair p.gene q.gene generation
    return some children
  | _, _ => return none

/-- Adds children, two of a pair or the one that is still missing, until none is missing. -/
@[specialize] def breed (s : EvolutionSettings) (g : Generator) (scored : List Scored) (generation : Nat) :
    (missing : Nat) → PartialDraw σ (List Gene)
  | 0 => pure []
  | 1 => do
    match ← (s.litter scored generation).sure with
    | none => return []
    | some (a, _) =>
      let child ← a.vary ⟨s, g⟩
      return [child]
  | missing + 2 => do
    match ← (s.litter scored generation).sure with
    | none => return []
    | some (a, b) =>
      let childA ← a.vary ⟨s, g⟩
      let childB ← b.vary ⟨s, g⟩
      let rest ← s.breed g scored generation missing
      return childA :: childB :: rest

@[specialize] def nextGeneration (s : EvolutionSettings) (g : Generator) (scored : List Scored)
    (generation : Nat) : PartialDraw σ (List Gene) := do
  if scored.isEmpty then s.population g
  else
    let kept := Scored.elites scored s.eliteCount
    let children ← s.breed g scored generation (s.populationSize - kept.length)
    return kept ++ children

end EvolutionSettings

namespace Engine

variable {σ : Type} [WordSource σ]

def make (settings : EvolutionSettings) (words : σ) : Except Problem (Engine σ) := do
  settings.check
  return { settings, generator := Generator.ofSettings settings,
           hall := { capacity := Hall.defaultCapacity }, words }

@[specialize] def draw {α : Type} (e : Engine σ) (d : PartialDraw σ α) : Option (α × Engine σ) :=
  (d.run e.words).map fun (x, words) => (x, { e with words })

def score (evaluator : Evaluator) (generation : Nat) (genes : List Gene) : List Scored :=
  genes.mapIdx fun place g => ⟨g, evaluator generation place g⟩

/-- Scores a generation side by side: the answers are collected in the order of the genes, in
whatever order they come, and then joined to them. -/
def scoreTogether (evaluator : Evaluator) (generation : Nat) (genes : List Gene) : List Scored :=
  List.zipWith Scored.mk genes (genes.mapIdx (evaluator generation))

def judge (settings : EvolutionSettings) (evaluator : Evaluator) (generation : Nat)
    (genes : List Gene) : List Scored :=
  if settings.parallelEvaluation then scoreTogether evaluator generation genes
  else score evaluator generation genes

theorem judge_eq (settings : EvolutionSettings) (evaluator : Evaluator) (generation : Nat)
    (genes : List Gene) : judge settings evaluator generation genes = score evaluator generation genes := by
  unfold judge
  split
  · apply List.ext_getElem
    · simp [scoreTogether, score]
    · intro i _ _
      simp [scoreTogether, score]
  · rfl

/-- Reports of single evaluations; there are none when they run side by side. -/
def evaluationEvents (settings : EvolutionSettings) (total : Nat) : List Event :=
  if settings.parallelEvaluation then []
  else (List.range total).map fun i => .evaluated (i + 1) total

/-- Whether a run ends after this history, and why. -/
def ending? (settings : EvolutionSettings) (history : List GenerationStats) : Option Termination :=
  let reached := settings.targetFitness.any fun target => history.getLast?.any fun s => target ≤ s.best
  let still := settings.stopOnConvergence &&
    hasConverged (history.map GenerationStats.best) settings.convergenceWindow settings.convergenceEpsilon
  if reached then some .targetReached
  else if still then some .converged
  else none

/-- Runs from one population on, `left` generations after this one at most. -/
@[specialize] def runFrom (evaluator : Evaluator) :
    (left : Nat) → (generation : Nat) → List Gene → List GenerationStats → Engine σ →
      Option (Outcome × List Event × Engine σ)
  | left, generation, genes, history, e =>
    let scored := judge e.settings evaluator generation genes
    let e := { e with hall := (e.hall.offerAll generation scored).1 }
    let stats := GenerationStats.ofPopulation generation scored
    let history := history ++ [stats]
    let events := .started generation :: evaluationEvents e.settings genes.length ++
      [.completed stats e.hall.entries.length]
    match ending? e.settings history, left with
    | some reason, _ => some (⟨scored, history, reason⟩, events, e)
    | none, 0 => some (⟨scored, history, .generationBudget⟩, events, e)
    | none, left + 1 => do
      let (next, e) ← e.draw (e.settings.nextGeneration e.generator scored (generation + 1))
      let (outcome, later, e) ← runFrom evaluator left (generation + 1) next history e
      return (outcome, events ++ later, e)

/-- A run from a given population or a random one; none where a draw breaks off. -/
@[specialize] def evolve (e : Engine σ) (initial : Option (List Gene)) (evaluator : Evaluator) :
    Option (Outcome × List Event × Engine σ) := do
  let (genes, e) ← e.draw (match initial with
    | some genes => e.settings.fitPopulation e.generator genes
    | none => e.settings.population e.generator)
  runFrom evaluator (Nat.max e.settings.generations 1 - 1) 0 genes [] e

end Engine
end SignalEvolution

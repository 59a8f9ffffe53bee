import SignalEvolution.Gene
import SignalEvolution.Random.Normal
import SignalEvolution.Text.Hex
import SignalEvolution.Tree.Path
import SignalEvolution.Variation.Generator

/-! # Variation of trees

Each operator makes new trees from old ones and gives none where its conditions
fail: a single node has nothing to exchange, and a result may not outgrow the
bounds of the settings.
-/
namespace SignalEvolution

inductive Variation where
  | pointMutation
  | subtreeMutation
  | crossover
  | transposition
  | rootTransposition
  | inversion
  deriving Repr, DecidableEq

namespace Variation

def name : Variation → String
  | pointMutation => "point_mutation"
  | subtreeMutation => "subtree_mutation"
  | crossover => "crossover"
  | transposition => "is_transposition"
  | rootTransposition => "ris_transposition"
  | inversion => "inversion"

end Variation

namespace EvolutionSettings

def admits (s : EvolutionSettings) (t : Tree) : Bool :=
  t.nodeCount ≤ s.maxNodes && t.depth ≤ s.maxDepth

/-- Brings a constant into the range of the settings, where the range is in order. -/
def clampConstant (s : EvolutionSettings) (x : Float) : Float :=
  if s.constantMin ≤ s.constantMax then Scalar.clamp s.constantMin s.constantMax x else x

end EvolutionSettings

namespace Tree

variable {σ : Type} [WordSource σ]

def graft (t : Tree) (path : Path) (new : Tree) : Tree :=
  match t.replaceAt? path new with
  | some (out, _) => out
  | none => t

/-- Changes one parameter by up to a fifth; there may be none to change. -/
@[specialize] def perturb (i : Indicator) (params : Table Float) : Draw σ (Option Kind) := do
  match ← Draw.choose? i.specs with
  | none => return none
  | some spec =>
    let factor ← Draw.within 0.8 1.2
    return some (.indicator i.mnemonic
      (params.insert spec.name (spec.normalize (spec.value params * factor))))

@[specialize] def exchange (i : Indicator) (params : Table Float) : Draw σ (Option Kind) := do
  match ← Draw.choose? (Indicator.all.filter (· ≠ i)) with
  | none => return none
  | some other =>
    return some (.indicator other.mnemonic (Table.ofList (other.specs.map fun s => (s.name, s.value params))))

/-- Perturbs or exchanges an indicator; a name that no indicator has stays as it is. -/
@[specialize] def mutateIndicator (name : String) (params : Table Float) : Draw σ Kind := do
  match Indicator.find? name.toList with
  | none => return .indicator name params
  | some i =>
    let perturbed ← (if (i.specs (α := Float)).isEmpty then pure false else Draw.coin)
    let kind ← (if perturbed then perturb i params else exchange i params)
    return kind.getD (.indicator name params)

/-- Another kind of the same family and arity; NOT has none and stays. -/
@[specialize] def mutateKind (settings : EvolutionSettings) : Kind → Draw σ Kind
  | .constant x => do
    let delta ← Draw.normal 0 (Scalar.max (x.abs * 0.1) 1)
    return .constant (settings.clampConstant (x + delta))
  | .series s => do
    let other ← Draw.choose? (Series.all.filter (· ≠ s))
    return .series (other.getD s)
  | .indicator name params => mutateIndicator name params
  | .operator op => do
    let other ← Draw.choose? op.siblings
    return .operator (other.getD op)
  | .comparator cmp => do
    let other ← Draw.choose? (Comparator.all.filter (· ≠ cmp))
    return .comparator (other.getD cmp)

@[specialize] def pointMutation (settings : EvolutionSettings) (t : Tree) : Draw σ Tree := do
  match ← Draw.choose? t.paths with
  | none => return t
  | some path =>
    match t.get? path with
    | none => return t
    | some target =>
      let kind ← mutateKind settings target.kind
      return t.graft path (.node kind target.children)

def innerPaths (t : Tree) : List Path := t.paths.tail

/-- Puts a random tree in place of a subtree, within the levels that are left. -/
@[specialize] def subtreeMutation (settings : EvolutionSettings) (g : Generator) (t : Tree) :
    PartialDraw σ (Option Tree) := do
  match ← (Draw.choose? t.innerPaths).sure with
  | none => return none
  | some path =>
    let budget := Nat.max (settings.maxDepth + 1 - (path.length + 1)) 1
    let new ← g.tree budget
    let out := t.graft path new
    return if settings.maxNodes < out.nodeCount then none else some out

@[specialize] def crossover (settings : EvolutionSettings) (a b : Tree) :
    Draw σ (Option (Tree × Tree)) := do
  match ← Draw.choose? a.innerPaths with
  | none => return none
  | some pathA =>
    match ← Draw.choose? b.innerPaths with
    | none => return none
    | some pathB =>
      match a.get? pathA, b.get? pathB with
      | some subA, some subB =>
        let outA := a.graft pathA subB
        let outB := b.graft pathB subA
        return if settings.admits outA && settings.admits outB then some (outA, outB) else none
      | _, _ => return none

/-- The child positions of all nodes but the one at `source`, without `source` itself. -/
def slots (t : Tree) (source : Path) : List Path :=
  let targets := t.paths.filter (· ≠ source)
  let positions := targets.flatMap fun p =>
    (List.range ((t.get? p).elim 0 fun n => n.kind.arity)).map fun i => p ++ [i]
  positions.filter (· ≠ source)

@[specialize] def transposition (settings : EvolutionSettings) (t : Tree) :
    Draw σ (Option Tree) := do
  match ← Draw.choose? t.innerPaths with
  | none => return none
  | some path =>
    match t.get? path with
    | none => return none
    | some source =>
      match ← Draw.choose? (t.slots path) with
      | none => return none
      | some slot =>
        let out := t.graft slot source
        return if !(out == t) && settings.admits out then some out else none

/-- Joins the tree and a copy of one of its subtrees by AND or OR. -/
@[specialize] def rootTransposition (settings : EvolutionSettings) (t : Tree) :
    Draw σ (Option Tree) := do
  match ← Draw.choose? t.innerPaths with
  | none => return none
  | some path =>
    match t.get? path with
    | none => return none
    | some lifted =>
      let out := if ← Draw.coin then t.both lifted else t.either lifted
      return if settings.admits out then some out else none

def isReversible (t : Tree) : Bool :=
  t.nodeType == .operator && 2 ≤ t.children.length

/-- Reverses the operands of one operator with two of them. -/
@[specialize] def inversion (t : Tree) : Draw σ (Option Tree) := do
  match ← Draw.choose? (t.paths.filter fun p => (t.get? p).any isReversible) with
  | none => return none
  | some path =>
    match t.get? path with
    | none => return none
    | some target =>
      let out := t.graft path target.reversed
      return if out == t then none else some out

end Tree

structure Variator where
  settings : EvolutionSettings
  generator : Generator

namespace Variator

variable {σ : Type} [WordSource σ]

/-- With a chance of `rate`, tries a variation and records it if it gives a tree. -/
@[specialize] def attempt (rate : Float) (kind : Variation) (vary : Tree → PartialDraw σ (Option Tree))
    (state : Tree × List Variation) : PartialDraw σ (Tree × List Variation) := do
  let roll ← Draw.unit.sure
  if roll < rate then
    match ← vary state.1 with
    | some out => return (out, state.2 ++ [kind])
    | none => return state
  else return state

@[specialize] def visibleMutation (s : EvolutionSettings) (t : Tree) : Draw σ (Option Tree) := do
  let out ← t.pointMutation s
  return if out == t then none else some out

/-- All variations of one tree in turn, each with its own rate, and the ones that took place. -/
@[specialize] def mutate (v : Variator) (t : Tree) : PartialDraw σ (Tree × List Variation) := do
  let s := v.settings
  let state ← attempt s.pointMutationRate .pointMutation (fun t => (visibleMutation s t).sure) (t, [])
  let state ← attempt s.subtreeMutationRate .subtreeMutation (·.subtreeMutation s v.generator) state
  let state ← attempt s.transpositionRate .transposition (fun t => (t.transposition s).sure) state
  let state ← attempt s.rootTranspositionRate .rootTransposition (fun t => (t.rootTransposition s).sure) state
  attempt s.inversionRate .inversion (fun t => t.inversion.sure) state

end Variator

namespace Lineage

def recordAll (l : Lineage) (kinds : List Variation) : Lineage :=
  kinds.foldl (fun l kind => l.record kind.name) l

end Lineage

namespace Gene

variable {σ : Type} [WordSource σ]

@[specialize] def randomId : Draw σ String := do return Text.hexWord (← Draw.word64)

@[specialize] def ofTree (root : Tree) : Draw σ Gene := do return { root, id := ← randomId }

@[specialize] def offspring (root : Tree) (parents : List Gene) (generation : Nat) : Draw σ Gene := do
  return { root, id := ← randomId, generation, lineage := { parents := parents.map Gene.id } }

@[specialize] def vary (v : Variator) (g : Gene) : PartialDraw σ Gene := do
  let (root, kinds) ← v.mutate g.root
  return { g with root, lineage := g.lineage.recordAll kinds }

@[specialize] def mutant (v : Variator) (g : Gene) (generation : Nat) : PartialDraw σ Gene := do
  let (root, kinds) ← v.mutate g.root
  let child ← (offspring root [g] generation).sure
  return { child with lineage := child.lineage.recordAll kinds }

/-- Two children of two genes; copies of the parents' trees where the exchange fails. -/
@[specialize] def cross (settings : EvolutionSettings) (a b : Gene) (generation : Nat) :
    Draw σ (Gene × Gene) := do
  match ← Tree.crossover settings a.root b.root with
  | some (rootA, rootB) =>
    let childA ← offspring rootA [a, b] generation
    let childB ← offspring rootB [b, a] generation
    return ({ childA with lineage := childA.lineage.recordAll [.crossover] },
      { childB with lineage := childB.lineage.recordAll [.crossover] })
  | none =>
    let childA ← offspring a.root [a, b] generation
    let childB ← offspring b.root [b, a] generation
    return (childA, childB)

end Gene
end SignalEvolution

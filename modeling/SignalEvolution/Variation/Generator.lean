import SignalEvolution.Evolution.Settings
import SignalEvolution.Random.Draw
import SignalEvolution.Tree.Basic

/-! # Random trees

A tree is drawn within a budget of levels. Every level takes one off the budget
and a budget of one leaves room for a terminal only, so a tree has no more
levels than its budget.
-/
namespace SignalEvolution

structure Generator where
  maxDepth : Nat
  constantLow : Float
  constantHigh : Float
  deriving Inhabited

namespace Generator

/-- Trees of at least one level, with constants from 0 to 100. -/
def ofDepth (maxDepth : Nat) : Generator := ⟨Nat.max maxDepth 1, 0, 100⟩

/-- Draws constants from another range, unless it is empty. -/
def withConstants (g : Generator) (low high : Float) : Generator :=
  if low < high then { g with constantLow := low, constantHigh := high } else g

/-- Constants come from 0 to 100 as far as the settings admit, else from all they admit. -/
def ofSettings (s : EvolutionSettings) : Generator :=
  let low := Scalar.max s.constantMin 0
  let high := Scalar.min s.constantMax 100
  if low < high then (ofDepth s.maxDepth).withConstants low high
  else (ofDepth s.maxDepth).withConstants s.constantMin s.constantMax

/-- Share of operators and comparators among the nodes that may have children. -/
def functionShare : Float := 0.3

def indicatorShare : Float := 0.3

variable {σ : Type} [WordSource σ]

@[specialize] def series (_ : Generator) : Draw σ Tree := do
  let s ← Draw.choose? Series.all
  return Tree.series (s.getD .close)

/-- A constant with two decimal places. -/
@[specialize] def constant (g : Generator) : PartialDraw σ Tree := do
  let x ← Draw.below g.constantLow g.constantHigh
  return Tree.constant (roundHalfAway (x * 100) / 100)

@[specialize] def terminal (g : Generator) : PartialDraw σ Tree := do
  if ← Draw.coin.sure then g.series.sure else g.constant

/-- A parameter between its least value and three times its default. -/
@[specialize] def param (spec : ParamSpec Float) : Draw σ (String × Float) := do
  let high := Scalar.min (spec.default * 3) spec.greatest
  if spec.least < high then
    let x ← Draw.within spec.least high
    return (spec.name, spec.normalize x)
  else return (spec.name, spec.default)

@[specialize] def indicator (_ : Generator) : Draw σ Tree := do
  let n ← Draw.index Indicator.all.length
  let i := Indicator.all.getD n default
  let params ← Draw.forEach param i.specs
  return Tree.indicator i (Table.ofList params)

def functions : List Kind := Operator.all.map .operator ++ Comparator.all.map .comparator

def arithmetic : List Operator := Operator.all.filter fun op => op.family = .arithmetic

@[specialize] def tree (g : Generator) : (budget : Nat) → PartialDraw σ Tree
  | 0 | 1 => g.terminal
  | budget + 2 => do
    let roll ← Draw.unit.sure
    if roll < functionShare then
      let n ← (Draw.index functions.length).sure
      let kind := functions.getD n default
      let children ← PartialDraw.times kind.arity (g.tree (budget + 1))
      return .node kind children
    else if roll < functionShare + indicatorShare then g.indicator.sure
    else g.terminal

@[specialize] def numeric (g : Generator) : (budget : Nat) → PartialDraw σ Tree
  | 0 | 1 => g.terminal
  | budget + 2 => do
    let roll ← Draw.unit.sure
    if roll < functionShare then
      let op := (← (Draw.choose? arithmetic).sure).getD .add
      let children ← PartialDraw.times op.arity (g.numeric (budget + 1))
      return .node (.operator op) children
    else if roll < functionShare + indicatorShare then g.indicator.sure
    else g.terminal

/-- A comparison of two numbers; with one level only, any tree. -/
@[specialize] def signal (g : Generator) : PartialDraw σ Tree := do
  if g.maxDepth < 2 then g.tree g.maxDepth
  else
    let cmp ← (Draw.choose? Comparator.all).sure
    let left ← g.numeric (g.maxDepth - 1)
    let right ← g.numeric (g.maxDepth - 1)
    return Tree.compare (cmp.getD .greater) left right

end Generator
end SignalEvolution

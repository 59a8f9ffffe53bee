import SignalEvolution.Indicator.Reading
import SignalEvolution.Market.Context
import SignalEvolution.Tree.Basic

/-! # Evaluation of signal trees

A tree has a value in every context: truth values and numbers stand for each
other where an operator needs the other sort, division by zero is infinite, and
an indicator without enough bars reads as the current close.
-/
namespace SignalEvolution

inductive Value where
  | truth (b : Bool)
  | number (x : Float)

namespace Value

/-- Numbers are true unless they are zero or NaN. -/
def isTrue : Value → Bool
  | truth b => b
  | number x => !x.isNaN && x != 0

def toNumber : Value → Float
  | truth true => 1
  | truth false => 0
  | number x => x

end Value

/-- The quotient, infinite over zero with the sign of the dividend. -/
def protectedQuotient (a b : Float) : Float :=
  if b == 0 then
    if a.isNaN then a
    else if a < 0 then -infinity
    else infinity
  else a / b

namespace Indicator

/-- The supplied reading; its key is put together only where readings are supplied at all. -/
def suppliedIn? (name : String) (params : Table Float) (c : Context) : Option Float :=
  if c.feed.entries.isEmpty then none else c.supplied? (readingKey name params)

theorem suppliedIn?_eq (name : String) (params : Table Float) (c : Context) :
    suppliedIn? name params c = c.supplied? (readingKey name params) := by
  unfold suppliedIn? Context.supplied? Table.find?
  split
  · next h => rw [List.isEmpty_iff.mp h]; rfl
  · rfl

/-- Reading for the current bar under a name in any case: the supplied one, else the computed one, else
the close, which it also is where no indicator has the name. -/
def readingNamed (name : String) (params : Table Float) (c : Context) : Float :=
  match suppliedIn? name params c with
  | some x => x
  | none =>
    match find? name.toList with
    | none => c.current.close
    | some i =>
      if c.bars.length < i.lookback params then c.current.close
      else (i.reading? params c.bars).getD c.current.close

def readingIn (i : Indicator) (params : Table Float) (c : Context) : Float :=
  readingNamed i.mnemonic params c

end Indicator

def Operator.value (op : Operator) (args : List Value) : Value :=
  match op, args with
  | .and, [a, b] => .truth (a.isTrue && b.isTrue)
  | .or, [a, b] => .truth (a.isTrue || b.isTrue)
  | .not, [a] => .truth !a.isTrue
  | .add, [a, b] => .number (a.toNumber + b.toNumber)
  | .sub, [a, b] => .number (a.toNumber - b.toNumber)
  | .mul, [a, b] => .number (a.toNumber * b.toNumber)
  | .div, [a, b] => .number (protectedQuotient a.toNumber b.toNumber)
  | op, _ => if op.family = .logical then .truth false else .number 0

def Kind.value (c : Context) (args : List Value) : Kind → Value
  | .operator op => op.value args
  | .comparator cmp =>
    match args with
    | [a, b] => .truth (cmp.holds a.toNumber b.toNumber)
    | _ => .truth false
  | .indicator name params => .number (Indicator.readingNamed name params c)
  | .constant x => .number x
  | .series s => .number (s.value c.current)

namespace Tree

mutual
/-- The value of a tree; what AND and OR do not need is not worked out. -/
def value (c : Context) : Tree → Value
  | node (.operator .and) [a, b] => .truth ((a.value c).isTrue && (b.value c).isTrue)
  | node (.operator .or) [a, b] => .truth ((a.value c).isTrue || (b.value c).isTrue)
  | node k cs => k.value c (values c cs)
def values (c : Context) : List Tree → List Value
  | [] => []
  | t :: ts => t.value c :: values c ts
end

theorem value_node (c : Context) (k : Kind) (cs : List Tree) :
    (node k cs).value c = k.value c (values c cs) := by
  unfold value
  split <;> simp_all [Kind.value, Operator.value, values]

/-- Whether the tree holds in each of the contexts that a walk over more bars passes. -/
def signalsFrom (t : Tree) (c : Context) : List (Bar Float) → List Bool
  | [] => []
  | bar :: bars =>
    let next := c.push bar
    (t.value next).isTrue :: signalsFrom t next bars

/-- Whether the tree holds at each bar, with at most `capacity` earlier bars in view. -/
def signals (t : Tree) (capacity : Nat) : List (Bar Float) → List Bool
  | [] => []
  | bar :: bars =>
    let first := Context.start bar capacity
    (t.value first).isTrue :: signalsFrom t first bars

end Tree
end SignalEvolution

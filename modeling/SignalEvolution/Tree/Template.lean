import SignalEvolution.Tree.Basic

/-! # Well-known signals -/
namespace SignalEvolution.Template

def period (n : Nat) : Table Float := Table.empty.insert "period" (Float.ofNat n)

def withPeriod (n : Nat) (i : Indicator) : Tree := Tree.indicator i (period n)

def crossover (fast slow : Nat) : Tree :=
  Tree.compare .greater (withPeriod fast .simpleAverage) (withPeriod slow .simpleAverage)

def oversold (n : Nat) (limit : Float) : Tree :=
  Tree.compare .less (withPeriod n .relativeStrength) (Tree.constant limit)

/-- The close is above two standard deviations. -/
def breakout (n : Nat) : Tree :=
  Tree.compare .greater (Tree.series .close)
    (Tree.indicator .upperBand ((period n).insert "std" 2))

def pullback (n : Nat) (limit : Float) (trend : Nat) : Tree :=
  Tree.both (oversold n limit)
    (Tree.compare .greater (Tree.series .close) (withPeriod trend .simpleAverage))

end SignalEvolution.Template

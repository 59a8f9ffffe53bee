import SignalEvolution.Arithmetic.Scalar

/-! # Exact scalars

Rational numbers, on which no calculation rounds. All of them are finite and
comparable; only the root of a number that is no square is cut off.
-/
namespace SignalEvolution.Exact

def round (x : Rat) : Rat :=
  if 0 ≤ x then ((x + 1 / 2).floor : Rat) else -((1 / 2 - x).floor : Rat)

/-- The root of a square; of other numbers that of the largest squares in numerator and denominator. -/
def sqrt (x : Rat) : Rat := (Nat.sqrt x.num.toNat : Rat) / (Nat.sqrt x.den : Rat)

def toNat (x : Rat) : Nat := Nat.min x.floor.toNat (UInt64.size - 1)

instance : Scalar Rat where
  ltDecidable := inferInstance
  leDecidable := inferInstance
  ofNat n := n
  abs := Rat.abs
  sqrt := sqrt
  round := round
  toNat := toNat
  isFinite _ := true
  finiteBounds := none
  lowest := 0

end SignalEvolution.Exact

/-! # Scalars: the numbers that prices, scores and weights are made of

Every calculation on prices is written once over `Scalar`. Binary64 numbers run
it; rational numbers are the second instance, in which no step rounds.
Comparisons are those of the number type itself, so a NaN is neither below nor
equal to anything.
-/
namespace SignalEvolution

class Scalar (α : Type) extends Add α, Sub α, Mul α, Div α, Neg α, LT α, LE α, BEq α where
  ltDecidable : (a b : α) → Decidable (a < b)
  leDecidable : (a b : α) → Decidable (a ≤ b)
  ofNat : Nat → α
  abs : α → α
  sqrt : α → α
  round : α → α
  /-- Whole part as a word of 64 bits: negative numbers and NaN give 0, large ones the largest word. -/
  toNat : α → Nat
  isFinite : α → Bool
  finiteBounds : Option (α × α)
  /-- What an incomparable number ranks as. -/
  lowest : α

namespace Scalar

variable {α : Type} [Scalar α]

@[inline] instance : DecidableLT α := ltDecidable
@[inline] instance : DecidableLE α := leDecidable

instance (priority := low) literal (n : Nat) : OfNat α n := ⟨ofNat n⟩

@[inline] def isNaN (x : α) : Bool := !(x == x)

/-- The larger number; a NaN gives way to the other operand, and of two equal ones the first is kept. -/
@[inline] def max (a b : α) : α := if isNaN a then b else if a < b then b else a

/-- The smaller number, with the same rules as `max`. -/
@[inline] def min (a b : α) : α := if isNaN a then b else if b < a then b else a

/-- A number as it ranks: a NaN is below all others. -/
@[inline] def rank (x : α) : α := if isNaN x then lowest else x

@[inline] def clamp (least greatest x : α) : α :=
  if x < least then least else if greatest < x then greatest else x

/-- Ordered sum. The sum of nothing is minus zero, which any first term absorbs. -/
@[specialize] def sum (xs : List α) : α := xs.foldl (· + ·) (-(0 : α))

@[specialize] def mean (xs : List α) : α :=
  if xs.isEmpty then 0 else sum xs / ofNat xs.length

@[specialize] def deviation (xs : List α) : α :=
  let average := mean xs
  sqrt (mean (xs.map fun x => (x - average) * (x - average)))

end Scalar

/-- Nearest whole number, a half going away from zero; from 2 ^ 52 on every number is whole. -/
def roundHalfAway (x : Float) : Float :=
  let magnitude := x.abs
  if magnitude < 4503599627370496 then
    let whole := magnitude.toUInt64.toFloat
    let nearest := if 0.5 ≤ magnitude - whole then whole + 1 else whole
    if x.toBits >>> 63 == 1 then -nearest else nearest
  else x

def greatestFinite : Float := Float.ofBits 0x7fefffffffffffff

def infinity : Float := Float.ofBits 0x7ff0000000000000

instance : Scalar Float where
  ltDecidable := inferInstance
  leDecidable := inferInstance
  ofNat := Float.ofNat
  abs := Float.abs
  sqrt := Float.sqrt
  round := roundHalfAway
  toNat x := x.toUInt64.toNat
  isFinite := Float.isFinite
  finiteBounds := some (-greatestFinite, greatestFinite)
  lowest := -infinity

end SignalEvolution

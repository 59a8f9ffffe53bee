/-! # Binary64 numbers as integers times powers of two

A finite number is `significand * 2 ^ exponent` with its sign apart. The order
key lists all numbers from minus infinity to NaN, minus zero before zero.
-/
namespace SignalEvolution.Binary

def isNegative (x : Float) : Bool := x.toBits >>> 63 == 1

def biasedExponent (x : Float) : Nat := ((x.toBits >>> 52) &&& 0x7ff).toNat

def fraction (x : Float) : Nat := (x.toBits &&& 0x000fffffffffffff).toNat

/-- Significand and power of two of the magnitude of a finite number. -/
def parts (x : Float) : Nat × Int :=
  if biasedExponent x = 0 then (fraction x, -1074)
  else (fraction x + Nat.pow 2 52, (biasedExponent x : Int) - 1075)

/-- Position of a number in the total order of all numbers. -/
def orderKey (x : Float) : Int :=
  let magnitude : Int := (x.toBits &&& 0x7fffffffffffffff).toNat
  if isNegative x then -magnitude - 1 else magnitude

def isWhole (x : Float) : Bool :=
  let (m, q) := parts x
  x.isFinite && (0 ≤ q || m % Nat.pow 2 q.natAbs == 0)

def truncate (x : Float) : Int :=
  let (m, q) := parts x
  let magnitude : Nat := if 0 ≤ q then m * Nat.pow 2 q.natAbs else m / Nat.pow 2 q.natAbs
  if isNegative x then -magnitude else magnitude

/-- The next number toward zero of a positive finite number. -/
def stepDown (x : Float) : Float := Float.ofBits (x.toBits - 1)

def ofInt (n : Int) : Float := if n < 0 then -Float.ofNat n.natAbs else Float.ofNat n.natAbs

end SignalEvolution.Binary

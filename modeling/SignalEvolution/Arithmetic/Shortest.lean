import SignalEvolution.Arithmetic.Binary

/-! # Shortest decimal digits

Of the decimals that lie nearer to a binary64 number than to its neighbours, the
ones with the fewest digits are kept, and of those the nearest. The search tests
the two grid points around the number for one digit, two digits, up to
seventeen, with exact integers.
-/
namespace SignalEvolution.Shortest
open Binary

inductive Tie where
  | up
  | even
  deriving Repr, DecidableEq

structure Decimal where
  digits : Nat
  exponent : Int
  deriving Repr, DecidableEq

def digitCount (n : Nat) : Nat := (Nat.toDigits 10 n).length

/-- A positive rational number `num / den` and the interval of the reals that round to it. -/
structure Target where
  num : Nat
  den : Nat
  below : Nat
  above : Nat
  closed : Bool

/-- The interval around `m * 2 ^ q`, all four numbers over one denominator. -/
def target (m : Nat) (q : Int) : Target :=
  let lower : Nat := if m = Nat.pow 2 52 ∧ q ≠ -1074 then 1 else 2
  let scale : Nat := if 0 ≤ q then Nat.pow 2 q.natAbs else 1
  { num := 4 * m * scale
    den := if 0 ≤ q then 4 else 4 * Nat.pow 2 q.natAbs
    below := (4 * m - lower) * scale
    above := (4 * m + 2) * scale
    closed := m % 2 = 0 }

def Target.admits (t : Target) (n : Nat) : Bool :=
  if t.closed then t.below ≤ n && n ≤ t.above else t.below < n && n < t.above

def Target.onGrid (t : Target) (tie : Tie) (k : Int) : Option Nat :=
  let up : Nat := if 0 ≤ k then 1 else Nat.pow 10 k.natAbs
  let unit : Nat := if 0 ≤ k then Nat.pow 10 k.natAbs * t.den else t.den
  let scaled : Target := { t with num := t.num * up, below := t.below * up, above := t.above * up }
  let low := scaled.num / unit
  let rest := scaled.num % unit
  let lowFits := 0 < low && scaled.admits (low * unit)
  let highFits := scaled.admits ((low + 1) * unit)
  if lowFits && highFits then
    if 2 * rest < unit then some low
    else if unit < 2 * rest then some (low + 1)
    else match tie with
      | .up => some (low + 1)
      | .even => some (if low % 2 = 0 then low else low + 1)
  else if lowFits then some low
  else if highFits then some (low + 1)
  else none

/-- Decimal exponent of `num / den`: the largest `e` with `10 ^ e ≤ num / den`. -/
def decimalExponent (num den : Nat) : Int :=
  let guess : Int := (digitCount num : Int) - digitCount den
  let power := Nat.pow 10 guess.natAbs
  let fits := if 0 ≤ guess then power * den ≤ num else den ≤ num * power
  if fits then guess else guess - 1

def dropZeros : Nat → Nat → Int → Decimal
  | 0, d, e => ⟨d, e⟩
  | fuel + 1, d, e => if d ≠ 0 ∧ d % 10 = 0 then dropZeros fuel (d / 10) (e + 1) else ⟨d, e⟩

/-- Searches the grids of `count` digits and more; seventeen digits always suffice. -/
def search (t : Target) (tie : Tie) (e : Int) : (fuel : Nat) → (count : Nat) → Decimal
  | 0, _ => ⟨0, 0⟩
  | fuel + 1, count =>
    let k := e - count + 1
    match t.onGrid tie k with
    | some d => dropZeros 20 d k
    | none => search t tie e fuel (count + 1)

/-- The shortest decimal of the magnitude of a finite number; zero has the digit 0. -/
def decimal (tie : Tie) (x : Float) : Decimal :=
  let (m, q) := parts x
  if m = 0 then ⟨0, 0⟩
  else
    let t := target m q
    search t tie (decimalExponent t.num t.den) 17 1

end SignalEvolution.Shortest

import SignalEvolution.Arithmetic.Binary
import SignalEvolution.Arithmetic.Scalar
import SignalEvolution.Random.Source

/-! # Draws

How words become indices, truth values and numbers. A word that would favour
some indices is thrown away and drawn again; the patience for that is bounded,
far beyond what any stream of interest asks for. A half open range of numbers is
drawn from only if its width is finite, and a draw that asks for more breaks off.
-/
namespace SignalEvolution.Draw

variable {σ : Type} [WordSource σ]

@[specialize] def word64 : Draw σ UInt64 := WordSource.word64

@[specialize] def word32 : Draw σ UInt32 := WordSource.word32

/-- A number in [0, 1) with 53 random bits. -/
@[specialize] def unit : Draw σ Float := do
  let w ← word64
  return (w >>> 11).toFloat * Float.ofBits 0x3ca0000000000000

@[specialize] def coin : Draw σ Bool := do
  let w ← word64
  return w < 0x8000000000000000

/-- Number of draws after which an index is settled anyway. -/
def patience : Nat := Nat.pow 2 32

/-- The largest low half of a product that is accepted: `n`, shifted to the top of `bits` bits, less one. -/
def zone (bits n : Nat) : Nat := n * Nat.pow 2 (bits - (Nat.log2 n + 1)) - 1

/-- Draws words until one is accepted, and scales it to an index below `n`. -/
@[specialize] def scaled (bits n : Nat) (word : Draw σ Nat) : (fuel : Nat) → Draw σ Nat
  | 0 => pure 0
  | fuel + 1 => do
    let w ← word
    let product := w * n
    if product % Nat.pow 2 bits ≤ zone bits n then pure (product / Nat.pow 2 bits)
    else scaled bits n word fuel

@[specialize] def index (n : Nat) : Draw σ Nat :=
  scaled 64 n (do return (← word64).toNat) patience

@[specialize] def shortIndex (n : Nat) : Draw σ Nat :=
  scaled 32 n (do return (← word32).toNat) patience

@[specialize] def choose? {α : Type} (xs : List α) : Draw σ (Option α) :=
  if xs.isEmpty then pure none
  else do
    let i ← shortIndex xs.length
    return xs[i]?

/-- A number in [0, 1) with 52 random bits. -/
def ofHighBits (w : UInt64) : Float := Float.ofBits ((w >>> 12) ||| 0x3ff0000000000000) - 1

/-- A number in [low, high), drawn again when rounding reaches the end. -/
@[specialize] def belowFrom (low high : Float) : (fuel : Nat) → Draw σ Float
  | 0 => pure low
  | fuel + 1 => do
    let x := ofHighBits (← word64) * (high - low) + low
    if x < high then pure x else belowFrom low high fuel

/-- Numbers can be drawn from a range that is not empty and has a finite width. -/
def Drawable (low high : Float) : Prop := low < high ∧ (high - low).isFinite = true

instance (low high : Float) : Decidable (Drawable low high) := inferInstanceAs (Decidable (_ ∧ _))

@[specialize] def below (low high : Float) : PartialDraw σ Float :=
  if Drawable low high then (belowFrom low high patience).sure else failure

def greatestUnit : Float := Float.ofBits 0x3feffffffffffffe

/-- Steps a scale down until the greatest draw stays within the range. -/
def fitScale (low high : Float) : (fuel : Nat) → Float → Float
  | 0, scale => scale
  | fuel + 1, scale =>
    if high < scale * greatestUnit + low then fitScale low high fuel (Binary.stepDown scale)
    else scale

@[specialize] def within (low high : Float) : Draw σ Float := do
  let scale := fitScale low high (Nat.pow 2 20) ((high - low) / greatestUnit)
  return ofHighBits (← word64) * scale + low

@[specialize] def forEach {α β : Type} (f : α → Draw σ β) : List α → Draw σ (List β)
  | [] => pure []
  | x :: xs => do
    let y ← f x
    let ys ← forEach f xs
    return y :: ys

end SignalEvolution.Draw

@[specialize] def SignalEvolution.PartialDraw.times {σ α : Type} : Nat → PartialDraw σ α → PartialDraw σ (List α)
  | 0, _ => pure []
  | n + 1, draw => do
    let x ← draw
    let xs ← times n draw
    return x :: xs

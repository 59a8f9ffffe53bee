/-! # Price bars -/
namespace SignalEvolution

structure Bar (α : Type) where
  opening : α
  high : α
  low : α
  close : α
  volume : α
  deriving Repr, DecidableEq, Inhabited

/-- A bar in which the price does not move. -/
def Bar.flat {α : Type} (price volume : α) : Bar α := ⟨price, price, price, price, volume⟩

end SignalEvolution

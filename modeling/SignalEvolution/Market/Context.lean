import SignalEvolution.Market.Bar
import SignalEvolution.Table

/-! # Market contexts

A context holds the current bar, the bars before it up to a capacity, and
readings of indicators that a feed supplied for the current bar. Memory is taken
to be there for any capacity.
-/
namespace SignalEvolution

structure Context where
  /-- Earlier bars and the current one, oldest first. -/
  bars : List (Bar Float)
  current : Bar Float
  isLast : bars.getLast? = some current
  capacity : Nat
  feed : Table Float

namespace Context

def defaultCapacity : Nat := 256

def start (current : Bar Float) (capacity : Nat) : Context :=
  ⟨[current], current, rfl, capacity, Table.empty⟩

def history (c : Context) : List (Bar Float) := c.bars.dropLast

/-- The context of the last bar, with the bars before it that fit. -/
def ofBars? (bars : List (Bar Float)) (capacity : Nat) : Option Context :=
  match h : bars.getLast? with
  | none => none
  | some current => some
    { bars := bars.drop (bars.length - 1 - capacity)
      current
      isLast := by
        have hne : bars ≠ [] := by rintro rfl; cases h
        have := List.length_pos_iff.mpr hne
        rw [List.getLast?_drop, if_neg (by omega), h]
      capacity
      feed := Table.empty }

/-- Moves on to the next bar. Supplied readings belonged to the bar that is left. -/
def push (c : Context) (bar : Bar Float) : Context :=
  { c with
    bars := (if c.capacity < c.bars.length then c.bars.tail else c.bars) ++ [bar]
    current := bar
    isLast := List.getLast?_concat
    feed := Table.empty }

def supply (c : Context) (key : String) (x : Float) : Context :=
  { c with feed := c.feed.insert key x }

def supplied? (c : Context) (key : String) : Option Float := c.feed.find? key

end Context
end SignalEvolution

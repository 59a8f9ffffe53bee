import SignalEvolution.Json.Basic
import SignalEvolution.Toml.Moment

/-! # Dialects of TOML

Versions 1.0 and 1.1 of the format differ in a few places, and readers of either
differ in what the format leaves open.
-/
namespace SignalEvolution.Toml

structure Dialect where
  /-- Strings know `\e` and characters by a number of two digits. -/
  shortEscapes : Bool
  /-- Tables in braces may go over several lines and end with a comma. -/
  inlineLines : Bool
  /-- Dotted keys may add values to a table through which only headers have led so far. -/
  keysJoinWays : Bool
  secondsOptional : Bool
  /-- A carriage return before a line end stays in a string. -/
  keepsReturns : Bool
  /-- A number below all finite ones is minus infinity and no error. -/
  negativeOverflow : Bool
  /-- How many lists and tables may stand in each other, and how many names in one key. -/
  depth : Nat
  moment : Moment → Json

end SignalEvolution.Toml

/-! # Problems

The ways in which reading, checking and configuring fail, and the message of each. Problems
of the underlying data formats carry no message.
-/
namespace SignalEvolution

inductive Problem where
  | arity (node : String) (expected actual : Nat)
  | unknownSeries (name : String)
  | unknownIndicator (name : String)
  | unknownOperator (symbol : String)
  | formula (reason : String)
  | configuration (reason : String)
  | record (reason : String)
  | schema (version : String)
  | json
  | table
  | tableOutput
  | layers
  | file
  deriving Repr, DecidableEq

namespace Problem

/-- The text shown for a problem, where it has one of its own. -/
def message? : Problem → Option String
  | arity node expected actual =>
    some ("Invalid arity for " ++ node ++ ": expected " ++ toString expected ++
      " children, got " ++ toString actual)
  | unknownSeries name => some ("Invalid variable name: " ++ name)
  | unknownIndicator name => some ("Unknown indicator: " ++ name)
  | unknownOperator symbol => some ("Unknown operator symbol: " ++ symbol)
  | formula reason => some ("Parse error: " ++ reason)
  | configuration reason => some ("Configuration error: " ++ reason)
  | record reason => some ("Protocol error: " ++ reason)
  | schema version => some ("Unsupported schema version: " ++ version)
  | _ => none

/-- A value, or this problem in its place. -/
def orValue {α : Type} (p : Problem) : Option α → Except Problem α
  | some a => .ok a
  | none => .error p

end Problem
end SignalEvolution

import SignalEvolution.Market.Bar
import SignalEvolution.Problem
import SignalEvolution.Text.Blank
import SignalEvolution.Arithmetic.Scalar

/-! # Symbols of signal trees

Operators, comparators and price series with the texts that name them.
-/
namespace SignalEvolution

inductive OperatorFamily where
  | logical
  | arithmetic
  deriving Repr, DecidableEq

inductive Operator where
  | and
  | or
  | not
  | add
  | sub
  | mul
  | div
  deriving Repr, DecidableEq

namespace Operator

def all : List Operator := [and, or, not, add, sub, mul, div]

def arity : Operator → Nat
  | not => 1
  | _ => 2

def family : Operator → OperatorFamily
  | and | or | not => .logical
  | add | sub | mul | div => .arithmetic

def symbol : Operator → String
  | and => "AND"
  | or => "OR"
  | not => "NOT"
  | add => "+"
  | sub => "-"
  | mul => "*"
  | div => "/"

/-- Reads a symbol or one of its other spellings, words in any case. -/
def ofSymbol? (text : String) : Option Operator :=
  match String.ofList (Text.upper (Text.trim text.toList)) with
  | "AND" | "&&" => some and
  | "OR" | "||" => some or
  | "NOT" | "!" => some not
  | "+" => some add
  | "-" | "−" => some sub
  | "*" | "×" => some mul
  | "/" | "÷" => some div
  | _ => none

/-- The other operators of the same family and arity. -/
def siblings (o : Operator) : List Operator :=
  all.filter fun p => p ≠ o ∧ p.family = o.family ∧ p.arity = o.arity

end Operator

inductive Comparator where
  | greater
  | less
  | greaterEqual
  | lessEqual
  | equal
  | different
  deriving Repr, DecidableEq

namespace Comparator

def all : List Comparator := [greater, less, greaterEqual, lessEqual, equal, different]

def symbol : Comparator → String
  | greater => ">"
  | less => "<"
  | greaterEqual => ">="
  | lessEqual => "<="
  | equal => "=="
  | different => "!="

def ofSymbol? (text : String) : Option Comparator :=
  match String.ofList (Text.trim text.toList) with
  | ">" => some greater
  | "<" => some less
  | ">=" | "≥" => some greaterEqual
  | "<=" | "≤" => some lessEqual
  | "==" | "=" => some equal
  | "!=" | "≠" | "<>" => some different
  | _ => none

/-- Numbers count as equal within one billionth. -/
def near (a b : Float) : Bool := a == b || (a - b).abs ≤ 1e-9

def holds : Comparator → Float → Float → Bool
  | greater, a, b => b < a
  | less, a, b => a < b
  | greaterEqual, a, b => b ≤ a
  | lessEqual, a, b => a ≤ b
  | equal, a, b => near a b
  | different, a, b => !near a b

end Comparator

/-- A series of prices or volumes, read from one bar. -/
inductive Series where
  | opening
  | high
  | low
  | close
  | volume
  | middle
  | typical
  | average
  deriving Repr, DecidableEq

namespace Series

def all : List Series := [opening, high, low, close, volume, middle, typical, average]

def name : Series → String
  | opening => "open"
  | high => "high"
  | low => "low"
  | close => "close"
  | volume => "volume"
  | middle => "hl2"
  | typical => "hlc3"
  | average => "ohlc4"

def value : Series → Bar Float → Float
  | opening, bar => bar.opening
  | high, bar => bar.high
  | low, bar => bar.low
  | close, bar => bar.close
  | volume, bar => bar.volume
  | middle, bar => (bar.high + bar.low) / 2
  | typical, bar => (bar.high + bar.low + bar.close) / 3
  | average, bar => (bar.opening + bar.high + bar.low + bar.close) / 4

/-- Finds a series by its name in any case, white space around it left out. -/
def find? (text : List Char) : Option Series :=
  all.find? fun s => s.name.toList = Text.lower (Text.trim text)

def ofName (text : String) : Except Problem Series :=
  match find? text.toList with
  | some s => .ok s
  | none => .error (.unknownSeries text)

end Series
end SignalEvolution

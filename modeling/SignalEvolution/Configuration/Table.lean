import SignalEvolution.Configuration.Section
import SignalEvolution.Toml.Document
import SignalEvolution.Toml.Text

/-! # Configuration files

A configuration is kept in a TOML file with a table for each section. A file may
leave out tables and fields; it is written with all that are set.
-/
namespace SignalEvolution

namespace Setting

/-- The value as it is written, nothing for one that is not set. Whole numbers have 63 bits there. -/
def tableText : Setting → Except Problem (Option String)
  | natural n => if n ≤ Int64.maxValue.toInt then .ok (some (toString n)) else .error .tableOutput
  | real x => .ok (some (Decimal.table x))
  | truth b => .ok (some (if b then "true" else "false"))
  | text s => .ok (some (Toml.quote s))
  | unset => .ok none

end Setting

namespace Configuration

/-- Files are TOML 1.0. A moment stands for no setting: it is a record without fields of ours. -/
def tableDialect : Toml.Dialect where
  shortEscapes := false
  inlineLines := false
  keysJoinWays := false
  secondsOptional := false
  keepsReturns := false
  negativeOverflow := true
  depth := 79
  moment m := .object [("moment", .text m.text)]

def tableChoice {α : Type} (name : α → String) (all : List α) : Reader α
  | _, .text s => s.bind fun s => all.find? fun a => name a == s
  | _, .object [(some s, .object [])] | _, .object [(some s, .list [])] =>
    all.find? fun a => name a == s
  | _, _ => none

def tableConversion : Conversion := { Conversion.strict with longLists := true, choice := tableChoice }

/-- Reads a file; what it leaves out has its default value. -/
def ofTable (s : String) : Except Problem Configuration := do
  let v ← Problem.table.orValue (Toml.ofText? tableDialect s)
  Problem.table.orValue (Reader.ofJson? (reader tableConversion) v)

def fieldLine (e : String × Setting) : Except Problem String :=
  e.2.tableText.map fun v => v.elim "" fun v => e.1 ++ " = " ++ v ++ "\n"

def sectionLines (e : String × List (String × Setting)) : Except Problem String := do
  let lines ← e.2.mapM fieldLine
  return "[" ++ e.1 ++ "]\n" ++ String.join lines

def toTable (c : Configuration) : Except Problem String := do
  let sections ← c.sections.mapM sectionLines
  return "\n".intercalate sections

end Configuration
end SignalEvolution

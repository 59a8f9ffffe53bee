import SignalEvolution.Arithmetic.Decimal
import SignalEvolution.Text.Hex

/-! # TOML text

A string is written in the first of its forms that shows it without escapes: in
double quotes, in single quotes, over several lines in either; with escapes
where none of them can.
-/
namespace SignalEvolution.Toml

def isControl (c : Char) : Bool := c.toNat < 0x20 || c.toNat == 0x7f

def longestRun (quote : Char) (cs : List Char) : Nat :=
  (cs.foldl (fun (best, now) c =>
    let now := if c == quote then now + 1 else 0
    (Nat.max best now, now)) (0, 0)).1

/-- One character between double quotes; up to `quotes` of them in a row stand unescaped. -/
def escape (multiline : Bool) (c : Char) : List Char :=
  if c = '\x08' then ['\\', 'b']
  else if c = '\t' then ['\\', 't']
  else if c = '\n' then (if multiline then ['\n'] else ['\\', 'n'])
  else if c = '\x0c' then ['\\', 'f']
  else if c = '\r' then ['\\', 'r']
  else if c = '\\' then ['\\', '\\']
  else if isControl c then ['\\', 'u'] ++ (Text.hex 4 c.toNat).map Char.toUpper
  else [c]

/-- Escapes a text, and with it every quote that follows `allowed` others in a row. -/
def escapeAll (multiline : Bool) (allowed : Nat) : (run : Nat) → List Char → List Char
  | _, [] => []
  | run, c :: rest =>
    if c = '"' then
      if allowed ≤ run then ['\\', '"'] ++ escapeAll multiline allowed 0 rest
      else '"' :: escapeAll multiline allowed (run + 1) rest
    else escape multiline c ++ escapeAll multiline allowed 0 rest

def quote (s : String) : String :=
  let cs := s.toList
  let controls := cs.any fun c => isControl c && c != '\t' && c != '\n'
  let backslashes := cs.contains '\\'
  let newlines := cs.contains '\n'
  let singles := longestRun '\'' cs
  let doubles := longestRun '"' cs
  let onLines (mark : List Char) (body : List Char) : List Char :=
    mark ++ (if newlines then ['\n'] else []) ++ body ++ mark
  let doubleMark := ['"', '"', '"']
  let singleMark := ['\'', '\'', '\'']
  String.ofList (
    if !controls && !backslashes && doubles = 0 && !newlines then
      '"' :: escapeAll false 0 0 cs ++ ['"']
    else if !controls && singles = 0 && !newlines then '\'' :: cs ++ ['\'']
    else if !controls && !backslashes && doubles ≤ 2 then onLines doubleMark (escapeAll true 2 0 cs)
    else if !controls && singles ≤ 2 then onLines singleMark cs
    else if newlines then onLines doubleMark (escapeAll true 2 0 cs)
    else '"' :: escapeAll false 0 0 cs ++ ['"'])

end SignalEvolution.Toml

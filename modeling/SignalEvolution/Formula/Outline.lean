import SignalEvolution.Formula.Split

/-! # Outlines of formulas

The outline of a text shows which clauses it joins and with which connective,
before any clause is read. Each outline keeps the text it was made from.
-/
namespace SignalEvolution.Formula

inductive Outline where
  | blank (source : List Char)
  /-- A clause without connectives: the text as it stood, and the text without enclosing parentheses. -/
  | clause (source inner : List Char)
  /-- Clauses under one connective; `mixed` when the other one occurs beside it. -/
  | joined (source : List Char) (mixed : Bool) (op : Operator) (parts : List Outline)

/-- Whether a clause is a formula of its own: enclosed in parentheses, or still joined by OR. -/
def isNested (trimmed inner : List Char) : Bool :=
  inner.length != trimmed.length || 1 < (pieces orWord inner).length

def occurs (keyword text : List Char) : Bool := 1 < (pieces keyword text).length

/-- AND binds first where both connectives occur. -/
def cutWord (text : List Char) : List Char := if occurs andWord text then andWord else orWord

def cutOperator (text : List Char) : Operator := if occurs andWord text then .and else .or

/-- Outline of a text; a piece that was cut from it is shorter, so the descent ends. -/
def outline (cs : List Char) : Outline :=
  let text := strip cs
  have : text.length ≤ cs.length := length_strip_le cs
  if text.isEmpty then .blank cs
  else if hcut : 1 < (pieces (cutWord text) text).length then
    .joined cs (occurs andWord text && occurs orWord text) (cutOperator text)
      ((pieces (cutWord text) text).attach.map fun ⟨p, hp⟩ =>
        have := length_lt_of_mem_pieces hp hcut
        have := length_trim_le p
        have := length_strip_le (Text.trim p)
        let inner := strip (Text.trim p)
        if isNested (Text.trim p) inner then outline inner else .clause p inner)
  else .clause text text
termination_by cs.length
decreasing_by omega

end SignalEvolution.Formula

import SignalEvolution.Tree.Basic

/-! # Trees as formulas

Operators and comparators stand between their operands. An operand that is an
operator stands in parentheses, and so does a comparison below a comparison.
-/
namespace SignalEvolution.Tree

/-- Whether a child of this kind is written in parentheses below a node of that kind. -/
def enclosed (parent child : Kind) : Bool :=
  match parent, child with
  | _, .operator _ => true
  | .comparator _, .comparator _ => true
  | _, _ => false

def enclose (parent child : Kind) (text : List Char) : List Char :=
  if enclosed parent child then '(' :: text ++ [')'] else text

def assemble : Kind → List (List Char) → List Char
  | .operator .not, texts => "NOT ".toList ++ texts.flatten
  | .operator op, texts => (' ' :: op.symbol.toList ++ [' ']).intercalate texts
  | .comparator cmp, texts => (' ' :: cmp.symbol.toList ++ [' ']).intercalate texts
  | .indicator name params, _ => (Indicator.formulaCall name params).toList
  | .constant x, _ => (numberText x).toList
  | .series s, _ => s.name.toList

mutual
def text : Tree → List Char
  | node k cs => assemble k (childTexts k cs)
def childTexts (parent : Kind) : List Tree → List (List Char)
  | [] => []
  | t :: ts => enclose parent t.kind t.text :: childTexts parent ts
end

def formula (t : Tree) : String := String.ofList t.text

end SignalEvolution.Tree

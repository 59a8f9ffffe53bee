import SignalEvolution.Formula.Reader
import SignalEvolution.Proofs.Formula.Cut

/-! # Grammar of formulas

A formula joins one or more clauses under one connective, a clause compares two
operands, and parentheses may stand around formulas and operands. White space may
stand around every part. Each rule gives the tree that its text stands for. In
lenient mode a single operand is a clause too; all else is the same in both modes.
-/
namespace SignalEvolution.Formula
open Text

/-- The ways to write a comparator. -/
def spellings : Comparator → List (List Char)
  | .greaterEqual => [['>', '='], ['≥']]
  | .lessEqual => [['<', '='], ['≤']]
  | .equal => [['=', '='], ['=']]
  | .different => [['!', '='], ['<', '>'], ['≠']]
  | .greater => [['>']]
  | .less => [['<']]

/-- A number at the position of a declared parameter, or a number under a key. The
argument sets the parameter of that name. -/
inductive IsArgument (i : Indicator) (position : Nat) : List Char → String × Float → Prop
  | positional {value x} {spec : ParamSpec Float} : finite? value = some x →
      i.specs[position]? = some spec →
      IsArgument i position value (spec.name, x)
  | keyed {key gap value x} : (∀ c ∈ key, c ≠ '(' ∧ c ≠ ')' ∧ c ≠ ',' ∧ c ≠ '=') → Blank gap →
      finite? value = some x →
      IsArgument i position (key ++ '=' :: (gap ++ value)) (String.ofList (lower (trim key)), x)
  | padded {l cs r setting} : Blank l → Blank r → IsArgument i position cs setting →
      IsArgument i position (l ++ cs ++ r) setting

/-- Arguments between commas, the first of them at the given position. -/
inductive IsArgumentList (i : Indicator) : Nat → List Char → List (String × Float) → Prop
  | one {position cs setting} : IsArgument i position cs setting →
      IsArgumentList i position cs [setting]
  | more {position cs rest setting settings} : IsArgument i position cs setting →
      IsArgumentList i (position + 1) rest settings →
      IsArgumentList i position (cs ++ ',' :: rest) (setting :: settings)

/-- What stands between the parentheses of a call. -/
inductive IsArguments (i : Indicator) : List Char → List (String × Float) → Prop
  | none {cs} : Blank cs → IsArguments i cs []
  | some {cs settings} : IsArgumentList i 0 cs settings → IsArguments i cs settings

/-- A call stores its settings in their order, the later over the earlier, and the
defaults of the parameters that are not set. -/
def callParams (i : Indicator) (settings : List (String × Float)) : Table Float :=
  withDefaults i (Table.ofList settings)

inductive IsOperand : List Char → Tree → Prop
  | number {cs x} : finite? cs = some x → IsOperand cs (Tree.constant x)
  | series {cs s} : lower cs = s.name.toList → IsOperand cs (Tree.series s)
  | call {name gap args i settings} : lower name = lower i.mnemonic.toList → Blank gap →
      IsArguments i args settings →
      IsOperand (name ++ gap ++ '(' :: (args ++ [')'])) (Tree.indicator i (callParams i settings))
  | enclosed {cs t} : IsOperand cs t → IsOperand ('(' :: (cs ++ [')'])) t
  | padded {l cs r t} : Blank l → Blank r → IsOperand cs t → IsOperand (l ++ cs ++ r) t

/-- The word is the connective AND or OR, apart from the text on both sides. -/
def Connects (op : Operator) (before word after : List Char) : Prop :=
  (op = .and ∧ Separates andWord before word after) ∨ (op = .or ∧ Separates orWord before word after)

mutual
inductive IsFormula (mode : Mode) : List Char → Tree → Prop
  | joined {op cs ts} : IsJoined mode op cs ts → IsFormula mode cs (join op ts)
  | enclosed {cs t} : IsFormula mode cs t → IsFormula mode ('(' :: (cs ++ [')'])) t
  | padded {l cs r t} : Blank l → Blank r → IsFormula mode cs t → IsFormula mode (l ++ cs ++ r) t
/-- One or more clauses, all connectives between them the same. -/
inductive IsJoined (mode : Mode) : Operator → List Char → List Tree → Prop
  | one {op cs t} : IsClause mode cs t → IsJoined mode op cs [t]
  | more {op cs word rest t ts} : IsClause mode cs t → Connects op cs word rest →
      IsJoined mode op rest ts → IsJoined mode op (cs ++ word ++ rest) (t :: ts)
inductive IsClause (mode : Mode) : List Char → Tree → Prop
  | comparison {left sign right cmp a b} : IsOperand left a → sign ∈ spellings cmp →
      IsOperand right b → IsClause mode (left ++ sign ++ right) (Tree.compare cmp a b)
  | enclosed {cs t} : IsFormula mode cs t → IsClause mode ('(' :: (cs ++ [')'])) t
  | bare {cs t} : mode = .lenient → IsOperand cs t → IsClause mode cs t
  | padded {l cs r t} : Blank l → Blank r → IsClause mode cs t → IsClause mode (l ++ cs ++ r) t
end

variable {mode : Mode} {cs : List Char} {t : Tree}

/-- White space and enclosing parentheses around an operand leave it what it is. -/
theorem IsOperand.of_strip (h : IsOperand (strip cs) t) : IsOperand cs t :=
  Formula.of_strip (P := fun cs => IsOperand cs t) (fun _ _ _ => .padded) (fun _ _ => .enclosed) h

theorem IsFormula.of_strip (h : IsFormula mode (strip cs) t) : IsFormula mode cs t :=
  Formula.of_strip (P := fun cs => IsFormula mode cs t) (fun _ _ _ => .padded) (fun _ _ => .enclosed) h

theorem IsClause.of_strip (h : IsFormula mode (strip cs) t)
    (hlt : (strip cs).length ≠ (trim cs).length) : IsClause mode cs t := by
  rcases strip_eq_or_lt cs with ⟨_, he⟩ | ⟨inner, hi, he, _⟩
  · exact absurd (by rw [he]) hlt
  · obtain ⟨l, r, hl, hr, hcs⟩ := exists_trim cs
    rw [he] at h
    rw [hcs, (inside?_eq_some_iff.mp hi).1]
    exact .padded hl hr (.enclosed (IsFormula.of_strip h))

end SignalEvolution.Formula

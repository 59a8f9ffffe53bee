import SignalEvolution.Arithmetic.Decimal
import SignalEvolution.Formula.Outline
import SignalEvolution.Tree.Basic

/-! # Reading formulas

A clause compares two operands. Text outside the grammar is an error in strict
mode; in lenient mode it becomes the close, a clause without comparator becomes
its operand, and mixed connectives are cut at AND first.
-/
namespace SignalEvolution

inductive Mode where
  | lenient
  | strict
  deriving Repr, DecidableEq, Inhabited

namespace Formula

def failure (reason : String) (text : List Char) : Problem :=
  .formula (reason ++ ": '" ++ String.ofList text ++ "'")

/-- What stands for a text that cannot be read. -/
def fallback (mode : Mode) (reason : String) (text : List Char) : Except Problem Tree :=
  match mode with
  | .strict => .error (failure reason text)
  | .lenient => .ok (Tree.series .close)

def finite? (cs : List Char) : Option Float :=
  (Decimal.read? cs).filter fun x => x.isFinite

/-- `NAME(arguments)` without further parentheses. -/
def call? (cs : List Char) : Option (List Char × List Char) :=
  (Text.splitFirst? '(' cs).bind fun (before, after) =>
    let name := Text.trim before
    let args := after.dropLast
    let named := !name.isEmpty && name.all isWordChar && !name.head?.any Char.isDigit
    if after.getLast? = some ')' ∧ named ∧ args.all (fun c => c != '(' && c != ')') then
      some (name, args)
    else none

/-- The parameter an argument sets and the text of its value; `none` for a position too many. -/
def argumentTarget? (specs : List (ParamSpec Float)) (position : Nat) (arg : List Char) :
    Option (String × List Char) :=
  match Text.splitFirst? '=' arg with
  | some (key, value) => some (String.ofList (Text.lower (Text.trim key)), Text.trim value)
  | none => specs[position]?.map fun s => (s.name, arg)

def storeArgument (mode : Mode) (i : Indicator) (params : Table Float) (position : Nat)
    (arg : List Char) : Except Problem (Table Float) :=
  match argumentTarget? i.specs position arg, mode with
  | none, .strict =>
    .error (.formula (i.mnemonic ++ " takes " ++ toString (i.specs (α := Float)).length ++
      " arguments, got extra '" ++ String.ofList arg ++ "'"))
  | none, .lenient => .ok params
  | some (key, value), mode =>
    match finite? value, mode with
    | some x, _ => .ok (params.insert key x)
    | none, .strict =>
      .error (.formula ("argument '" ++ String.ofList arg ++ "' to " ++ i.mnemonic ++ " is not a number"))
    | none, .lenient => .ok params

def storeArguments (mode : Mode) (i : Indicator) (params : Table Float) :
    (position : Nat) → List (List Char) → Except Problem (Table Float)
  | _, [] => .ok params
  | position, arg :: rest => do
    let stored ← storeArgument mode i params position (Text.trim arg)
    storeArguments mode i stored (position + 1) rest

/-- Adds the defaults of the declared parameters that are not stored. -/
def withDefaults (i : Indicator) (params : Table Float) : Table Float :=
  i.specs.foldl (fun table s => table.insertNew s.name s.default) params

def arguments (cs : List Char) : List (List Char) :=
  let text := Text.trim cs
  if text.isEmpty then [] else Text.splitOn ',' text

def indicatorCall (mode : Mode) (source name args : List Char) : Except Problem Tree :=
  match Indicator.find? name with
  | none => fallback mode "unknown indicator" source
  | some i => do
    let params ← storeArguments mode i Table.empty 0 (arguments args)
    return Tree.indicator i (withDefaults i params)

def operand (mode : Mode) (cs : List Char) : Except Problem Tree :=
  let text := strip cs
  if text.isEmpty then fallback mode "empty operand" text
  else match finite? text, Series.find? text, call? text with
    | some x, _, _ => .ok (Tree.constant x)
    | none, some s, _ => .ok (Tree.series s)
    | none, none, some (name, args) => indicatorCall mode text name args
    | none, none, none => fallback mode "unrecognised operand" text

/-- A comparison; in lenient mode also a bare operand. -/
def clause (mode : Mode) (source inner : List Char) : Except Problem Tree :=
  if inner.isEmpty then fallback mode "empty clause" source
  else match comparison? inner, mode with
    | some (left, cmp, right), mode => do
      let a ← operand mode left
      let b ← operand mode right
      return Tree.compare cmp a b
    | none, .strict =>
      .error (.formula ("clause '" ++ String.ofList source ++ "' has no comparator"))
    | none, .lenient => operand mode inner

def join (op : Operator) : List Tree → Tree
  | [] => Tree.series .close
  | first :: rest => rest.foldl (fun left right => .node (.operator op) [left, right]) first

mutual
def Outline.tree (mode : Mode) : Outline → Except Problem Tree
  | .blank source => fallback mode "empty formula" source
  | .clause source inner => Formula.clause mode source inner
  | .joined source mixed op parts =>
    if mixed && mode == .strict then
      .error (.formula ("mixed AND/OR connectives in '" ++ String.ofList source ++ "'"))
    else (Outline.trees mode parts).map (join op)
def Outline.trees (mode : Mode) : List Outline → Except Problem (List Tree)
  | [] => .ok []
  | first :: rest => do
    let t ← first.tree mode
    let ts ← Outline.trees mode rest
    return t :: ts
end

def parse (mode : Mode) (text : String) : Except Problem Tree :=
  (outline text.toList).tree mode

end Formula
end SignalEvolution

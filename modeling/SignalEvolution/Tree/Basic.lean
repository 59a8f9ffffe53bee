import SignalEvolution.Indicator.Call
import SignalEvolution.Tree.Symbol

/-! # Signal trees

A tree is a kind over a list of children. An indicator is stored by its name.
Whether the number of children suits the kind and whether the name is that of an
indicator are properties of trees, kept by every operation of this library and
checked where trees come from outside.
-/
namespace SignalEvolution

/-- What a node computes. -/
inductive Kind where
  | operator (op : Operator)
  | comparator (cmp : Comparator)
  | indicator (name : String) (params : Table Float)
  | constant (x : Float)
  | series (s : Series)

instance : Inhabited Kind := ⟨.series .close⟩

/-- The sort of a node, its symbol left out. -/
inductive NodeType where
  | operator
  | comparator
  | indicator
  | constant
  | series
  deriving Repr, DecidableEq

namespace NodeType

def all : List NodeType := [operator, comparator, indicator, constant, series]

def name : NodeType → String
  | operator => "operator"
  | comparator => "comparator"
  | indicator => "indicator"
  | constant => "constant"
  | series => "variable"

def ofName? (text : String) : Option NodeType := all.find? fun t => t.name == text

end NodeType

namespace Kind

def arity : Kind → Nat
  | operator op => op.arity
  | comparator _ => 2
  | indicator _ _ | constant _ | series _ => 0

def nodeType : Kind → NodeType
  | operator _ => .operator
  | comparator _ => .comparator
  | indicator _ _ => .indicator
  | constant _ => .constant
  | series _ => .series

/-- Whether a node of this kind answers with a truth value. -/
def isLogical : Kind → Bool
  | operator op => op.family == .logical
  | comparator _ => true
  | _ => false

def describe : Kind → String
  | operator op => "operator " ++ op.symbol
  | comparator cmp => "comparator " ++ cmp.symbol
  | indicator name _ => "indicator " ++ name
  | constant x => "constant " ++ Decimal.plain x
  | series s => "variable " ++ s.name

/-- The same kind with equal numbers; zeros of either sign are equal and a NaN equals nothing. -/
def same : Kind → Kind → Bool
  | operator a, operator b => a == b
  | comparator a, comparator b => a == b
  | indicator a p, indicator b q => a == b && p == q
  | constant x, constant y => x == y
  | series a, series b => a == b
  | _, _ => false

instance : BEq Kind := ⟨same⟩

/-- An indicator named in any case, under the name that the catalogue has for it. -/
def registered : Kind → Except Problem Kind
  | indicator name params =>
    match Indicator.find? name.toList with
    | some i => .ok (indicator i.mnemonic params)
    | none => .error (.unknownIndicator name)
  | k => .ok k

end Kind

inductive Tree where
  | node (kind : Kind) (children : List Tree)

instance : Inhabited Tree := ⟨.node default []⟩

namespace Tree

def kind : Tree → Kind
  | node k _ => k

def children : Tree → List Tree
  | node _ cs => cs

def nodeType (t : Tree) : NodeType := t.kind.nodeType

def isLeaf (t : Tree) : Bool := t.children.isEmpty

mutual
/-- Every node has as many children as its kind takes. -/
def Full : Tree → Prop
  | node k cs => cs.length = k.arity ∧ AllFull cs
def AllFull : List Tree → Prop
  | [] => True
  | t :: ts => t.Full ∧ AllFull ts
end

/-- A node over given children, refused where there is no such indicator or where their number does
not suit the kind. -/
def make (kind : Kind) (children : List Tree) : Except Problem Tree := do
  let kind ← kind.registered
  if children.length = kind.arity then .ok (node kind children)
  else .error (.arity kind.describe kind.arity children.length)

def both (left right : Tree) : Tree := node (.operator .and) [left, right]

def either (left right : Tree) : Tree := node (.operator .or) [left, right]

def negation (t : Tree) : Tree := node (.operator .not) [t]

def compare (cmp : Comparator) (left right : Tree) : Tree := node (.comparator cmp) [left, right]

def indicator (i : Indicator) (params : Table Float) : Tree := node (.indicator i.mnemonic params) []

def constant (x : Float) : Tree := node (.constant x) []

def series (s : Series) : Tree := node (.series s) []

/-- The named indicator with its default parameters. -/
def indicatorDefault (name : String) : Except Problem Tree :=
  match Indicator.find? name.toList with
  | some i => .ok (indicator i i.defaults)
  | none => .error (.unknownIndicator name)

/-- The same children under another kind. -/
def withKind (t : Tree) (kind : Kind) : Except Problem Tree := make kind t.children

/-- The same node with its children in reverse order. -/
def reversed (t : Tree) : Tree := node t.kind t.children.reverse

mutual
/-- Levels of the tree; a leaf has one. -/
def depth : Tree → Nat
  | node _ cs => 1 + deepest cs
def deepest : List Tree → Nat
  | [] => 0
  | t :: ts => Nat.max t.depth (deepest ts)
end

mutual
def nodeCount : Tree → Nat
  | node _ cs => 1 + totalCount cs
def totalCount : List Tree → Nat
  | [] => 0
  | t :: ts => t.nodeCount + totalCount ts
end

mutual
/-- All subtrees, each before those below it. -/
def preorder : Tree → List Tree
  | node k cs => node k cs :: preorderAll cs
def preorderAll : List Tree → List Tree
  | [] => []
  | t :: ts => t.preorder ++ preorderAll ts
end

mutual
def same : Tree → Tree → Bool
  | node k cs, node l ds => k == l && allSame cs ds
def allSame : List Tree → List Tree → Bool
  | [], [] => true
  | t :: ts, u :: us => t.same u && allSame ts us
  | _, _ => false
end

/-- Equality of trees is that of their kinds, node by node. -/
instance : BEq Tree := ⟨same⟩

def typeSequence (t : Tree) : List NodeType := t.preorder.map nodeType

end Tree
end SignalEvolution

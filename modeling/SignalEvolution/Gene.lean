import SignalEvolution.Tree.Formula

/-! # Genes

A gene is a tree with an identity and the record of its ancestry.
-/
namespace SignalEvolution

structure Lineage where
  parents : List String := []
  /-- The variations that made the gene, in order, joined by `+`. -/
  mutation : Option String := none
  deriving Repr, DecidableEq, Inhabited

namespace Lineage

def record (l : Lineage) (name : String) : Lineage :=
  { l with mutation := some (match l.mutation with
    | some earlier => earlier ++ "+" ++ name
    | none => name) }

end Lineage

structure Gene where
  root : Tree
  id : String
  generation : Nat := 0
  lineage : Lineage := {}
  deriving Inhabited

namespace Gene

def isHexChar (c : Char) : Bool := c.isDigit || ('a' ≤ c && c ≤ 'f')

/-- Identities have sixteen lower-case hexadecimal digits. -/
def isValidId (id : String) : Bool :=
  let cs := id.toList
  cs.length == 16 && cs.all isHexChar

def depth (g : Gene) : Nat := g.root.depth

def nodeCount (g : Gene) : Nat := g.root.nodeCount

def formula (g : Gene) : String := g.root.formula

def display (g : Gene) : String := "[" ++ g.id ++ "] " ++ g.formula

end Gene
end SignalEvolution

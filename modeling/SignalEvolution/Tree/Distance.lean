import SignalEvolution.Tree.Basic

/-! # Distance between trees

Two trees are compared by the node types of their preorders, position by
position; the diversity of a population is the mean over its pairs.
-/
namespace SignalEvolution

variable {α : Type} [Scalar α]

def agreements : List NodeType → List NodeType → Nat
  | x :: xs, y :: ys => (if x = y then 1 else 0) + agreements xs ys
  | _, _ => 0

/-- The share of the longer sequence that does not agree with the other. -/
@[specialize] def sequenceDistance (xs ys : List NodeType) : α :=
  let longest := Nat.max xs.length ys.length
  if longest = 0 then 0
  else 1 - Scalar.ofNat (agreements xs ys) / Scalar.ofNat longest

namespace Tree

@[specialize] def distance (s t : Tree) : α := sequenceDistance s.typeSequence t.typeSequence

end Tree

namespace Diversity

@[specialize] def addPairs (total : α) : List (List NodeType) → α
  | [] => total
  | xs :: rest => addPairs (rest.foldl (fun sum ys => sum + sequenceDistance xs ys) total) rest

/-- Mean distance of two members; 0 for fewer than two. -/
@[specialize] def ofTrees (trees : List Tree) : α :=
  let n := trees.length
  if n < 2 then 0
  else addPairs 0 (trees.map Tree.typeSequence) / Scalar.ofNat (n * (n - 1) / 2)

end Diversity
end SignalEvolution

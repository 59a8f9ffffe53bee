import SignalEvolution.Tree.Basic

/-! # Positions in a tree

A path lists child indices from the root downward; the root has the empty path.
-/
namespace SignalEvolution.Tree

abbrev Path := List Nat

mutual
/-- The paths of all nodes, each before those below it. -/
def paths : Tree → List Path
  | node _ cs => [] :: childPaths 0 cs
def childPaths (i : Nat) : List Tree → List Path
  | [] => []
  | t :: ts => t.paths.map (i :: ·) ++ childPaths (i + 1) ts
end

def get? : Tree → Path → Option Tree
  | t, [] => some t
  | node _ cs, i :: rest => cs[i]?.bind fun c => c.get? rest

/-- The tree with the subtree at a path exchanged, and the subtree that was there. -/
def replaceAt? : Tree → Path → Tree → Option (Tree × Tree)
  | t, [], new => some (new, t)
  | node k cs, i :: rest, new =>
    cs[i]?.bind fun c => (c.replaceAt? rest new).map fun (c', old) => (node k (cs.set i c'), old)

end SignalEvolution.Tree

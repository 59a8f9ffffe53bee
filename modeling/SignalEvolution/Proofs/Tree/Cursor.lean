import SignalEvolution.Proofs.Tree.Replacement
import SignalEvolution.Proofs.Tree.Traversal

/-! # Replacement in place

A cursor goes down a tree along a path and remembers the nodes that it came through. Where a child
is missing it stops, in the tree as it was. At the end of the path it exchanges the subtree in view,
and of the tree around it only the nodes on the way down are others than before, with the kinds and
the other children that they had.
-/
namespace SignalEvolution.Tree

/-- A node above a cursor, and the index of the child that the cursor went to. -/
structure Frame where
  kind : Kind
  children : List Tree
  index : Nat

/-- The node with a tree as that child. -/
def Frame.around (f : Frame) (t : Tree) : Tree := node f.kind (f.children.set f.index t)

/-- A subtree in view and the nodes above it, the nearest first. -/
structure Cursor where
  above : List Frame
  here : Tree

namespace Cursor

/-- The whole tree around a cursor. -/
def tree (c : Cursor) : Tree := c.above.foldl (fun t f => f.around t) c.here

def child? (c : Cursor) (i : Nat) : Option Cursor :=
  c.here.children[i]?.map fun t => ⟨⟨c.here.kind, c.here.children, i⟩ :: c.above, t⟩

/-- Goes down a path and puts a tree in place of the subtree at its end, which is given out. -/
def exchange : Cursor → Path → Tree → Option Tree × Cursor
  | c, [], new => (some c.here, { c with here := new })
  | c, i :: p, new =>
    match c.child? i with
    | some next => next.exchange p new
    | none => (none, c)

end Cursor

/-- The replacement by a cursor that starts at the root: what it gives out, and the tree that is left. -/
def replaceIn (t : Tree) (p : Path) (new : Tree) : Option Tree × Tree :=
  let (old, c) := Cursor.exchange ⟨[], t⟩ p new
  (old, c.tree)

/-- The tree `out` is `t` with `new` in place of `old` at a path. -/
structure Replaced (t out : Tree) (p : Path) (old new : Tree) : Prop where
  there : out.get? p = some new
  beside : ∀ q, ¬ p <+: q → ¬ q <+: p → out.get? q = t.get? q
  above : ∀ q i r, p = q ++ i :: r →
    ∃ k cs c, t.get? q = some (node k cs) ∧ out.get? q = some (node k (cs.set i c))
  nodes : (out.nodeCount : ℤ) - t.nodeCount = new.nodeCount - old.nodeCount
  levels : out.depth ≤ max t.depth (p.length + new.depth)
  back : out.replaceIn p old = (some new, t)

variable {t new out old : Tree} {c next : Cursor} {p q r : Path} {i : Nat}

theorem Cursor.tree_child? (h : c.child? i = some next) : next.tree = c.tree := by
  obtain ⟨above, here⟩ := c
  cases here with
  | node k cs =>
    obtain ⟨t, ht, rfl⟩ := Option.map_eq_some_iff.mp h
    obtain ⟨hi, rfl⟩ := List.getElem?_eq_some_iff.mp ht
    simp [tree, Frame.around, kind, children]

theorem Cursor.exchange_eq (c : Cursor) (p : Path) (new : Tree) :
    ((c.exchange p new).1, (c.exchange p new).2.tree) =
      match c.here.replaceAt? p new with
      | some (out, old) => (some old, tree { c with here := out })
      | none => (none, c.tree) := by
  induction p generalizing c with
  | nil => simp [exchange, replaceAt?]
  | cons i p ih =>
    obtain ⟨above, here⟩ := c
    cases here with
    | node k cs =>
      cases ht : cs[i]? with
      | none => simp [exchange, child?, children, replaceAt?, ht]
      | some t =>
        have hchild : child? ⟨above, node k cs⟩ i = some ⟨⟨k, cs, i⟩ :: above, t⟩ := by
          simp [child?, children, kind, ht]
        have htree := tree_child? hchild
        simp only [exchange, hchild, ih, replaceAt?, ht, Option.bind_some]
        cases t.replaceAt? p new with
        | none => simp [htree]
        | some pair => rfl

/-- The cursor does what the replacement does that copies the tree. -/
theorem replaceIn_eq (t : Tree) (p : Path) (new : Tree) :
    t.replaceIn p new =
      match t.replaceAt? p new with
      | some (out, old) => (some old, out)
      | none => (none, t) :=
  Cursor.exchange_eq ⟨[], t⟩ p new

theorem get?_beside (h : t.replaceAt? p new = some (out, old)) (hpq : ¬ p <+: q) (hqp : ¬ q <+: p) :
    out.get? q = t.get? q := by
  induction p generalizing t out q with
  | nil => exact absurd List.nil_prefix hpq
  | cons i p ih =>
    cases t with
    | node k cs =>
      obtain ⟨c, c', hc, hreplace, rfl⟩ := replaceAt?_cons_eq_some_iff.mp h
      obtain ⟨hi, -⟩ := List.getElem?_eq_some_iff.mp hc
      cases q with
      | nil => exact absurd List.nil_prefix hqp
      | cons j q =>
        by_cases hij : i = j
        · subst hij
          simp only [List.cons_prefix_cons, true_and] at hpq hqp
          rw [get?_set_self hi, get?_cons, hc, Option.bind_some, ih hreplace hpq hqp]
        · rw [get?_set_ne hij]

theorem get?_above (h : t.replaceAt? (q ++ i :: r) new = some (out, old)) :
    ∃ k cs c, t.get? q = some (node k cs) ∧ out.get? q = some (node k (cs.set i c)) := by
  induction q generalizing t out with
  | nil =>
    cases t with
    | node k cs =>
      obtain ⟨_, c, -, -, rfl⟩ := replaceAt?_cons_eq_some_iff.mp h
      exact ⟨k, cs, c, get?_nil _, get?_nil _⟩
  | cons j q ih =>
    cases t with
    | node k cs =>
      obtain ⟨c, c', hc, hreplace, rfl⟩ := replaceAt?_cons_eq_some_iff.mp h
      obtain ⟨hj, -⟩ := List.getElem?_eq_some_iff.mp hc
      rw [get?_set_self hj, get?_cons, hc]
      exact ih hreplace

/-- Without a subtree at the path the cursor gives nothing out and leaves the tree as it is. With one
it gives that subtree out and leaves the tree with the replacement. -/
theorem replaceIn_exchanges_place (t : Tree) (p : Path) (new : Tree) :
    match t.get? p with
    | none => t.replaceIn p new = (none, t) ∧ t.replaceAt? p new = none
    | some old => ∃ out, t.replaceIn p new = (some old, out) ∧ t.replaceAt? p new = some (out, old) ∧
        Replaced t out p old new := by
  cases hget : t.get? p with
  | none =>
    have hnone := replaceAt?_of_get?_none hget new
    exact ⟨by rw [replaceIn_eq, hnone], hnone⟩
  | some old =>
    obtain ⟨out, hout, hnodes, hlevels⟩ := replaceAt?_of_get? hget new
    have hback := replaceAt?_back hout
    refine ⟨out, by rw [replaceIn_eq, hout], hout, ?_⟩
    exact {
      there := get?_of_replaceAt? hback
      beside := fun q => get?_beside hout
      above := by
        rintro q i r rfl
        exact get?_above hout
      nodes := by omega
      levels := hlevels
      back := by rw [replaceIn_eq, hback] }

/-- A child is missing below the second one. -/
example : (both (series .close) (series .volume)).replaceIn [1, 0] (series .low) =
    (none, both (series .close) (series .volume)) := rfl

end SignalEvolution.Tree

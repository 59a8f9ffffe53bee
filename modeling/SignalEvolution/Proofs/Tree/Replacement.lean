import Mathlib.Algebra.BigOperators.Group.List.Basic
import Mathlib.Algebra.Order.Group.Multiset
import Mathlib.Tactic.Abel
import SignalEvolution.Proofs.Tree.Equality

/-! # Replacement of subtrees

A subtree put in place of another is found at its path, and the one that was there can be put
back. The tree loses the nodes of the old subtree and gains those of the new one, kind by kind.
-/
namespace SignalEvolution.Tree

variable {k : Kind} {cs : List Tree} {t new out old : Tree} {p : Path} {i : Nat}

/-- The kinds of all nodes, each as often as it occurs. -/
def kinds (t : Tree) : Multiset Kind := t.preorder.map kind

theorem kinds_node : (node k cs).kinds = k ::ₘ (cs.map kinds).sum := by
  have hall : ((preorderAll cs).map kind : Multiset Kind) = (cs.map kinds).sum := by
    induction cs with
    | nil => rfl
    | cons c cs ih =>
      rw [preorderAll, List.map_append, ← Multiset.coe_add, ih, List.map_cons, List.sum_cons]
      rfl
  rw [kinds, preorder, List.map_cons, ← Multiset.cons_coe, hall]
  rfl

theorem card_kinds (t : Tree) : t.kinds.card = t.nodeCount := by
  induction t using Tree.induction with
  | node k cs ih =>
    have htotal : (cs.map kinds).sum.card = totalCount cs := by
      have hsum : (cs.map kinds).sum.card = ((cs.map kinds).map Multiset.card).sum :=
        map_list_sum Multiset.cardHom _
      rw [hsum, totalCount_eq_sum, List.map_map]
      exact congrArg List.sum (List.map_congr_left ih)
    rw [kinds_node, Multiset.card_cons, htotal, nodeCount_node, Nat.add_comm]

theorem replaceAt?_cons_eq_some_iff : (node k cs).replaceAt? (i :: p) new = some (out, old) ↔
    ∃ c c', cs[i]? = some c ∧ c.replaceAt? p new = some (c', old) ∧ node k (cs.set i c') = out := by
  rw [replaceAt?, Option.bind_eq_some_iff]
  constructor
  · rintro ⟨c, hc, h⟩
    obtain ⟨⟨c', old⟩, hreplace, heq⟩ := Option.map_eq_some_iff.mp h
    obtain ⟨rfl, rfl⟩ := Prod.mk.inj heq
    exact ⟨c, c', hc, hreplace, rfl⟩
  · rintro ⟨c, c', hc, hreplace, rfl⟩
    exact ⟨c, hc, by rw [hreplace]; rfl⟩

theorem replaceAt?_nil_eq_some_iff : t.replaceAt? [] new = some (out, old) ↔ new = out ∧ t = old := by
  rw [replaceAt?, Option.some_inj, Prod.mk.injEq]

/-- Putting the old subtree back undoes the replacement and gives the new one out again. -/
theorem replaceAt?_back (h : t.replaceAt? p new = some (out, old)) :
    out.replaceAt? p old = some (t, new) := by
  induction p generalizing t out with
  | nil =>
    obtain ⟨rfl, rfl⟩ := replaceAt?_nil_eq_some_iff.mp h
    exact replaceAt?_nil_eq_some_iff.mpr ⟨rfl, rfl⟩
  | cons i p ih =>
    cases t with
    | node k cs =>
      obtain ⟨c, c', hc, hreplace, rfl⟩ := replaceAt?_cons_eq_some_iff.mp h
      obtain ⟨hi, rfl⟩ := List.getElem?_eq_some_iff.mp hc
      refine replaceAt?_cons_eq_some_iff.mpr ⟨c', cs[i], List.getElem?_set_self hi, ih hreplace, ?_⟩
      rw [List.set_set, List.set_getElem_self hi]

/-- What a replacement gives out is the subtree that was at the path. -/
theorem get?_of_replaceAt? (h : t.replaceAt? p new = some (out, old)) : t.get? p = some old := by
  cases hget : t.get? p with
  | none => rw [replaceAt?_of_get?_none hget] at h; cases h
  | some u =>
    obtain ⟨_, hreplace, -⟩ := replaceAt?_of_get? hget new
    rw [hreplace, Option.some_inj, Prod.mk.injEq] at h
    rw [h.2]

theorem kinds_replaceAt? (h : t.replaceAt? p new = some (out, old)) :
    out.kinds + old.kinds = t.kinds + new.kinds := by
  induction p generalizing t out with
  | nil =>
    obtain ⟨rfl, rfl⟩ := replaceAt?_nil_eq_some_iff.mp h
    exact add_comm _ _
  | cons i p ih =>
    cases t with
    | node k cs =>
      obtain ⟨c, c', hc, hreplace, rfl⟩ := replaceAt?_cons_eq_some_iff.mp h
      have hset := sum_map_set kinds hc c'
      have hchild := ih hreplace
      rw [kinds_node, kinds_node, Multiset.cons_add, Multiset.cons_add]
      congr 1
      -- The children before and after differ by one of them, so the old one is added on both sides.
      apply add_right_cancel (b := c.kinds)
      calc ((cs.set i c').map kinds).sum + old.kinds + c.kinds
          = ((cs.set i c').map kinds).sum + c.kinds + old.kinds := by abel
        _ = (cs.map kinds).sum + (c'.kinds + old.kinds) := by rw [hset, add_assoc]
        _ = (cs.map kinds).sum + new.kinds + c.kinds := by rw [hchild]; abel

theorem kind_replaceAt? (h : t.replaceAt? p new = some (out, old)) (hp : p ≠ []) : out.kind = t.kind := by
  cases p with
  | nil => exact absurd rfl hp
  | cons i p =>
    cases t with
    | node k cs =>
      obtain ⟨c, c', -, -, rfl⟩ := replaceAt?_cons_eq_some_iff.mp h
      rfl

theorem childPaths_eq_nil_iff : childPaths i cs = [] ↔ cs = [] := by
  cases cs with
  | nil => simp [childPaths]
  | cons c cs =>
    cases c with
    | node k ds => simp [childPaths, paths]

theorem nodeCount_eq_one_iff : t.nodeCount = 1 ↔ t.children = [] := by
  cases t with
  | node k cs =>
    cases cs with
    | nil => simp [children]
    | cons c cs =>
      cases c with
      | node l ds => simp [children]

end SignalEvolution.Tree

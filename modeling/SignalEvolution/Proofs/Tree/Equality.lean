import SignalEvolution.Proofs.Tree.Size
import SignalEvolution.Proofs.Tree.Structure

/-! # Equal trees and their places

Equal trees have as many nodes, and exchanging a child for an equal one keeps a list of
children equal. Every path of a tree leads to a subtree.
-/
namespace SignalEvolution.Tree

variable {k l : Kind} {cs ds : List Tree} {t u : Tree} {p : Path}

theorem same_node_iff :
    (node k cs == node l ds) = true ↔ (k == l) = true ∧ allSame cs ds = true := by
  change (k == l && allSame cs ds) = true ↔ _
  rw [Bool.and_eq_true_iff]

theorem allSame_cons_iff :
    allSame (t :: cs) (u :: ds) = true ↔ (t == u) = true ∧ allSame cs ds = true := by
  rw [allSame, Bool.and_eq_true_iff]
  rfl

theorem totalCount_of_allSame (h : allSame cs ds = true)
    (hcs : ∀ c ∈ cs, ∀ d, (c == d) = true → c.nodeCount = d.nodeCount) :
    totalCount cs = totalCount ds := by
  induction cs generalizing ds with
  | nil =>
    cases ds with
    | nil => rfl
    | cons d ds => simp [allSame] at h
  | cons c cs ih =>
    cases ds with
    | nil => simp [allSame] at h
    | cons d ds =>
      obtain ⟨hsame, hrest⟩ := allSame_cons_iff.mp h
      have htotal := ih hrest fun c hc => hcs c (List.mem_cons_of_mem _ hc)
      rw [totalCount_cons, totalCount_cons, hcs c List.mem_cons_self d hsame, htotal]

theorem nodeCount_of_same (h : (t == u) = true) : t.nodeCount = u.nodeCount := by
  induction t using Tree.induction generalizing u with
  | node k cs ih =>
    cases u with
    | node l ds =>
      obtain ⟨-, hall⟩ := same_node_iff.mp h
      rw [nodeCount_node, nodeCount_node, totalCount_of_allSame hall fun c hc d => ih c hc]

theorem same_of_set {i : Nat} {c d : Tree} (hc : cs[i]? = some c)
    (h : allSame (cs.set i d) cs = true) : (d == c) = true := by
  induction cs generalizing i with
  | nil => simp at hc
  | cons a cs ih =>
    cases i with
    | zero =>
      obtain rfl : a = c := by simpa using hc
      exact (allSame_cons_iff.mp h).1
    | succ i => exact ih (by simpa using hc) (allSame_cons_iff.mp h).2

theorem allSame_set {i : Nat} {c d : Tree} (hself : allSame cs cs = true) (hc : cs[i]? = some c)
    (h : (d == c) = true) : allSame (cs.set i d) cs = true := by
  induction cs generalizing i with
  | nil => simp at hc
  | cons a cs ih =>
    obtain ⟨ha, hcs⟩ := allSame_cons_iff.mp hself
    cases i with
    | zero =>
      obtain rfl : a = c := by simpa using hc
      exact allSame_cons_iff.mpr ⟨h, hcs⟩
    | succ i => exact allSame_cons_iff.mpr ⟨ha, ih hcs (by simpa using hc)⟩

theorem same_self_of_mem {c : Tree} (h : allSame cs cs = true) (hc : c ∈ cs) : (c == c) = true := by
  induction cs with
  | nil => exact absurd hc List.not_mem_nil
  | cons a cs ih =>
    obtain ⟨ha, hcs⟩ := allSame_cons_iff.mp h
    rcases List.mem_cons.mp hc with rfl | hc
    · exact ha
    · exact ih hcs hc

theorem mem_childPaths {i : Nat} (h : p ∈ childPaths i cs) :
    ∃ j c rest, cs[j]? = some c ∧ p = (i + j) :: rest ∧ rest ∈ c.paths := by
  induction cs generalizing i with
  | nil => exact absurd h List.not_mem_nil
  | cons c cs ih =>
    rw [childPaths, List.mem_append] at h
    rcases h with h | h
    · obtain ⟨rest, hrest, rfl⟩ := List.mem_map.mp h
      exact ⟨0, c, rest, rfl, rfl, hrest⟩
    · obtain ⟨j, d, rest, hd, hp, hrest⟩ := ih h
      exact ⟨j + 1, d, rest, hd, by rw [hp, Nat.add_right_comm, Nat.add_assoc], hrest⟩

theorem exists_get? (h : p ∈ t.paths) : ∃ u, t.get? p = some u := by
  induction t using Tree.induction generalizing p with
  | node k cs ih =>
    rw [paths, List.mem_cons] at h
    rcases h with rfl | h
    · exact ⟨node k cs, rfl⟩
    · obtain ⟨j, c, rest, hc, rfl, hrest⟩ := mem_childPaths h
      rw [Nat.zero_add, get?, hc]
      exact ih c (List.mem_of_getElem? hc) hrest

end SignalEvolution.Tree

import Mathlib.Tactic.Abel
import SignalEvolution.Tree.Path

/-! # The size of trees

Levels and nodes of a tree, and what an exchange of subtrees makes of them: the nodes of
the old subtree go and those of the new one come, and no level appears that neither the
tree nor the new subtree in its place has.
-/
namespace SignalEvolution.Tree

variable {k : Kind} {cs : List Tree} {t u new : Tree} {p : Path}

@[simp] theorem depth_node : (node k cs).depth = 1 + deepest cs := by rw [depth]

@[simp] theorem nodeCount_node : (node k cs).nodeCount = 1 + totalCount cs := by rw [nodeCount]

@[simp] theorem deepest_nil : deepest [] = 0 := by rw [deepest]

@[simp] theorem deepest_cons : deepest (t :: cs) = max t.depth (deepest cs) := by rw [deepest]

@[simp] theorem totalCount_nil : totalCount [] = 0 := by rw [totalCount]

@[simp] theorem totalCount_cons : totalCount (t :: cs) = t.nodeCount + totalCount cs := by
  rw [totalCount]

theorem one_le_depth (t : Tree) : 1 ≤ t.depth := by
  cases t with
  | node k cs => simp

theorem deepest_le_iff {n : Nat} : deepest cs ≤ n ↔ ∀ c ∈ cs, c.depth ≤ n := by
  induction cs with
  | nil => simp
  | cons c cs ih =>
    rw [deepest_cons, Nat.max_le, ih]
    simp

theorem depth_le_deepest (h : t ∈ cs) : t.depth ≤ deepest cs := 
  deepest_le_iff.mp (Nat.le_refl _) t h

theorem totalCount_append {ds : List Tree} :
    totalCount (cs ++ ds) = totalCount cs + totalCount ds := by
  induction cs with
  | nil => simp
  | cons c cs ih =>
    simp only [List.cons_append, totalCount_cons, ih]
    omega

theorem deepest_reverse : deepest cs.reverse = deepest cs := by
  apply Nat.le_antisymm
  · rw [deepest_le_iff]
    intro c hc
    exact depth_le_deepest (List.mem_reverse.mp hc)
  · rw [deepest_le_iff]
    intro c hc
    exact depth_le_deepest (List.mem_reverse.mpr hc)

theorem totalCount_reverse : totalCount cs.reverse = totalCount cs := by
  induction cs with
  | nil => simp
  | cons c cs ih =>
    rw [List.reverse_cons, totalCount_append, ih]
    simp only [totalCount_cons, totalCount_nil]
    omega

/-- A sum over all children after one of them is exchanged. -/
theorem sum_map_set {M : Type} [AddCommMonoid M] (f : Tree → M) {i : Nat} {c : Tree} (h : cs[i]? = some c)
    (new : Tree) : ((cs.set i new).map f).sum + f c = (cs.map f).sum + f new := by
  induction cs generalizing i with
  | nil => simp at h
  | cons d cs ih =>
    cases i with
    | zero =>
      obtain rfl : d = c := by simpa using h
      rw [List.set_cons_zero, List.map_cons, List.map_cons, List.sum_cons, List.sum_cons]
      abel
    | succ i =>
      have hset := ih (i := i) (by simpa using h)
      rw [List.set_cons_succ, List.map_cons, List.map_cons, List.sum_cons, List.sum_cons, add_assoc, hset,
        add_assoc]

theorem totalCount_eq_sum : totalCount cs = (cs.map nodeCount).sum := by
  induction cs with
  | nil => rfl
  | cons c cs ih => rw [totalCount_cons, ih, List.map_cons, List.sum_cons]

/-- The number of nodes after a child is exchanged. -/
theorem totalCount_set {i : Nat} {c : Tree} (h : cs[i]? = some c) (new : Tree) :
    totalCount (cs.set i new) + c.nodeCount = totalCount cs + new.nodeCount := by
  rw [totalCount_eq_sum, totalCount_eq_sum]
  exact sum_map_set nodeCount h new

theorem depth_of_isLeaf (h : t.isLeaf) : t.depth = 1 := by
  cases t with
  | node k cs =>
    obtain rfl : cs = [] := by simpa [isLeaf, children] using h
    simp

theorem nodeCount_of_isLeaf (h : t.isLeaf) : t.nodeCount = 1 := by
  cases t with
  | node k cs =>
    obtain rfl : cs = [] := by simpa [isLeaf, children] using h
    simp

theorem depth_withKind (t : Tree) (k : Kind) : (node k t.children).depth = t.depth := by
  cases t with
  | node l cs => simp [children]

theorem nodeCount_withKind (t : Tree) (k : Kind) : (node k t.children).nodeCount = t.nodeCount := by
  cases t with
  | node l cs => simp [children]

theorem depth_reversed (t : Tree) : t.reversed.depth = t.depth := by
  cases t with
  | node k cs => simp [reversed, children, deepest_reverse]

theorem nodeCount_reversed (t : Tree) : t.reversed.nodeCount = t.nodeCount := by
  cases t with
  | node k cs => simp [reversed, children, totalCount_reverse]

theorem depth_get? (h : t.get? p = some u) : p.length + u.depth ≤ t.depth := by
  induction p generalizing t with
  | nil =>
    obtain rfl : t = u := by simpa [get?] using h
    simp
  | cons i p ih =>
    cases t with
    | node k cs =>
      rw [get?] at h
      obtain ⟨c, hc, hu⟩ := Option.bind_eq_some_iff.mp h
      have hbelow := ih hu
      have hchild := depth_le_deepest (List.mem_of_getElem? hc)
      simp only [List.length_cons, depth_node]
      omega

/-- What is put in place of a subtree takes its nodes away and adds no level but its own. -/
theorem replaceAt?_of_get? (h : t.get? p = some u) (new : Tree) :
    ∃ out, t.replaceAt? p new = some (out, u) ∧
      out.nodeCount + u.nodeCount = t.nodeCount + new.nodeCount ∧
      out.depth ≤ max t.depth (p.length + new.depth) := by
  induction p generalizing t with
  | nil =>
    obtain rfl : t = u := by simpa [get?] using h
    refine ⟨new, by rw [replaceAt?], by omega, ?_⟩
    rw [List.length_nil, Nat.zero_add]
    exact Nat.le_max_right t.depth new.depth
  | cons i p ih =>
    cases t with
    | node k cs =>
      rw [get?] at h
      obtain ⟨c, hc, hu⟩ := Option.bind_eq_some_iff.mp h
      obtain ⟨c', hreplace, hcount, hdepth⟩ := ih hu
      refine ⟨node k (cs.set i c'), by simp [replaceAt?, hc, hreplace], ?_, ?_⟩
      · have hset := totalCount_set hc c'
        simp only [nodeCount_node]
        omega
      · have hchild := depth_le_deepest (List.mem_of_getElem? hc)
        have hset : deepest (cs.set i c') ≤ max (deepest cs) (p.length + new.depth) := by
          rw [deepest_le_iff]
          intro d hd
          rcases List.mem_or_eq_of_mem_set hd with hd | rfl
          · exact Nat.le_trans (depth_le_deepest hd) (Nat.le_max_left ..)
          · omega
        simp only [List.length_cons, depth_node]
        omega

theorem replaceAt?_of_get?_none (h : t.get? p = none) (new : Tree) : t.replaceAt? p new = none := by
  induction p generalizing t with
  | nil => simp [get?] at h
  | cons i p ih =>
    cases t with
    | node k cs =>
      rw [get?] at h
      rw [replaceAt?]
      cases hc : cs[i]? with
      | none => rfl
      | some c =>
        rw [hc] at h
        simp [ih h]

end SignalEvolution.Tree

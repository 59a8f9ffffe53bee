import SignalEvolution.Tree.Basic

/-! # The structure of trees

Properties of a tree are proved from its root downward: what holds of a node where it
holds of its children holds of every tree.
-/
namespace SignalEvolution.Tree

variable {P : Kind → Prop} {k : Kind} {cs : List Tree} {t : Tree}

mutual
theorem induction {motive : Tree → Prop}
    (node : ∀ k cs, (∀ c ∈ cs, motive c) → motive (.node k cs)) : ∀ t, motive t
  | .node k cs => node k cs (inductionAll node cs)
theorem inductionAll {motive : Tree → Prop}
    (node : ∀ k cs, (∀ c ∈ cs, motive c) → motive (.node k cs)) : ∀ cs : List Tree, ∀ c ∈ cs, motive c
  | [], _, hc => absurd hc List.not_mem_nil
  | t :: ts, c, hc => by
    rcases List.mem_cons.mp hc with heq | hc
    · rw [heq]
      exact induction node t
    · exact inductionAll node ts c hc
end

theorem allFull_iff : AllFull cs ↔ ∀ c ∈ cs, c.Full := by
  induction cs with
  | nil => simp [AllFull]
  | cons c cs ih => simp [AllFull, ih]

theorem full_iff : (node k cs).Full ↔ cs.length = k.arity ∧ ∀ c ∈ cs, c.Full := by
  rw [Full, allFull_iff]

theorem mem_preorderAll_iff {u : Tree} : u ∈ preorderAll cs ↔ ∃ c ∈ cs, u ∈ c.preorder := by
  induction cs with
  | nil => simp [preorderAll]
  | cons c cs ih => simp [preorderAll, ih]

/-- The kinds of all nodes have a property. -/
def Every (P : Kind → Prop) (t : Tree) : Prop := ∀ u ∈ t.preorder, P u.kind

instance [DecidablePred P] (t : Tree) : Decidable (t.Every P) :=
  inferInstanceAs (Decidable (∀ u ∈ t.preorder, P u.kind))

theorem every_iff : (node k cs).Every P ↔ P k ∧ ∀ c ∈ cs, c.Every P := by
  unfold Every
  simp only [preorder, List.mem_cons, mem_preorderAll_iff]
  constructor
  · intro h
    exact ⟨h _ (.inl rfl), fun c hc u hu => h u (.inr ⟨c, hc, hu⟩)⟩
  · rintro ⟨hk, hcs⟩ u (rfl | ⟨c, hc, hu⟩)
    · exact hk
    · exact hcs c hc u hu

theorem Every.imp {Q : Kind → Prop} (h : t.Every P) (hpq : ∀ k, P k → Q k) : t.Every Q :=
  fun u hu => hpq u.kind (h u hu)

theorem same_pair {k l : Kind} {a b c d : Tree} (hk : (k == l) = true) (h : (a == c) = true)
    (h' : (b == d) = true) : (node k [a, b] == node l [c, d]) = true := by
  change (k == l && (a.same c && (b.same d && true))) = true
  rw [hk]
  change a.same c = true at h
  change b.same d = true at h'
  rw [h, h']
  rfl

end SignalEvolution.Tree

import SignalEvolution.Proofs.Variation.Inheritance

/-! # Variation within the bounds

A random tree has no more levels than its budget. An operator that takes a tree within the
bounds gives trees within the bounds: because it checks its result, because it keeps the
size of what it exchanges, or because its budget was what the path leaves.
-/
namespace SignalEvolution

open Draw (Always)
open PartialDraw (Unless)

/-- A tree has no more levels and no more nodes than the settings allow. -/
def EvolutionSettings.Within (s : EvolutionSettings) (t : Tree) : Prop :=
  t.depth ≤ s.maxDepth ∧ t.nodeCount ≤ s.maxNodes

variable {σ : Type} [WordSource σ] {s : EvolutionSettings} {g : Generator} {t u : Tree}
variable {p : Tree.Path}

theorem EvolutionSettings.admits_iff : s.admits t = true ↔ s.Within t := by
  simp [admits, Within, and_comm]

namespace Generator

theorem terminal_isLeaf : Unless (g.terminal : PartialDraw σ Tree) (¬ g.Ready) fun t => t.isLeaf :=
  terminal_unless (fun _ => rfl) (constant_unless fun _ => rfl)

theorem indicator_isLeaf : Always (g.indicator : Draw σ Tree) fun t => t.isLeaf := by
  apply Always.after
  intro n
  apply Always.after
  intro params
  apply Always.pure
  rfl

/-- A leaf fits any budget. -/
theorem leaf_depth (ht : t.isLeaf = true) (budget : Nat) : t.depth ≤ max budget 1 := by
  rw [Tree.depth_of_isLeaf ht]
  omega

/-- Children of one level less leave room for the node above them. -/
theorem node_depth {n : Nat} {cs : List Tree} (h : ∀ c ∈ cs, c.depth ≤ max (n + 1) 1) (k : Kind) :
    (Tree.node k cs).depth ≤ max (n + 2) 1 := by
  have hbelow := Tree.deepest_le_iff.mpr h
  simp only [Tree.depth_node]
  omega

theorem tree_depth (budget : Nat) :
    Unless (g.tree budget : PartialDraw σ Tree) (¬ g.Ready) fun t => t.depth ≤ max budget 1 :=
  tree_unless (P := fun budget t => t.depth ≤ max budget 1)
    (fun budget => terminal_isLeaf.imp fun _ ht => leaf_depth ht budget)
    (fun budget => indicator_isLeaf.imp fun _ ht => leaf_depth ht budget)
    (fun _ k _ _ _ hcs => node_depth hcs k) budget

theorem numeric_depth (budget : Nat) :
    Unless (g.numeric budget : PartialDraw σ Tree) (¬ g.Ready) fun t => t.depth ≤ max budget 1 :=
  numeric_unless (P := fun budget t => t.depth ≤ max budget 1)
    (fun budget => terminal_isLeaf.imp fun _ ht => leaf_depth ht budget)
    (fun budget => indicator_isLeaf.imp fun _ ht => leaf_depth ht budget)
    (fun _ op _ _ _ hcs => node_depth hcs (.operator op)) budget

theorem signal_depth : Unless (g.signal : PartialDraw σ Tree) (¬ g.Ready) fun t => t.depth ≤ max g.maxDepth 1 := by
  apply Unless.ite
  · intro _
    exact tree_depth g.maxDepth
  · intro hdepth
    apply Unless.after
    intro cmp
    apply (numeric_depth (g.maxDepth - 1)).bind
    intro left hleft
    apply (numeric_depth (g.maxDepth - 1)).bind
    intro right hright
    apply Unless.pure
    simp only [Tree.compare, Tree.depth_node, Tree.deepest_cons, Tree.deepest_nil]
    omega

@[simp] theorem withConstants_maxDepth (low high : Float) :
    (g.withConstants low high).maxDepth = g.maxDepth := by
  unfold withConstants
  split <;> rfl

theorem ofSettings_maxDepth : (ofSettings s).maxDepth = max s.maxDepth 1 := by
  simp only [ofSettings]
  split
  · rw [withConstants_maxDepth]
    rfl
  · rw [withConstants_maxDepth]
    rfl

end Generator

namespace Tree

theorem nodeCount_graft (h : t.get? p = some u) (new : Tree) :
    (t.graft p new).nodeCount + u.nodeCount = t.nodeCount + new.nodeCount := by
  obtain ⟨out, hreplace, hcount, -⟩ := replaceAt?_of_get? h new
  simpa [graft, hreplace] using hcount

theorem depth_graft (h : t.get? p = some u) (new : Tree) :
    (t.graft p new).depth ≤ max t.depth (p.length + new.depth) := by
  obtain ⟨out, hreplace, -, hdepth⟩ := replaceAt?_of_get? h new
  simpa only [graft, hreplace] using hdepth

/-- A subtree of the same size does no harm. -/
theorem graft_within {new : Tree} (h : s.Within t) (hget : t.get? p = some u)
    (hdepth : new.depth = u.depth) (hcount : new.nodeCount = u.nodeCount) :
    s.Within (t.graft p new) := by
  obtain ⟨hlevels, hnodes⟩ := h
  have hold := depth_get? hget
  have hout := depth_graft hget new
  have htotal := nodeCount_graft hget new
  constructor
  · omega
  · omega

/-- A tree drawn within the levels that the path leaves does not reach too deep. The root
counts as a level, so at least one is left wherever the tree has a node. -/
theorem depth_graft_budget {new : Tree} (h : t.depth ≤ s.maxDepth)
    (hnew : new.depth ≤ max (s.maxDepth + 1 - (p.length + 1)) 1) :
    (t.graft p new).depth ≤ s.maxDepth := by
  cases hget : t.get? p with
  | none =>
    rw [graft_of_get?_none hget]
    exact h
  | some u =>
    have hold := depth_get? hget
    have hleast := one_le_depth u
    have hout := depth_graft hget new
    omega

theorem pointMutation_within (h : s.Within t) :
    Always (t.pointMutation s : Draw σ Tree) fun u => s.Within u := by
  apply (pointMutation_result s (mutateKind_akin s) t).imp
  rintro u (rfl | ⟨path, -, target, hget, kind, -, rfl⟩)
  · exact h
  · exact graft_within h hget (depth_withKind target kind) (nodeCount_withKind target kind)

theorem subtreeMutation_within (h : s.Within t) :
    Unless (t.subtreeMutation s g : PartialDraw σ (Option Tree)) (¬ g.Ready) fun out => ∀ u ∈ out, s.Within u := by
  apply (subtreeMutation_result (fun budget => Generator.tree_depth budget) s t).imp
  intro out hout u hu
  obtain ⟨path, -, new, hdepth, rfl, hcount⟩ := hout u hu
  have hbudget : new.depth ≤ max (s.maxDepth + 1 - (path.length + 1)) 1 :=
    Nat.le_trans hdepth (Nat.max_le.mpr ⟨Nat.le_refl _, Nat.le_max_right ..⟩)
  exact ⟨depth_graft_budget h.1 hbudget, hcount⟩

theorem crossover_within (a b : Tree) :
    Always (crossover s a b : Draw σ (Option (Tree × Tree))) fun out =>
      ∀ pair ∈ out, s.Within pair.1 ∧ s.Within pair.2 := by
  apply (crossover_result s a b).imp
  intro out hout pair hpair
  obtain ⟨_, -, _, -, _, _, -, -, -, hfirst, hsecond⟩ := hout pair hpair
  exact ⟨EvolutionSettings.admits_iff.mp hfirst, EvolutionSettings.admits_iff.mp hsecond⟩

theorem transposition_within (t : Tree) :
    Always (t.transposition s : Draw σ (Option Tree)) fun out => ∀ u ∈ out, s.Within u := by
  apply (transposition_result s t).imp
  intro out hout u hu
  obtain ⟨_, -, _, -, _, -, -, -, hadmit⟩ := hout u hu
  exact EvolutionSettings.admits_iff.mp hadmit

theorem rootTransposition_within (t : Tree) :
    Always (t.rootTransposition s : Draw σ (Option Tree)) fun out => ∀ u ∈ out, s.Within u := by
  apply (rootTransposition_result s t).imp
  intro out hout u hu
  obtain ⟨_, -, _, -, -, hadmit⟩ := hout u hu
  exact EvolutionSettings.admits_iff.mp hadmit

theorem inversion_within (h : s.Within t) :
    Always (t.inversion : Draw σ (Option Tree)) fun out => ∀ u ∈ out, s.Within u := by
  apply (inversion_result t).imp
  intro out hout u hu
  obtain ⟨path, -, target, hget, -, rfl, -⟩ := hout u hu
  exact graft_within h hget (depth_reversed target) (nodeCount_reversed target)

end Tree

theorem Variator.keeps_within (v : Variator) : v.Keeps σ v.settings.Within where
  pointMutation _ ht := Tree.pointMutation_within ht
  subtreeMutation _ ht := Tree.subtreeMutation_within ht
  crossover a b _ _ := Tree.crossover_within a b
  transposition t _ := Tree.transposition_within t
  rootTransposition t _ := Tree.rootTransposition_within t
  inversion _ ht := Tree.inversion_within ht

/-- Every operator takes what is within the bounds to what is within the bounds. -/
structure Variator.KeepsBounds (σ : Type) [WordSource σ] (v : Variator) : Prop where
  pointMutation : ∀ t, v.settings.Within t →
    Always (t.pointMutation v.settings : Draw σ Tree) fun u => v.settings.Within u
  subtreeMutation : ∀ t, v.settings.Within t →
    Unless (t.subtreeMutation v.settings v.generator : PartialDraw σ (Option Tree)) (¬ v.generator.Ready)
      fun out => ∀ u ∈ out, v.settings.Within u
  crossover : ∀ a b, v.settings.Within a → v.settings.Within b →
    Always (Tree.crossover v.settings a b : Draw σ (Option (Tree × Tree))) fun out =>
      ∀ pair ∈ out, v.settings.Within pair.1 ∧ v.settings.Within pair.2
  transposition : ∀ t, v.settings.Within t →
    Always (t.transposition v.settings : Draw σ (Option Tree)) fun out =>
      ∀ u ∈ out, v.settings.Within u
  rootTransposition : ∀ t, v.settings.Within t →
    Always (t.rootTransposition v.settings : Draw σ (Option Tree)) fun out =>
      ∀ u ∈ out, v.settings.Within u
  inversion : ∀ t, v.settings.Within t →
    Always (t.inversion : Draw σ (Option Tree)) fun out => ∀ u ∈ out, v.settings.Within u
  mutate : ∀ t, v.settings.Within t →
    Unless (v.mutate t : PartialDraw σ (Tree × List Variation)) (¬ v.generator.Ready)
      fun out => v.settings.Within out.1
  cross : ∀ a b generation, v.settings.Within a.root → v.settings.Within b.root →
    Always (Gene.cross v.settings a b generation : Draw σ (Gene × Gene)) fun pair =>
      v.settings.Within pair.1.root ∧ v.settings.Within pair.2.root

theorem Variator.keepsBounds (v : Variator) : v.KeepsBounds σ := by
  have h : v.Keeps σ v.settings.Within := v.keeps_within
  constructor
  case pointMutation => exact h.pointMutation
  case subtreeMutation => exact h.subtreeMutation
  case crossover => exact h.crossover
  case transposition => exact h.transposition
  case rootTransposition => exact h.rootTransposition
  case inversion => exact h.inversion
  case mutate => exact fun t ht => h.mutate ht
  case cross => exact fun a b generation ha hb => h.cross ha hb generation

end SignalEvolution

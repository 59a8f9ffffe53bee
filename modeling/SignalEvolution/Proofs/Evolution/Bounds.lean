import SignalEvolution.Proofs.Evolution.Inheritance
import SignalEvolution.Proofs.Evolution.Settings
import SignalEvolution.Proofs.Variation.Bounds

/-! # Runs within the bounds

Random individuals are within the bounds of settings that pass their check, elites are as
they were and children vary from selected parents, so every population that a run scores is
within the bounds when the first one is.
-/
namespace SignalEvolution

open PartialDraw (Unless)

namespace EvolutionSettings

/-- There is room for a node, and random trees keep to the levels. -/
structure Suits (s : EvolutionSettings) (g : Generator) : Prop where
  depth : 0 < s.maxDepth
  nodes : 0 < s.maxNodes
  levels : g.maxDepth = s.maxDepth

variable {σ : Type} [WordSource σ] {s : EvolutionSettings} {g : Generator} {t : Tree}

theorem Valid.suits (h : s.Valid) : s.Suits (.ofSettings s) := by
  have hdepth := h.maxDepth
  constructor
  · exact hdepth
  · exact h.maxNodes
  · rw [Generator.ofSettings_maxDepth]
    omega

theorem Suits.leaf_within (h : s.Suits g) (ht : t.isLeaf = true) : s.Within t := by
  have hdepth := h.depth
  have hnodes := h.nodes
  constructor
  · rw [Tree.depth_of_isLeaf ht]
    omega
  · rw [Tree.nodeCount_of_isLeaf ht]
    omega

theorem Suits.minimalSignal_within (h : s.Suits g) :
    Unless (s.minimalSignal g : PartialDraw σ Tree) (¬ g.Ready) fun t => s.Within t := by
  apply Unless.ite
  · intro _
    apply Generator.terminal_isLeaf.imp
    intro t ht
    exact h.leaf_within ht
  · intro hroom
    apply Unless.after
    intro cmp
    apply Generator.terminal_isLeaf.bind
    intro left hleft
    apply Generator.terminal_isLeaf.bind
    intro right hright
    apply Unless.pure
    constructor
    · simp only [Tree.compare, Tree.depth_node, Tree.deepest_cons, Tree.deepest_nil,
        Tree.depth_of_isLeaf hleft, Tree.depth_of_isLeaf hright]
      omega
    · simp only [Tree.compare, Tree.nodeCount_node, Tree.totalCount_cons, Tree.totalCount_nil,
        Tree.nodeCount_of_isLeaf hleft, Tree.nodeCount_of_isLeaf hright]
      omega

/-- A signal is given when it has few enough nodes; its levels are those of the generator. -/
theorem Suits.checkedSignal_within (h : s.Suits g) {other : PartialDraw σ Tree}
    (hother : other.Unless (¬ g.Ready) fun t => s.Within t) :
    Unless (do
      let t ← g.signal
      if s.maxNodes < t.nodeCount then other else return t) (¬ g.Ready) fun t => s.Within t := by
  have hdepth := h.depth
  have hlevels := h.levels
  apply Generator.signal_depth.bind
  intro t ht
  apply Unless.ite
  · intro _
    exact hother
  · intro hnodes
    apply Unless.pure
    constructor
    · omega
    · omega

theorem Suits.fittingSignal_within (h : s.Suits g) (redraws : Nat) :
    Unless (s.fittingSignal g redraws : PartialDraw σ Tree) (¬ g.Ready) fun t => s.Within t := by
  induction redraws with
  | zero => exact h.checkedSignal_within h.minimalSignal_within
  | succ redraws ih => exact h.checkedSignal_within ih

theorem Suits.individual_within (h : s.Suits g) :
    Unless (s.individual g : PartialDraw σ Gene) (¬ g.Ready) fun gene => s.Within gene.root := by
  apply (h.fittingSignal_within maxRedraws).bind
  intro t ht
  apply Unless.sure
  apply (Gene.ofTree_root t).imp
  intro gene hgene
  rw [hgene]
  exact ht

theorem Suits.hereditary (h : s.Suits g) : s.Hereditary σ g s.Within :=
  ⟨h.individual_within, Variator.keeps_within ⟨s, g⟩⟩

end EvolutionSettings

variable {σ : Type} [WordSource σ] {s : EvolutionSettings} {g : Generator}

namespace Engine

omit [WordSource σ] in
theorem make_eq_ok_iff {settings : EvolutionSettings} {words : σ} {e : Engine σ} :
    make settings words = .ok e ↔ settings.check = .ok () ∧
      e = ⟨settings, .ofSettings settings, { capacity := Hall.defaultCapacity }, words⟩ := by
  rw [make]
  cases settings.check with
  | error problem => simp [bind, Except.bind]
  | ok _ => simp [bind, Except.bind, pure, Except.pure, eq_comm]

/-- An engine with settings that pass their check, and with the generator that is made from them, scores
individuals within the bounds only, whatever each evaluation answers, from an initial population within
the bounds or a random one; and all its variation gives trees within the bounds from such trees. A run
comes to its end if the generator has a range to draw constants from. -/
theorem evolve_within_bounds {e made : Engine σ} {words : σ} {initial : Option (List Gene)}
    (hmake : make e.settings words = .ok made) (hgenerator : e.generator = made.generator)
    (hinitial : ∀ genes ∈ initial, ∀ gene ∈ genes,
      gene.depth ≤ e.settings.maxDepth ∧ gene.nodeCount ≤ e.settings.maxNodes)
    (evaluator : Evaluator) :
    (e.generator.Ready → ∃ run, e.evolve initial evaluator = some run) ∧
    (∀ run, e.evolve initial evaluator = some run →
      run.1.history = (e.generations initial evaluator).mapIdx GenerationStats.ofPopulation) ∧
    (∀ scored ∈ e.generations initial evaluator, ∀ i ∈ scored,
      i.gene.depth ≤ e.settings.maxDepth ∧ i.gene.nodeCount ≤ e.settings.maxNodes) ∧
    Variator.KeepsBounds σ ⟨e.settings, e.generator⟩ := by
  obtain ⟨hcheck, rfl⟩ := make_eq_ok_iff.mp hmake
  have hvalid := EvolutionSettings.check_eq_ok_iff.mp hcheck
  have hsuits : e.settings.Suits e.generator := by
    rw [hgenerator]
    exact hvalid.suits
  exact ⟨fun hready => exists_evolve hready initial evaluator, fun _ hrun => evolve_history hrun,
    generations_inherit hsuits.hereditary hinitial evaluator, Variator.keepsBounds _⟩

/-- The default settings, from a comparison of the close with a number. -/
theorem evolve_within_bounds_default :
    let e : Engine ListedWords :=
      ⟨.default, .ofSettings .default, { capacity := Hall.defaultCapacity }, ⟨[], 7⟩⟩
    let gene : Gene := ⟨.compare .greater (.series .close) (.constant 1), "00000000000000ab", 0, {}⟩
    let evaluator : Evaluator := fun generation place gene =>
      { score := Float.ofNat (gene.nodeCount + place) - Float.ofNat generation }
    make e.settings e.words = .ok e ∧ (gene.depth ≤ 6 ∧ gene.nodeCount ≤ 50) ∧
    (∃ run, e.evolve (some [gene]) evaluator = some run ∧
      run.1.history = (e.generations (some [gene]) evaluator).mapIdx GenerationStats.ofPopulation) ∧
    (∀ scored ∈ e.generations (some [gene]) evaluator, ∀ i ∈ scored,
      i.gene.depth ≤ 6 ∧ i.gene.nodeCount ≤ 50) ∧
    Variator.KeepsBounds ListedWords ⟨e.settings, e.generator⟩ := by
  intro e gene evaluator
  have hcheck : EvolutionSettings.default.check = .ok () := by rfl
  have hmake : make e.settings e.words = .ok e := make_eq_ok_iff.mpr ⟨hcheck, rfl⟩
  have hgene : gene.depth ≤ 6 ∧ gene.nodeCount ≤ 50 := by decide
  have hinitial : ∀ genes ∈ some [gene], ∀ other ∈ genes, other.depth ≤ 6 ∧ other.nodeCount ≤ 50 := by
    intro genes hgenes other hother
    obtain rfl : [gene] = genes := by simpa using hgenes
    obtain rfl : other = gene := by simpa using hother
    exact hgene
  have hready : e.generator.Ready := by decide +kernel
  obtain ⟨hruns, hhistory, hrest⟩ := evolve_within_bounds hmake rfl hinitial evaluator
  obtain ⟨run, hrun⟩ := hruns hready
  exact ⟨hmake, hgene, ⟨run, hrun, hhistory run hrun⟩, hrest⟩

end Engine
end SignalEvolution

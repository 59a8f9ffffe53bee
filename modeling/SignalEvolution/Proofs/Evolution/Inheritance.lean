import SignalEvolution.Proofs.Evolution.Selection
import SignalEvolution.Proofs.Evolution.Stages
import SignalEvolution.Proofs.Variation.Inheritance

/-! # What generations hand on

A property of trees that random individuals have and variation keeps is handed on from one
generation to the next: elites stay as they are and children vary from selected parents.
-/
namespace SignalEvolution

open Draw (Always)
open PartialDraw (Unless)

namespace EvolutionSettings

/-- Random individuals have a property, and variation keeps it. -/
structure Hereditary (σ : Type) [WordSource σ] (s : EvolutionSettings) (g : Generator)
    (Q : Tree → Prop) : Prop where
  individual : Unless (s.individual g : PartialDraw σ Gene) (¬ g.Ready) fun gene => Q gene.root
  keeps : Variator.Keeps σ ⟨s, g⟩ Q

variable {σ : Type} [WordSource σ] {s : EvolutionSettings} {g : Generator} {Q : Tree → Prop}

namespace Hereditary

theorem population (h : s.Hereditary σ g Q) :
    Unless (s.population g : PartialDraw σ (List Gene)) (¬ g.Ready) fun genes =>
      genes.length = s.populationSize ∧ ∀ gene ∈ genes, Q gene.root :=
  h.individual.times s.populationSize

theorem fitPopulation (h : s.Hereditary σ g Q) {genes : List Gene}
    (hgenes : ∀ gene ∈ genes, Q gene.root) :
    Unless (s.fitPopulation g genes : PartialDraw σ (List Gene)) (¬ g.Ready) fun out =>
      out.length = s.populationSize ∧ ∀ gene ∈ out, Q gene.root := by
  apply (h.individual.times _).bind
  rintro added ⟨hlength, hadded⟩
  apply Unless.pure
  constructor
  · rw [List.length_append, hlength, List.length_take]
    omega
  · intro gene hgene
    rcases List.mem_append.mp hgene with hkept | hnew
    · exact hgenes gene (List.mem_of_mem_take hkept)
    · exact hadded gene hnew

theorem pair (h : s.Hereditary σ g Q) {a b : Gene} (ha : Q a.root) (hb : Q b.root)
    (generation : Nat) :
    Always (s.pair a b generation : Draw σ (Gene × Gene)) fun pair =>
      Q pair.1.root ∧ Q pair.2.root := by
  apply Always.after
  intro roll
  apply Always.ite
  · intro _
    exact h.keeps.cross ha hb generation
  · intro _
    exact Gene.offspring_pair (fun _ => rfl) ha hb

theorem litter (h : s.Hereditary σ g Q) {scored : List Scored} (hscored : ∀ i ∈ scored, Q i.gene.root)
    (generation : Nat) :
    Always (s.litter scored generation : Draw σ (Option (Gene × Gene))) fun out =>
      ∀ children ∈ out, Q children.1.root ∧ Q children.2.root := by
  apply (Scored.select_mem s scored).bind
  intro first hfirst
  apply (Scored.select_mem s scored).bind
  intro second hsecond
  split
  · rename_i p q
    apply (h.pair (hscored p (hfirst p rfl)) (hscored q (hsecond q rfl)) generation).bind
    intro children hchildren
    apply Always.pure
    simpa using hchildren
  · exact Always.nothing

theorem breed (h : s.Hereditary σ g Q) {scored : List Scored} (hscored : ∀ i ∈ scored, Q i.gene.root)
    (generation missing : Nat) :
    Unless (s.breed g scored generation missing : PartialDraw σ (List Gene)) (¬ g.Ready) fun genes =>
      ∀ gene ∈ genes, Q gene.root := by
  fun_induction EvolutionSettings.breed with
  | case1 =>
    apply Unless.pure
    simp
  | case2 =>
    apply Unless.draw (h.litter hscored generation)
    intro out hout
    cases out with
    | none =>
      apply Unless.pure
      simp
    | some children =>
      apply (h.keeps.vary (hout children rfl).1).bind
      intro child hchild
      apply Unless.pure
      simpa using hchild
  | case3 missing ih =>
    apply Unless.draw (h.litter hscored generation)
    intro out hout
    cases out with
    | none =>
      apply Unless.pure
      simp
    | some children =>
      obtain ⟨ha, hb⟩ := hout children rfl
      apply (h.keeps.vary ha).bind
      intro childA hA
      apply (h.keeps.vary hb).bind
      intro childB hB
      apply ih.bind
      intro rest hrest
      apply Unless.pure
      simpa using ⟨hA, hB, hrest⟩

theorem nextGeneration (h : s.Hereditary σ g Q) {scored : List Scored}
    (hscored : ∀ i ∈ scored, Q i.gene.root) (generation : Nat) :
    Unless (s.nextGeneration g scored generation : PartialDraw σ (List Gene)) (¬ g.Ready) fun genes =>
      ∀ gene ∈ genes, Q gene.root := by
  apply Unless.ite
  · intro _
    exact h.population.imp fun _ hgenes => hgenes.2
  · intro _
    apply (h.breed hscored generation _).bind
    intro children hchildren
    apply Unless.pure
    intro gene hgene
    rcases List.mem_append.mp hgene with hkept | hchild
    · obtain ⟨i, hi, rfl⟩ := Scored.mem_of_mem_elites hkept
      exact hscored i hi
    · exact hchildren gene hchild

end Hereditary

variable {P : Kind → Prop}

theorem minimalSignal_every (h : g.Draws σ P) (s : EvolutionSettings) :
    Unless (s.minimalSignal g : PartialDraw σ Tree) (¬ g.Ready) (Tree.Every P) := by
  apply Unless.ite
  · intro _
    exact h.terminal
  · intro _
    apply Unless.after
    intro cmp
    apply h.terminal.bind
    intro left hleft
    apply h.terminal.bind
    intro right hright
    exact Unless.pure (h.compare _ hleft hright)

/-- Whether a signal is given or drawn again, it is one of the generator's. -/
theorem checkedSignal_every (h : g.Draws σ P) {other : PartialDraw σ Tree}
    (hother : other.Unless (¬ g.Ready) (Tree.Every P))
    (s : EvolutionSettings) :
    Unless (do
      let t ← g.signal
      if s.maxNodes < t.nodeCount then other else return t) (¬ g.Ready) (Tree.Every P) := by
  apply h.signal.bind
  intro t ht
  apply Unless.ite
  · intro _
    exact hother
  · intro _
    exact Unless.pure ht

theorem fittingSignal_every (h : g.Draws σ P) (s : EvolutionSettings) (redraws : Nat) :
    Unless (s.fittingSignal g redraws : PartialDraw σ Tree) (¬ g.Ready) (Tree.Every P) := by
  induction redraws with
  | zero => exact checkedSignal_every h (minimalSignal_every h s) s
  | succ redraws ih => exact checkedSignal_every h ih s

theorem individual_every (h : g.Draws σ P) (s : EvolutionSettings) :
    Unless (s.individual g : PartialDraw σ Gene) (¬ g.Ready) fun gene => gene.root.Every P := by
  apply (fittingSignal_every h s maxRedraws).bind
  intro t ht
  apply Unless.sure
  apply (Gene.ofTree_root t).imp
  intro gene hgene
  rw [hgene]
  exact ht

/-- What the generator gives and point mutations keep, every node of every individual has. -/
theorem hereditary_every (hdraws : g.Draws σ P)
    (hmutate : ∀ k, Always (Tree.mutateKind s k : Draw σ Kind) fun l => P k → P l) :
    s.Hereditary σ g (Tree.Every P) :=
  ⟨individual_every hdraws s, Variator.keeps_every hdraws hmutate⟩

/-- Of any tree, nothing is asked. -/
theorem hereditary_trivial (s : EvolutionSettings) (g : Generator) :
    s.Hereditary σ g (Tree.Every fun _ => True) := by
  apply hereditary_every
  · constructor
    case operator => exact fun _ => trivial
    case comparator => exact fun _ => trivial
    case series => exact fun _ => trivial
    case constant => exact Generator.constant_unless fun _ => Tree.every_leaf trivial
    case indicator => exact (Always.trivial _).imp fun _ _ _ _ => trivial
  · intro k
    exact (Always.trivial _).imp fun _ _ _ => trivial

end EvolutionSettings

variable {σ : Type} [WordSource σ] {s : EvolutionSettings} {g : Generator} {Q : Tree → Prop}

/-- The engine is the one of the run, and all trees of the population have a property. -/
structure Stage.Bears (s : EvolutionSettings) (g : Generator) (Q : Tree → Prop) (st : Stage σ) : Prop where
  settings : st.engine.settings = s
  generator : st.engine.generator = g
  genes : ∀ gene ∈ st.genes, Q gene.root

theorem Engine.gene_of_mem_score {evaluator : Evaluator} {generation : Nat} {genes : List Gene} {i : Scored}
    (h : i ∈ Engine.score evaluator generation genes) : i.gene ∈ genes := by
  obtain ⟨place, hplace, rfl⟩ := List.mem_mapIdx.mp h
  exact List.getElem_mem hplace

omit [WordSource σ] in
theorem Stage.Bears.scored {st : Stage σ} (h : st.Bears s g Q) (evaluator : Evaluator) :
    ∀ i ∈ st.scored evaluator, Q i.gene.root := by
  intro i hi
  exact h.genes i.gene (Engine.gene_of_mem_score hi)

theorem Stage.Bears.advance {st next : Stage σ} {evaluator : Evaluator} (h : st.Bears s g Q)
    (hhereditary : s.Hereditary σ g Q) (hnext : st.advance evaluator = some next) : next.Bears s g Q := by
  have hscored := h.scored evaluator
  obtain ⟨genes, words, hrun, rfl⟩ := Stage.advance_eq_some_iff.mp hnext
  obtain ⟨rfl, rfl, -⟩ := h
  exact ⟨rfl, rfl, (hhereditary.nextGeneration hscored (st.generation + 1)).of_run hrun⟩

theorem Engine.opening_bears {e : Engine σ} {initial : Option (List Gene)}
    (h : e.settings.Hereditary σ e.generator Q)
    (hinitial : ∀ genes ∈ initial, ∀ gene ∈ genes, Q gene.root) :
    (e.opening initial).Unless (¬ e.generator.Ready) fun genes =>
      genes.length = e.settings.populationSize ∧ ∀ gene ∈ genes, Q gene.root := by
  cases initial with
  | none => exact h.population
  | some genes => exact h.fitPopulation (hinitial genes rfl)

theorem Stage.first_bears {e : Engine σ} {initial : Option (List Gene)} {st : Stage σ}
    (h : e.settings.Hereditary σ e.generator Q)
    (hinitial : ∀ genes ∈ initial, ∀ gene ∈ genes, Q gene.root) (hfirst : Stage.first e initial = some st) :
    st.Bears e.settings e.generator Q := by
  obtain ⟨genes, words, hrun, rfl⟩ := Stage.first_eq_some_iff.mp hfirst
  exact ⟨rfl, rfl, ((Engine.opening_bears h hinitial).of_run hrun).2⟩

/-- Every individual that a run scores has inherited the property. -/
theorem Engine.generations_inherit {e : Engine σ} {initial : Option (List Gene)}
    (h : e.settings.Hereditary σ e.generator Q)
    (hinitial : ∀ genes ∈ initial, ∀ gene ∈ genes, Q gene.root) (evaluator : Evaluator) :
    ∀ scored ∈ e.generations initial evaluator, ∀ i ∈ scored, Q i.gene.root := by
  intro scored hscored i hi
  obtain ⟨st, hst, rfl⟩ := List.mem_map.mp hscored
  have hbears := stages_induction (fun _ hfirst => Stage.first_bears h hinitial hfirst)
    (fun _ _ hbears hnext => hbears.advance h hnext) st hst
  exact hbears.scored evaluator i hi

namespace Engine

/-- A run comes to its end where constants can be drawn. -/
theorem exists_evolve {e : Engine σ} (hready : e.generator.Ready) (initial : Option (List Gene))
    (evaluator : Evaluator) : ∃ run, e.evolve initial evaluator = some run := by
  have hany : ∀ t : Tree, t.Every fun _ => True := fun _ _ _ => trivial
  have hopening : (e.opening initial).Unless (¬ e.generator.Ready) fun _ => True :=
    (opening_bears (EvolutionSettings.hereditary_trivial e.settings e.generator)
      fun _ _ gene _ => hany gene.root).imp fun _ _ => trivial
  obtain ⟨genes, words, hrun, -⟩ := hopening.exists_run (not_not_intro hready) e.words
  have hfirst : Stage.first e initial = some ⟨0, genes, [], { e with words }⟩ :=
    Stage.first_eq_some_iff.mpr ⟨genes, words, hrun, rfl⟩
  rw [Stage.evolve_eq_play, hfirst, Option.bind_some]
  refine Stage.exists_play (P := fun st => st.engine.generator.Ready) ?_ ?_ _
  · exact hready
  intro st hst
  have hfollowing : (st.following evaluator).Unless (¬ st.engine.generator.Ready) fun _ => True :=
    ((EvolutionSettings.hereditary_trivial st.engine.settings st.engine.generator).nextGeneration
      (fun i _ => hany i.gene.root) (st.generation + 1)).imp fun _ _ => trivial
  obtain ⟨later, rest, hnext, -⟩ := hfollowing.exists_run (not_not_intro hst) st.engine.words
  exact ⟨_, Stage.advance_eq_some_iff.mpr ⟨later, rest, hnext, rfl⟩, hst⟩

end Engine
end SignalEvolution

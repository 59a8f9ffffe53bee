import SignalEvolution.Proofs.Evolution.Bounds
import SignalEvolution.Proofs.Evolution.Ranking

/-! # Elites carry the best score on

The best of a scored population is one of its elites. An elite goes into the next population
as it is and scores there what it scored before, so the best score of a run never falls.
-/
namespace SignalEvolution

open PartialDraw (Unless)

namespace Scored

variable {population seen : List Scored} {a b s : Scored} {count : Nat}

/-- A member that no member stands above. -/
structure Leads (b : Scored) (population : List Scored) : Prop where
  mem : b ∈ population
  above : ∀ s ∈ population, s.standing ≤ b.standing

theorem Leads.standing_eq (ha : a.Leads population) (hb : b.Leads population) :
    a.standing = b.standing := by
  have hab := hb.above a ha.mem
  have hba := ha.above b hb.mem
  omega

theorem leads_singleton (s : Scored) : s.Leads [s] := by
  constructor
  · exact List.mem_singleton_self s
  · intro t ht
    obtain rfl := List.mem_singleton.mp ht
    exact Int.le_refl _

theorem Leads.better (h : b.Leads population) (s : Scored) :
    (better b s).Leads (population ++ [s]) := by
  unfold Scored.better
  split
  · next hs =>
    constructor
    · exact List.mem_append_left _ h.mem
    · intro t ht
      rcases List.mem_append.mp ht with ht | ht
      · exact h.above t ht
      · rw [List.mem_singleton.mp ht]
        omega
  · next hs =>
    constructor
    · simp
    · intro t ht
      rcases List.mem_append.mp ht with ht | ht
      · have hb := h.above t ht
        omega
      · obtain rfl := List.mem_singleton.mp ht
        exact Int.le_refl _

theorem Leads.foldl_better (h : b.Leads seen) (rest : List Scored) :
    (rest.foldl Scored.better b).Leads (seen ++ rest) := by
  induction rest generalizing b seen with
  | nil => simpa using h
  | cons s rest ih =>
    have hnext := ih (h.better s)
    rwa [List.append_assoc, List.singleton_append] at hnext

/-- The best of a population leads it. -/
theorem exists_best? (h : population ≠ []) : ∃ b, best? population = some b ∧ b.Leads population := by
  obtain ⟨first, rest, rfl⟩ := List.exists_cons_of_ne_nil h
  exact ⟨rest.foldl Scored.better first, rfl, (leads_singleton first).foldl_better rest⟩

/-- Where there is room for an elite, one of those that lead the population is kept. -/
theorem exists_elite (h : population ≠ []) (hcount : 0 < count) :
    ∃ s : Scored, s.Leads population ∧ s.gene ∈ elites population count := by
  have hranks := Ranks.mergeSort Scored.standing population
  change Ranks _ (ranked population) population at hranks
  have hne : ranked population ≠ [] := by
    intro hnil
    rw [hnil] at hranks
    exact h (List.nil_perm.mp hranks.perm)
  obtain ⟨first, rest, hfirst⟩ := List.exists_cons_of_ne_nil hne
  obtain ⟨n, rfl⟩ := Nat.exists_eq_succ_of_ne_zero (Nat.ne_of_gt hcount)
  rw [hfirst] at hranks
  have hbelow := (List.pairwise_cons.mp hranks.descending).1
  refine ⟨first, ⟨hranks.perm.mem_iff.mp List.mem_cons_self, ?_⟩, ?_⟩
  · intro s hs
    rcases List.mem_cons.mp (hranks.perm.mem_iff.mpr hs) with rfl | hrest
    · exact Int.le_refl _
    · exact hbelow s hrest
  · simp [elites, hfirst]

end Scored

namespace GenerationStats

/-- How the best score of a generation ranks among all numbers. -/
def lead (stats : GenerationStats) : Int := Binary.orderKey (Scalar.rank stats.best)

theorem lead_ofPopulation {b : Scored} {population : List Scored} (h : b.Leads population)
    (generation : Nat) : (ofPopulation generation population).lead = b.standing := by
  obtain ⟨best, hbest, hleads⟩ := Scored.exists_best? (List.ne_nil_of_mem h.mem)
  rw [← hleads.standing_eq h, lead, ofPopulation, hbest]
  rfl

end GenerationStats

theorem Engine.mem_score_ofGene {fitness : Gene → Fitness} {generation : Nat} {genes : List Gene}
    {s : Scored} : s ∈ Engine.score (.ofGene fitness) generation genes ↔
      s.gene ∈ genes ∧ s.fitness = fitness s.gene := by
  constructor
  · intro h
    obtain ⟨place, hplace, rfl⟩ := List.mem_mapIdx.mp h
    exact ⟨List.getElem_mem hplace, rfl⟩
  · rintro ⟨hg, hfitness⟩
    obtain ⟨place, hplace, hgene⟩ := List.getElem_of_mem hg
    refine List.mem_mapIdx.mpr ⟨place, hplace, ?_⟩
    rw [hgene, Evaluator.ofGene, ← hfitness]

variable {σ : Type} [WordSource σ]

theorem EvolutionSettings.nextGeneration_elites (s : EvolutionSettings) (g : Generator)
    {scored : List Scored} (h : scored ≠ []) (generation : Nat) :
    Unless (s.nextGeneration g scored generation : PartialDraw σ (List Gene)) True fun genes =>
      ∀ gene ∈ Scored.elites scored s.eliteCount, gene ∈ genes := by
  apply Unless.ite
  · intro hempty
    exact absurd (List.isEmpty_iff.mp hempty) h
  · intro _
    apply Unless.whatever.bind
    intro children _
    apply Unless.pure
    intro gene hgene
    exact List.mem_append_left _ hgene

namespace Stage

variable {fitness : Gene → Fitness} {settings : EvolutionSettings} {st next : Stage σ}

/-- A stage of a run under these settings that has somebody to score. -/
structure Peopled (settings : EvolutionSettings) (st : Stage σ) : Prop where
  settings : st.engine.settings = settings
  genes : st.genes ≠ []

/-- One of those that lead a stage is scored again at the next. -/
theorem Peopled.exists_survivor (h : st.Peopled settings) (helite : 0 < settings.eliteCount)
    (hnext : st.advance (.ofGene fitness) = some next) :
    ∃ s : Scored, s.Leads (st.scored (.ofGene fitness)) ∧ s ∈ next.scored (.ofGene fitness) := by
  have hne : st.scored (.ofGene fitness) ≠ [] := by
    simpa [scored, Engine.score] using h.genes
  obtain ⟨s, hleads, hkept⟩ := Scored.exists_elite hne helite
  have hfitness := (Engine.mem_score_ofGene.mp hleads.mem).2
  have helites := settings.nextGeneration_elites (σ := σ) st.engine.generator hne (st.generation + 1)
  obtain ⟨genes, words, hrun, rfl⟩ := advance_eq_some_iff.mp hnext
  rw [following, h.settings] at hrun
  exact ⟨s, hleads, Engine.mem_score_ofGene.mpr ⟨helites.of_run hrun s.gene hkept, hfitness⟩⟩

/-- The best score does not fall from one stage to the next. -/
theorem Peopled.advance (h : st.Peopled settings) (helite : 0 < settings.eliteCount)
    (hnext : st.advance (.ofGene fitness) = some next) : next.Peopled settings ∧
      (st.stats (.ofGene fitness)).lead ≤ (next.stats (.ofGene fitness)).lead := by
  obtain ⟨s, hleads, hs⟩ := h.exists_survivor helite hnext
  obtain ⟨best, _, hbest⟩ := Scored.exists_best? (List.ne_nil_of_mem hs)
  constructor
  · obtain ⟨_, _, -, rfl⟩ := advance_eq_some_iff.mp hnext
    exact ⟨h.settings, List.ne_nil_of_mem (Engine.mem_score_ofGene.mp hs).1⟩
  · rw [stats, stats, GenerationStats.lead_ofPopulation hleads, GenerationStats.lead_ofPopulation hbest]
    exact hbest.above s hs

theorem first_length {e : Engine σ} {initial : Option (List Gene)} (h : first e initial = some st) :
    st.genes.length = e.settings.populationSize := by
  obtain ⟨genes, words, hrun, rfl⟩ := first_eq_some_iff.mp h
  have hopening : (e.opening initial).Unless (¬ e.generator.Ready) fun genes =>
      genes.length = e.settings.populationSize ∧ ∀ gene ∈ genes, gene.root.Every fun _ => True :=
    Engine.opening_bears (EvolutionSettings.hereditary_trivial _ _) fun _ _ _ _ _ _ => trivial
  exact (hopening.of_run hrun).1

theorem first_peopled {e : Engine σ} (hvalid : e.settings.Valid) {initial : Option (List Gene)}
    (h : first e initial = some st) : st.Peopled e.settings := by
  have hsize := hvalid.populationSize
  have hlength := first_length h
  refine ⟨(first_start h).2.2.1, List.ne_nil_of_length_pos ?_⟩
  omega

end Stage

namespace Engine

/-- With at least one elite and an evaluator that looks at the gene alone, the best score of a run never
falls from a generation to a later one, in the total order of numbers and with a NaN below all of them.
A run comes to its end if the generator has a range to draw constants from. -/
theorem evolve_best_never_falls {e : Engine σ} (hcheck : e.settings.check = .ok ())
    (helite : 1 ≤ e.settings.eliteCount) (initial : Option (List Gene)) (fitness : Gene → Fitness) :
    (e.generator.Ready → ∃ run, e.evolve initial (.ofGene fitness) = some run) ∧
    ∀ run, e.evolve initial (.ofGene fitness) = some run →
      run.1.history.Pairwise fun earlier later =>
        Binary.orderKey (Scalar.rank earlier.best) ≤ Binary.orderKey (Scalar.rank later.best) := by
  have hvalid := EvolutionSettings.check_eq_ok_iff.mp hcheck
  refine ⟨fun hready => exists_evolve hready initial _, ?_⟩
  intro run hrun
  obtain ⟨st, hfirst, -, hstages⟩ := exists_first hrun
  have hchain := Stage.onward_isChain
    (R := fun st next => (st.stats (.ofGene fitness)).lead ≤ (next.stats (.ofGene fitness)).lead)
    (Stage.first_peopled hvalid hfirst) (fun _ _ h hnext => h.advance helite hnext)
    (Nat.max e.settings.generations 1 - 1)
  rw [evolve_summaries hrun, hstages]
  have htrans : IsTrans GenerationStats fun earlier later => earlier.lead ≤ later.lead :=
    ⟨fun _ _ _ => Int.le_trans⟩
  exact List.isChain_iff_pairwise.mp ((List.isChain_map _).mpr hchain)

/-- The default settings keep two elites; here a single comparison scores no number at all. -/
theorem evolve_best_never_falls_default :
    let e : Engine ListedWords :=
      ⟨.default, .ofSettings .default, { capacity := Hall.defaultCapacity }, ⟨[], 7⟩⟩
    let evaluator : Evaluator := .ofGene fun gene =>
      { score := if gene.nodeCount = 3 then GenerationStats.notANumber else Float.ofNat gene.nodeCount }
    (e.settings.check = .ok () ∧ 1 ≤ e.settings.eliteCount) ∧
    ∃ run, e.evolve none evaluator = some run ∧ run.1.history.Pairwise fun earlier later =>
      Binary.orderKey (Scalar.rank earlier.best) ≤ Binary.orderKey (Scalar.rank later.best) := by
  intro e evaluator
  have hcheck : EvolutionSettings.default.check = .ok () := by rfl
  have helite : 1 ≤ EvolutionSettings.default.eliteCount := by decide
  have hready : (Generator.ofSettings .default).Ready := by decide +kernel
  obtain ⟨hruns, hfalls⟩ := evolve_best_never_falls (e := e) hcheck helite none fun gene =>
    { score := if gene.nodeCount = 3 then GenerationStats.notANumber else Float.ofNat gene.nodeCount }
  obtain ⟨run, hrun⟩ := hruns hready
  exact ⟨⟨hcheck, helite⟩, run, hrun, hfalls run hrun⟩

end Engine
end SignalEvolution

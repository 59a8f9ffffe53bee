import SignalEvolution.Proofs.Evolution.Bounds

/-! # The course of a run

What populations a run goes through does not depend on when it is to stop, nor on the way in
which genes are judged. Two runs that differ in this alone are at equal stages as long as both
go on, so the shorter one is the beginning of the longer one.
-/
namespace SignalEvolution

namespace EvolutionSettings

/-- The settings `s` with what `t` says of stopping and of judging. -/
def superviseLike (s t : EvolutionSettings) : EvolutionSettings :=
  { s with
    generations := t.generations
    targetFitness := t.targetFitness
    stopOnConvergence := t.stopOnConvergence
    convergenceWindow := t.convergenceWindow
    convergenceEpsilon := t.convergenceEpsilon
    parallelEvaluation := t.parallelEvaluation }

/-- Settings that differ at most in when a run stops and in how genes are judged. -/
def SameCourse (s t : EvolutionSettings) : Prop := s.superviseLike t = t

namespace SameCourse

variable {σ : Type} [WordSource σ] {s t : EvolutionSettings}

theorem populationSize (h : s.SameCourse t) : s.populationSize = t.populationSize := by
  rw [← h]
  rfl

theorem eliteCount (h : s.SameCourse t) : s.eliteCount = t.eliteCount := by
  rw [← h]
  rfl

theorem maxNodes (h : s.SameCourse t) : s.maxNodes = t.maxNodes := by
  rw [← h]
  rfl

theorem generator (h : s.SameCourse t) : Generator.ofSettings s = Generator.ofSettings t := by
  rw [← h]
  rfl

theorem minimalSignal (h : s.SameCourse t) (g : Generator) :
    (s.minimalSignal g : PartialDraw σ Tree) = t.minimalSignal g := by
  rw [← h]
  rfl

theorem fittingSignal (h : s.SameCourse t) (g : Generator) (redraws : Nat) :
    (s.fittingSignal g redraws : PartialDraw σ Tree) = t.fittingSignal g redraws := by
  induction redraws with
  | zero => rw [EvolutionSettings.fittingSignal, EvolutionSettings.fittingSignal, h.minimalSignal, h.maxNodes]
  | succ redraws ih => rw [EvolutionSettings.fittingSignal, EvolutionSettings.fittingSignal, ih, h.maxNodes]

theorem individual (h : s.SameCourse t) (g : Generator) :
    (s.individual g : PartialDraw σ Gene) = t.individual g := by
  rw [EvolutionSettings.individual, EvolutionSettings.individual, h.fittingSignal]

theorem population (h : s.SameCourse t) (g : Generator) :
    (s.population g : PartialDraw σ (List Gene)) = t.population g := by
  rw [EvolutionSettings.population, EvolutionSettings.population, h.individual, h.populationSize]

theorem fitPopulation (h : s.SameCourse t) (g : Generator) (genes : List Gene) :
    (s.fitPopulation g genes : PartialDraw σ (List Gene)) = t.fitPopulation g genes := by
  rw [EvolutionSettings.fitPopulation, EvolutionSettings.fitPopulation, h.individual, h.populationSize]

theorem litter (h : s.SameCourse t) (scored : List Scored) (generation : Nat) :
    (s.litter scored generation : Draw σ (Option (Gene × Gene))) = t.litter scored generation := by
  rw [← h]
  rfl

theorem vary (h : s.SameCourse t) (g : Generator) (gene : Gene) :
    (gene.vary ⟨s, g⟩ : PartialDraw σ Gene) = gene.vary ⟨t, g⟩ := by
  rw [← h]
  rfl

theorem breed (h : s.SameCourse t) (g : Generator) (scored : List Scored) (generation missing : Nat) :
    (s.breed g scored generation missing : PartialDraw σ (List Gene)) = t.breed g scored generation missing := by
  fun_induction EvolutionSettings.breed (σ := σ) s g scored generation missing with
  | case1 => rw [EvolutionSettings.breed]
  | case2 =>
    rw [EvolutionSettings.breed]
    simp only [h.litter, h.vary]
  | case3 missing ih =>
    rw [EvolutionSettings.breed]
    simp only [h.litter, h.vary, ih]

theorem nextGeneration (h : s.SameCourse t) (g : Generator) (scored : List Scored) (generation : Nat) :
    (s.nextGeneration g scored generation : PartialDraw σ (List Gene)) = t.nextGeneration g scored generation := by
  simp only [EvolutionSettings.nextGeneration, h.population, h.breed, h.eliteCount, h.populationSize]

end SameCourse
end EvolutionSettings

/-- Engines that draw the same: settings of one course, one generator and the same words to come. -/
structure Engine.Alike {σ : Type} (e f : Engine σ) : Prop where
  settings : e.settings.SameCourse f.settings
  generator : e.generator = f.generator
  words : e.words = f.words

namespace Stage

variable {σ : Type} [WordSource σ] {evaluator : Evaluator} {a b : Stage σ}

/-- Stages of two runs at which both have come to the same. -/
structure Abreast (a b : Stage σ) : Prop where
  generation : a.generation = b.generation
  genes : a.genes = b.genes
  engine : a.engine.Alike b.engine

omit [WordSource σ] in
theorem Abreast.scored (h : a.Abreast b) (evaluator : Evaluator) :
    a.scored evaluator = b.scored evaluator := by
  rw [Stage.scored, Stage.scored, h.generation, h.genes]

theorem Abreast.following (h : a.Abreast b) (evaluator : Evaluator) :
    (a.following evaluator).run a.engine.words = (b.following evaluator).run b.engine.words := by
  rw [Stage.following, Stage.following, h.engine.settings.nextGeneration, h.engine.generator, h.scored,
    h.generation, h.engine.words]

theorem Abreast.advance {next : Stage σ} (h : a.Abreast b) (hnext : a.advance evaluator = some next) :
    ∃ other, b.advance evaluator = some other ∧ next.Abreast other := by
  obtain ⟨genes, words, hrun, rfl⟩ := advance_eq_some_iff.mp hnext
  rw [h.following] at hrun
  refine ⟨_, advance_eq_some_iff.mpr ⟨genes, words, hrun, rfl⟩, ?_⟩
  constructor
  case generation => exact congrArg (· + 1) h.generation
  case genes => rfl
  case engine => exact ⟨h.engine.settings, h.engine.generator, rfl⟩

theorem prefix_of_stop {left : Nat} (h : a.scored evaluator = b.scored evaluator)
    (hstop : onward evaluator left a = [a]) (left' : Nat) :
    (onward evaluator left a).map (Stage.scored evaluator) <+:
      (onward evaluator left' b).map (Stage.scored evaluator) := by
  obtain ⟨later, hlater⟩ := onward_eq_cons evaluator left' b
  rw [hstop, hlater, List.map_singleton, List.map_cons, h]
  exact ⟨later.map (Stage.scored evaluator), rfl⟩

/-- A run is at its last stage, or goes on with one stage less to come. -/
theorem onward_cases (evaluator : Evaluator) (left : Nat) (st : Stage σ) :
    onward evaluator left st = [st] ∨ ∃ less next, st.advance evaluator = some next ∧ left = less + 1 ∧
      onward evaluator left st = st :: onward evaluator less next := by
  induction left, st using @play_induction σ _ evaluator with
  | ended left st reason hend => exact .inl (onward_ended hend left)
  | spent st hend => exact .inl rfl
  | brokenOff left st hend hnext => exact .inl (onward_brokenOff hend hnext left)
  | further left st next hend hnext => exact .inr ⟨left, next, hnext, rfl, onward_succ hend hnext left⟩

/-- Runs from stages abreast score the same populations until one of them stops. -/
theorem Abreast.prefix_total (h : a.Abreast b) (evaluator : Evaluator) (left left' : Nat) :
    (onward evaluator left a).map (Stage.scored evaluator) <+:
        (onward evaluator left' b).map (Stage.scored evaluator) ∨
      (onward evaluator left' b).map (Stage.scored evaluator) <+:
        (onward evaluator left a).map (Stage.scored evaluator) := by
  -- By induction on what the first run may still do; while neither stops, both advance abreast.
  induction left generalizing left' a b with
  | zero => exact .inl (prefix_of_stop (h.scored evaluator) rfl left')
  | succ left ih =>
    have hscored := h.scored evaluator
    rcases onward_cases evaluator (left + 1) a with hstop | ⟨_, next, hnext, ⟨rfl⟩, hgoes⟩
    · exact .inl (prefix_of_stop hscored hstop left')
    · rcases onward_cases evaluator left' b with hstop | ⟨less, next', hnext', -, hgoes'⟩
      · exact .inr (prefix_of_stop hscored.symm hstop (left + 1))
      · obtain ⟨other, hother, habreast⟩ := h.advance hnext
        obtain rfl := Option.some.inj (hnext'.symm.trans hother)
        rw [hgoes, hgoes', List.map_cons, List.map_cons, hscored, List.prefix_cons_inj,
          List.prefix_cons_inj]
        exact ih habreast less

end Stage

namespace Engine

variable {σ : Type} [WordSource σ] {e f : Engine σ} {initial : Option (List Gene)} {evaluator : Evaluator}
  {run run' : Outcome × List Event × Engine σ}

theorem Alike.first (h : e.Alike f) (initial : Option (List Gene)) :
    (Stage.first e initial = none ∧ Stage.first f initial = none) ∨
      ∃ a b, Stage.first e initial = some a ∧ Stage.first f initial = some b ∧ a.Abreast b := by
  have hopening : (e.opening initial).run e.words = (f.opening initial).run f.words := by
    cases initial with
    | none => rw [opening, opening, h.settings.population, h.generator, h.words]
    | some genes => rw [opening, opening, h.settings.fitPopulation, h.generator, h.words]
  cases hrun : (f.opening initial).run f.words with
  | none =>
    rw [hrun] at hopening
    left
    rw [Stage.first, Stage.first, draw, draw, hopening, hrun]
    exact ⟨rfl, rfl⟩
  | some r =>
    rw [hrun] at hopening
    right
    exact ⟨_, _, Stage.first_eq_some_iff.mpr ⟨r.1, r.2, hopening, rfl⟩,
      Stage.first_eq_some_iff.mpr ⟨r.1, r.2, hrun, rfl⟩, rfl, rfl, h.settings, h.generator, rfl⟩

theorem Alike.generations (h : e.Alike f) (initial : Option (List Gene)) (evaluator : Evaluator) :
    e.generations initial evaluator <+: f.generations initial evaluator ∨
      f.generations initial evaluator <+: e.generations initial evaluator := by
  rw [Engine.generations, Engine.generations, stages, stages]
  rcases h.first initial with ⟨he, hf⟩ | ⟨a, b, he, hf, habreast⟩
  · rw [he, hf]
    exact .inl (List.prefix_refl _)
  · rw [he, hf]
    exact habreast.prefix_total evaluator _ _

omit [WordSource σ] in
theorem alike_of_make {s t : EvolutionSettings} {words : σ} (h : s.SameCourse t)
    (he : make s words = .ok e) (hf : make t words = .ok f) : e.Alike f := by
  obtain ⟨-, rfl⟩ := make_eq_ok_iff.mp he
  obtain ⟨-, rfl⟩ := make_eq_ok_iff.mp hf
  exact ⟨h, h.generator, rfl⟩

/-- The history begins with the summaries of the populations that a run scored first. -/
theorem prefix_history (he : e.evolve initial evaluator = some run) (hf : f.evolve initial evaluator = some run')
    (h : e.generations initial evaluator <+: f.generations initial evaluator) :
    run.1.history <+: run'.1.history := by
  obtain ⟨later, hlater⟩ := h
  rw [evolve_history he, evolve_history hf, ← hlater, List.mapIdx_append]
  exact ⟨_, rfl⟩

/-- Of two runs whose settings differ at most in when to stop and how to judge, with the same words, the
same initial population and the same judgement of each gene, one is the beginning of the other: what it
scored is, and so is its history, and what both of them scored in a generation is the same population.
Both come to their end if their generator has a range to draw constants from. -/
theorem stopping_never_steers {s t : EvolutionSettings} (hcourse : s.SameCourse t) {words : σ}
    (he : make s words = .ok e) (hf : make t words = .ok f) (initial : Option (List Gene))
    (fitness : Gene → Fitness) :
    let evaluator := Evaluator.ofGene fitness
    (e.generations initial evaluator <+: f.generations initial evaluator ∨
      f.generations initial evaluator <+: e.generations initial evaluator) ∧
    (e.generator.Ready → (∃ run, e.evolve initial evaluator = some run) ∧
      ∃ run, f.evolve initial evaluator = some run) ∧
    ∀ run run', e.evolve initial evaluator = some run → f.evolve initial evaluator = some run' →
      (run.1.history <+: run'.1.history ∨ run'.1.history <+: run.1.history) ∧
      ∀ i < run.1.history.length, i < run'.1.history.length →
        ∃ population, (e.generations initial evaluator)[i]? = some population ∧
          (f.generations initial evaluator)[i]? = some population := by
  intro evaluator
  have halike := alike_of_make hcourse he hf
  have hbegins := halike.generations initial evaluator
  refine ⟨hbegins, ?_, ?_⟩
  · intro hready
    refine ⟨exists_evolve hready initial evaluator, ?_⟩
    rw [halike.generator] at hready
    exact exists_evolve hready initial evaluator
  · intro run run' hrun hrun'
    constructor
    · rcases hbegins with hfirst | hfirst
      · exact .inl (prefix_history hrun hrun' hfirst)
      · exact .inr (prefix_history hrun' hrun hfirst)
    · intro i hi hj
      rw [evolve_history hrun, List.length_mapIdx] at hi
      rw [evolve_history hrun', List.length_mapIdx] at hj
      have hsame : (e.generations initial evaluator)[i] = (f.generations initial evaluator)[i] := by
        rcases hbegins with hfirst | hfirst
        · exact hfirst.getElem hi
        · exact (hfirst.getElem hj).symm
      refine ⟨_, List.getElem?_eq_getElem hi, ?_⟩
      rw [hsame]
      exact List.getElem?_eq_getElem hj

/-- The default settings against others that judge side by side, for three generations or until a
score reaches 40. -/
theorem stopping_never_steers_default :
    let s : EvolutionSettings := .default
    let t : EvolutionSettings :=
      { s with generations := 3, targetFitness := some 40, parallelEvaluation := true }
    let words : ListedWords := ⟨[], 7⟩
    let e : Engine ListedWords := ⟨s, .ofSettings s, { capacity := Hall.defaultCapacity }, words⟩
    let f : Engine ListedWords := ⟨t, .ofSettings t, { capacity := Hall.defaultCapacity }, words⟩
    let evaluator : Evaluator := .ofGene fun gene => { score := Float.ofNat gene.nodeCount }
    (s.SameCourse t ∧ make s words = .ok e ∧ make t words = .ok f) ∧
    ∃ run run', e.evolve none evaluator = some run ∧ f.evolve none evaluator = some run' ∧
      (run.1.history <+: run'.1.history ∨ run'.1.history <+: run.1.history) ∧
      ∀ i < run.1.history.length, i < run'.1.history.length →
        ∃ population, (e.generations none evaluator)[i]? = some population ∧
          (f.generations none evaluator)[i]? = some population := by
  intro s t words e f evaluator
  have hcourse : s.SameCourse t := by rfl
  have hs : EvolutionSettings.default.check = .ok () := by rfl
  have ht : { EvolutionSettings.default with
      generations := 3, targetFitness := some 40, parallelEvaluation := true }.check = .ok () := by rfl
  have he : make s words = .ok e := make_eq_ok_iff.mpr ⟨hs, rfl⟩
  have hf : make t words = .ok f := make_eq_ok_iff.mpr ⟨ht, rfl⟩
  have hready : e.generator.Ready := by decide +kernel
  obtain ⟨-, hruns, hsame⟩ := stopping_never_steers hcourse he hf none
    fun gene => { score := Float.ofNat gene.nodeCount }
  obtain ⟨⟨run, hrun⟩, run', hrun'⟩ := hruns hready
  exact ⟨⟨hcourse, he, hf⟩, run, run', hrun, hrun', hsame run run' hrun hrun'⟩

end Engine
end SignalEvolution

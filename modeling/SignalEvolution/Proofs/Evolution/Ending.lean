import SignalEvolution.Proofs.Evolution.Elitism
import SignalEvolution.Proofs.Evolution.Succession

/-! # How a run ends

A run goes on as long as its history shows neither the target nor convergence and the budget
leaves a generation. Where it stops, the reason that it gives is true of the history, the
target coming before convergence and both before the budget.
-/
namespace SignalEvolution

open Draw (Always)
open PartialDraw (Unless)

namespace EvolutionSettings

variable {s : EvolutionSettings} {history : List GenerationStats}

/-- The last generation has a target and reaches it. -/
def Reached (s : EvolutionSettings) (history : List GenerationStats) : Prop :=
  ∃ target ∈ s.targetFitness, ∃ last ∈ history.getLast?, target ≤ last.best

/-- The run is to stop at convergence, and its best scores have converged. -/
def Settled (s : EvolutionSettings) (history : List GenerationStats) : Prop :=
  s.stopOnConvergence = true ∧
    hasConverged (history.map GenerationStats.best) s.convergenceWindow s.convergenceEpsilon = true

/-- What the history of a run shows where it ends for a reason. -/
def Warrants (s : EvolutionSettings) (history : List GenerationStats) : Termination → Prop
  | .targetReached => s.Reached history
  | .converged => ¬ s.Reached history ∧ s.Settled history
  | .generationBudget =>
    ¬ s.Reached history ∧ ¬ s.Settled history ∧ history.length = Nat.max s.generations 1

theorem reached_iff : s.Reached history ↔
    (s.targetFitness.any fun target => history.getLast?.any fun last => target ≤ last.best) = true := by
  simp only [Reached, Option.any_eq_true, Option.mem_def, decide_eq_true_eq]

theorem ending?_cases (s : EvolutionSettings) (history : List GenerationStats) :
    (s.Reached history ∧ Engine.ending? s history = some .targetReached) ∨
      (¬ s.Reached history ∧ s.Settled history ∧ Engine.ending? s history = some .converged) ∨
      (¬ s.Reached history ∧ ¬ s.Settled history ∧ Engine.ending? s history = none) := by
  rw [reached_iff, Settled, ← Bool.and_eq_true, Engine.ending?]
  split
  · next hreached => exact .inl ⟨hreached, rfl⟩
  · next hreached =>
    split
    · next hsettled => exact .inr (.inl ⟨hreached, hsettled, rfl⟩)
    · next hsettled => exact .inr (.inr ⟨hreached, hsettled, rfl⟩)

theorem warrants_of_ending? {reason : Termination} (h : Engine.ending? s history = some reason) :
    s.Warrants history reason := by
  rcases ending?_cases s history with ⟨hreached, heq⟩ | ⟨hreached, hsettled, heq⟩ | ⟨-, -, heq⟩
  · obtain rfl := Option.some.inj (heq.symm.trans h)
    exact hreached
  · obtain rfl := Option.some.inj (heq.symm.trans h)
    exact ⟨hreached, hsettled⟩
  · cases heq.symm.trans h

theorem ending?_eq_none_iff :
    Engine.ending? s history = none ↔ ¬ s.Reached history ∧ ¬ s.Settled history := by
  constructor
  · intro h
    rcases ending?_cases s history with ⟨-, heq⟩ | ⟨-, -, heq⟩ | ⟨hreached, hsettled, -⟩
    · cases heq.symm.trans h
    · cases heq.symm.trans h
    · exact ⟨hreached, hsettled⟩
  · rintro ⟨hreached, hsettled⟩
    rcases ending?_cases s history with ⟨h, -⟩ | ⟨-, h, -⟩ | ⟨-, -, h⟩
    · exact absurd h hreached
    · exact absurd h hsettled
    · exact h

end EvolutionSettings

def Event.started? : Event → Option Nat
  | .started generation => some generation
  | _ => none

namespace Stage

variable {σ : Type} [WordSource σ] {evaluator : Evaluator} {settings : EvolutionSettings} {st next : Stage σ}
  {run : Outcome × List Event × Engine σ}

/-- What a run from a stage on comes to: it goes on for some generations, no history before the
last one being an end, and what it gives as its reason is true of the last. -/
structure Ends (evaluator : Evaluator) (left : Nat) (st : Stage σ) (run : Outcome × List Event × Engine σ)
    (later : List GenerationStats) : Prop where
  history : run.1.history = st.record evaluator ++ later
  budget : later.length ≤ left
  onward : ∀ j < later.length, Engine.ending? st.engine.settings (st.record evaluator ++ later.take j) = none
  reason : Engine.ending? st.engine.settings (st.record evaluator ++ later) = some run.1.termination ∨
    later.length = left ∧ Engine.ending? st.engine.settings (st.record evaluator ++ later) = none ∧
      run.1.termination = .generationBudget

theorem Ends.step {left : Nat} {later : List GenerationStats} (h : st.ending? evaluator = none)
    (hnext : st.advance evaluator = some next) (hends : Ends evaluator left next run later) :
    Ends evaluator (left + 1) st (run.1, st.events evaluator ++ run.2.1, run.2.2)
      (next.stats evaluator :: later) := by
  have hrecord : ∀ rest, next.record evaluator ++ rest =
      st.record evaluator ++ next.stats evaluator :: rest := by
    obtain ⟨_, _, -, rfl⟩ := advance_eq_some_iff.mp hnext
    intro rest
    exact List.append_assoc _ _ _
  have hsettings : next.engine.settings = st.engine.settings := by
    obtain ⟨_, _, -, rfl⟩ := advance_eq_some_iff.mp hnext
    rfl
  obtain ⟨hhistory, hbudget, honward, hreason⟩ := hends
  rw [hsettings] at honward hreason
  constructor
  case history => rw [hhistory, hrecord]
  case budget => exact Nat.succ_le_succ hbudget
  case onward =>
    intro j hj
    cases j with
    | zero =>
      rw [List.take_zero, List.append_nil]
      exact h
    | succ j =>
      rw [List.take_succ_cons, ← hrecord]
      exact honward j (Nat.lt_of_succ_lt_succ hj)
  case reason =>
    rw [← hrecord, List.length_cons, Nat.succ_inj]
    exact hreason

theorem exists_ends {left : Nat} (h : play evaluator left st = some run) :
    ∃ later, Ends evaluator left st run later := by
  apply play_cases (P := fun left st run => ∃ later, Ends evaluator left st run later) ?_ ?_ ?_ h
  · intro left st reason hend
    refine ⟨[], ?_⟩
    constructor
    case history => rw [List.append_nil]
    case budget => exact Nat.zero_le left
    case onward => simp
    case reason =>
      rw [List.append_nil]
      exact .inl hend
  · intro st hend
    refine ⟨[], ?_⟩
    constructor
    case history => rw [List.append_nil]
    case budget => exact Nat.le_refl 0
    case onward => simp
    case reason =>
      rw [List.append_nil]
      exact .inr ⟨rfl, hend, rfl⟩
  · rintro left st next run hend hnext ⟨later, hlater⟩
    exact ⟨_, hlater.step hend hnext⟩

omit [WordSource σ] in
theorem started_events (st : Stage σ) : (st.events evaluator).filterMap Event.started? = [st.generation] := by
  have hquiet : (Engine.evaluationEvents st.engine.settings st.genes.length).filterMap Event.started? = [] := by
    rw [List.filterMap_eq_nil_iff]
    intro event hevent
    unfold Engine.evaluationEvents at hevent
    split at hevent
    · cases hevent
    · obtain ⟨i, -, rfl⟩ := List.mem_map.mp hevent
      rfl
  have hsplit : (st.events evaluator).filterMap Event.started? = st.generation ::
      ((Engine.evaluationEvents st.engine.settings st.genes.length).filterMap Event.started? ++ []) :=
    congrArg (List.cons st.generation) List.filterMap_append
  rw [hsplit, hquiet, List.append_nil]

theorem started_play {left : Nat} (h : play evaluator left st = some run) :
    run.2.1.filterMap Event.started? = List.range' st.generation (onward evaluator left st).length := by
  apply play_cases (P := fun left st run =>
    run.2.1.filterMap Event.started? = List.range' st.generation (onward evaluator left st).length) ?_ ?_ ?_ h
  · intro left st reason hend
    rw [started_events, onward_ended hend]
    rfl
  · intro st hend
    rw [started_events, onward]
    rfl
  · intro left st next run hend hnext ih
    have hgeneration : next.generation = st.generation + 1 := by
      obtain ⟨_, _, -, rfl⟩ := advance_eq_some_iff.mp hnext
      rfl
    rw [List.filterMap_append, started_events, ih, onward_succ hend hnext, List.length_cons,
      List.range'_succ, hgeneration]
    rfl

/-- A stage of a run under these settings with as many genes as they ask for. -/
structure Sized (settings : EvolutionSettings) (st : Stage σ) : Prop where
  genes : st.genes.length = settings.populationSize
  settings : st.engine.settings = settings

theorem Sized.advance (h : st.Sized settings) (hvalid : settings.Valid)
    (hnext : st.advance evaluator = some next) : next.Sized settings := by
  have hlength := hvalid.nextGeneration_length (σ := σ) st.engine.generator (st.scored evaluator)
    (st.generation + 1)
  obtain ⟨genes, words, hrun, rfl⟩ := advance_eq_some_iff.mp hnext
  rw [following, h.settings] at hrun
  exact ⟨hlength.of_run hrun, h.settings⟩

theorem first_given {e : Engine σ} {genes : List Gene} (h : first e (some genes) = some st) :
    ∃ added, st.genes = genes.take e.settings.populationSize ++ added := by
  have hfilled : Unless (e.settings.fitPopulation e.generator genes : PartialDraw σ (List Gene)) True
      fun out => ∃ added, out = genes.take e.settings.populationSize ++ added := by
    apply Unless.whatever.bind
    intro added _
    exact Unless.pure ⟨added, rfl⟩
  obtain ⟨out, words, hrun, rfl⟩ := first_eq_some_iff.mp h
  exact hfilled.of_run hrun

end Stage

namespace Engine

variable {σ : Type} [WordSource σ] {e : Engine σ} {initial : Option (List Gene)} {evaluator : Evaluator}
  {run : Outcome × List Event × Engine σ} {k : Nat}

theorem length_of_mem_generations (h : e.settings.Valid) :
    ∀ scored ∈ e.generations initial evaluator, scored.length = e.settings.populationSize := by
  intro scored hscored
  obtain ⟨st, hst, rfl⟩ := List.mem_map.mp hscored
  have hsized := stages_induction (P := fun st => st.Sized e.settings)
    (fun _ hfirst => ⟨Stage.first_length hfirst, (Stage.first_start hfirst).2.2.1⟩)
    (fun _ _ hst hnext => hst.advance h hnext) st hst
  rw [Stage.scored, score, List.length_mapIdx]
  exact hsized.genes

/-- A gene has the answer that was given for its place in its generation. -/
theorem fitness_of_mem_generations {g place : Nat} {scored : List Scored} {i : Scored}
    (hscored : (e.generations initial evaluator)[g]? = some scored) (hi : scored[place]? = some i) :
    i.fitness = evaluator g place i.gene := by
  rw [generations, List.getElem?_map] at hscored
  obtain ⟨st, hst, rfl⟩ := Option.map_eq_some_iff.mp hscored
  rw [Stage.scored, score, List.getElem?_mapIdx, generation_of_stages hst] at hi
  obtain ⟨gene, -, rfl⟩ := Option.map_eq_some_iff.mp hi
  rfl

theorem last_generation (hrun : e.evolve initial evaluator = some run)
    (h : (e.generations initial evaluator).length = k + 1) :
    (e.generations initial evaluator)[k]? = some run.1.population := by
  rw [← evolve_population hrun, List.getLast?_eq_getElem?, h, Nat.add_sub_cancel]

theorem numbered_generations (h : (e.generations initial evaluator).length = k + 1) :
    ((e.generations initial evaluator).mapIdx GenerationStats.ofPopulation).map GenerationStats.generation =
      List.range (k + 1) := by
  apply List.ext_getElem
  · rw [List.length_map, List.length_mapIdx, h, List.length_range]
  · intro i _ _
    rw [List.getElem_map, List.getElem_mapIdx, List.getElem_range]
    rfl

/-- Where a run stops and why, whatever its settings. -/
theorem evolve_stops (hrun : e.evolve initial evaluator = some run) :
    ∃ k, k + 1 ≤ Nat.max e.settings.generations 1 ∧
      run.1.history.length = k + 1 ∧
      (∀ j < k, ending? e.settings (run.1.history.take (j + 1)) = none) ∧
      e.settings.Warrants run.1.history run.1.termination := by
  have hmax := Nat.le_max_right e.settings.generations 1
  change 1 ≤ Nat.max e.settings.generations 1 at hmax
  obtain ⟨st, hfirst, hplay, -⟩ := exists_first hrun
  obtain ⟨later, hends, hbudget, honward, hreason⟩ := Stage.exists_ends hplay
  obtain ⟨-, hhistory, hsettings, -⟩ := Stage.first_start hfirst
  rw [Stage.record, hhistory, List.nil_append, hsettings] at honward hreason
  rw [Stage.record, hhistory, List.nil_append] at hends
  rw [hends]
  refine ⟨later.length, by omega, rfl, honward, ?_⟩
  rcases hreason with hend | ⟨hspent, hnone, hbudget⟩
  · exact EvolutionSettings.warrants_of_ending? hend
  · rw [hbudget]
    obtain ⟨hreached, hsettled⟩ := EvolutionSettings.ending?_eq_none_iff.mp hnone
    refine ⟨hreached, hsettled, ?_⟩
    rw [List.singleton_append, List.length_cons, hspent]
    omega

/-- What a run of `k + 1` generations gives. -/
structure RunsTo (e : Engine σ) (initial : Option (List Gene)) (evaluator : Evaluator)
    (run : Outcome × List Event × Engine σ) (k : Nat) : Prop where
  budget : k + 1 ≤ Nat.max e.settings.generations 1
  started : run.2.1.filterMap Event.started? = List.range (k + 1)
  numbered : run.1.history.map GenerationStats.generation = List.range (k + 1)
  onward : ∀ j < k,
    ¬ e.settings.Reached (run.1.history.take (j + 1)) ∧ ¬ e.settings.Settled (run.1.history.take (j + 1))
  reason : e.settings.Warrants run.1.history run.1.termination
  /-- All that is summarised has been scored, and there is enough of it. -/
  history : run.1.history = (e.generations initial evaluator).mapIdx GenerationStats.ofPopulation
  generations : ∀ g scored, (e.generations initial evaluator)[g]? = some scored →
    scored.length = e.settings.populationSize ∧
      ∀ place i, scored[place]? = some i → i.fitness = evaluator g place i.gene
  size : run.1.population.length = e.settings.populationSize
  summary : run.1.history[k]? = some (GenerationStats.ofPopulation k run.1.population)
  best : ∃ b, run.1.best? = some b ∧ run.1.history[k]?.map GenerationStats.bestId = some b.gene.id
  given : ∀ genes ∈ initial, ∃ added, (e.generations initial evaluator)[0]? =
    some (score evaluator 0 (genes.take e.settings.populationSize ++ added))

theorem first_generation (hrun : e.evolve initial evaluator = some run) : ∃ st,
    Stage.first e initial = some st ∧ (e.generations initial evaluator)[0]? = some (score evaluator 0 st.genes) := by
  obtain ⟨st, hfirst, -, hstages⟩ := exists_first hrun
  obtain ⟨later, hlater⟩ := Stage.onward_eq_cons evaluator (Nat.max e.settings.generations 1 - 1) st
  refine ⟨st, hfirst, ?_⟩
  obtain ⟨hzero, -⟩ := Stage.first_start hfirst
  rw [generations, hstages, hlater, List.map_cons, List.getElem?_cons_zero, Stage.scored, hzero]

/-- With settings that pass their check, a run ends after its last generation or at the first one
whose history has reached the target or converged, and gives this reason; its outcome is the
last population with the summaries of all. A run comes to its end unless the generator has no
range to draw a constant from. -/
theorem evolve_ends (hcheck : e.settings.check = .ok ()) (initial : Option (List Gene))
    (evaluator : Evaluator) :
    (e.generator.Ready → ∃ run, e.evolve initial evaluator = some run) ∧
    ∀ run, e.evolve initial evaluator = some run → ∃ k, e.RunsTo initial evaluator run k := by
  refine ⟨fun hready => exists_evolve hready initial evaluator, ?_⟩
  intro run hrun
  have hvalid := EvolutionSettings.check_eq_ok_iff.mp hcheck
  have hstats := evolve_history hrun
  obtain ⟨k, hbudget, hlength, honward, hreason⟩ := evolve_stops hrun
  have hcount : (e.generations initial evaluator).length = k + 1 := by
    rw [← hlength, hstats, List.length_mapIdx]
  have hlast := last_generation hrun hcount
  have hpopulation := length_of_mem_generations hvalid _ (List.mem_of_getElem? hlast)
  have hsummary : run.1.history[k]? = some (GenerationStats.ofPopulation k run.1.population) := by
    rw [hstats, List.getElem?_mapIdx, hlast]
    rfl
  refine ⟨k, ?_⟩
  constructor
  case budget => exact hbudget
  case started =>
    obtain ⟨st, hfirst, hplay, hstages⟩ := exists_first hrun
    rw [generations, List.length_map, hstages] at hcount
    rw [Stage.started_play hplay, hcount, (Stage.first_start hfirst).1, List.range_eq_range']
  case numbered => rw [hstats, numbered_generations hcount]
  case onward =>
    intro j hj
    exact EvolutionSettings.ending?_eq_none_iff.mp (honward j hj)
  case reason => exact hreason
  case history => exact hstats
  case generations =>
    intro g scored hscored
    exact ⟨length_of_mem_generations hvalid scored (List.mem_of_getElem? hscored),
      fun place i hi => fitness_of_mem_generations hscored hi⟩
  case size => exact hpopulation
  case summary => exact hsummary
  case best =>
    have hsize := hvalid.populationSize
    have hsome : run.1.population ≠ [] := List.ne_nil_of_length_pos (by omega)
    obtain ⟨b, hb, -⟩ := Scored.exists_best? hsome
    refine ⟨b, hb, ?_⟩
    rw [hsummary, Option.map_some, GenerationStats.ofPopulation, hb]
    rfl
  case given =>
    rintro genes ⟨⟩
    obtain ⟨st, hfirst, hzero⟩ := first_generation hrun
    obtain ⟨added, hadded⟩ := Stage.first_given hfirst
    exact ⟨added, by rw [hzero, hadded]⟩

/-- The default settings, from a single comparison, with an evaluator that answers differently from
generation to generation and scores no number at the first place. -/
theorem evolve_ends_default :
    let e : Engine ListedWords :=
      ⟨.default, .ofSettings .default, { capacity := Hall.defaultCapacity }, ⟨[], 7⟩⟩
    let gene : Gene := ⟨.compare .greater (.series .close) (.constant 1), "00000000000000ab", 0, {}⟩
    let evaluator : Evaluator := fun generation place _ =>
      { score := if place = 0 then GenerationStats.notANumber else Float.ofNat generation }
    e.settings.check = .ok () ∧
    ∃ run, e.evolve (some [gene]) evaluator = some run ∧ ∃ k, e.RunsTo (some [gene]) evaluator run k := by
  intro e gene evaluator
  have hcheck : EvolutionSettings.default.check = .ok () := by rfl
  have hready : (Generator.ofSettings .default).Ready := by decide +kernel
  obtain ⟨hruns, hends⟩ := evolve_ends (e := e) hcheck (some [gene]) evaluator
  obtain ⟨run, hrun⟩ := hruns hready
  exact ⟨hcheck, run, hrun, hends run hrun⟩

/-- Settings that pass their check with a domain of constants without an upper end: there is no run
where the first population asks for a constant. -/
theorem evolve_breaks_off :
    let s : EvolutionSettings :=
      { EvolutionSettings.default with populationSize := 2, eliteCount := 0, constantMin := 200, constantMax := 1 / 0 }
    let e : Engine ListedWords := ⟨s, .ofSettings s, { capacity := Hall.defaultCapacity }, ⟨[], 7⟩⟩
    e.settings.check = .ok () ∧ ∀ evaluator, e.evolve none evaluator = none := by
  intro s e
  have hvalid : s.Valid := by
    constructor
    case rates => decide +kernel
    case convergenceWindow => exact fun hstop => Bool.noConfusion hstop
    all_goals decide +kernel
  have hnone : ((e.opening none).run e.words).isNone = true := by decide +kernel
  refine ⟨EvolutionSettings.check_eq_ok_iff.mpr hvalid, ?_⟩
  intro evaluator
  rw [Stage.evolve_eq_play, Stage.first, draw, Option.isNone_iff_eq_none.mp hnone]
  rfl

end Engine
end SignalEvolution

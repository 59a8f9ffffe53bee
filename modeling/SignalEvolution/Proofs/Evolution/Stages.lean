import Mathlib.Data.List.Chain
import SignalEvolution.Evolution.Engine

/-! # The stages of a run

A run goes from stage to stage: a population is scored and entered, then the run ends or the
next population is drawn. Here the stages are listed, so that what one step keeps holds at
every stage of the run. Where a draw breaks off, the stages before it remain.
-/
namespace SignalEvolution

/-- A population before it is scored, and what the run has come to by then. -/
structure Stage (σ : Type) where
  generation : Nat
  genes : List Gene
  history : List GenerationStats
  engine : Engine σ

def Engine.opening {σ : Type} [WordSource σ] (e : Engine σ) : Option (List Gene) → PartialDraw σ (List Gene)
  | some genes => e.settings.fitPopulation e.generator genes
  | none => e.settings.population e.generator

namespace Stage

variable {σ : Type} (evaluator : Evaluator)

def scored (st : Stage σ) : List Scored := Engine.score evaluator st.generation st.genes

def stats (st : Stage σ) : GenerationStats :=
  GenerationStats.ofPopulation st.generation (st.scored evaluator)

def entered (st : Stage σ) : Engine σ :=
  { st.engine with hall := (st.engine.hall.offerAll st.generation (st.scored evaluator)).1 }

def record (st : Stage σ) : List GenerationStats := st.history ++ [st.stats evaluator]

def events (st : Stage σ) : List Event :=
  .started st.generation :: Engine.evaluationEvents st.engine.settings st.genes.length ++
    [.completed (st.stats evaluator) (st.entered evaluator).hall.entries.length]

def ending? (st : Stage σ) : Option Termination :=
  Engine.ending? st.engine.settings (st.record evaluator)

variable [WordSource σ]

/-- The draw of the population after this one. -/
def following (st : Stage σ) : PartialDraw σ (List Gene) :=
  st.engine.settings.nextGeneration st.engine.generator (st.scored evaluator) (st.generation + 1)

/-- The stage after this one, if the run does not end here. -/
def advance (st : Stage σ) : Option (Stage σ) :=
  ((st.entered evaluator).draw (st.following evaluator)).map fun (next, e) =>
    ⟨st.generation + 1, next, st.record evaluator, e⟩

/-- This stage and those that follow, `left` of them at most. -/
def onward : (left : Nat) → Stage σ → List (Stage σ)
  | 0, st => [st]
  | left + 1, st =>
    match st.ending? evaluator with
    | some _ => [st]
    | none => st :: (st.advance evaluator).elim [] (onward left)

def first (e : Engine σ) (initial : Option (List Gene)) : Option (Stage σ) :=
  (e.draw (e.opening initial)).map fun (genes, e) => ⟨0, genes, [], e⟩

def play (left : Nat) (st : Stage σ) : Option (Outcome × List Event × Engine σ) :=
  Engine.runFrom evaluator left st.generation st.genes st.history st.engine

variable {evaluator} {st next later : Stage σ} {reason : Termination} {run : Outcome × List Event × Engine σ}

theorem advance_eq_some_iff : st.advance evaluator = some next ↔
    ∃ genes words, (st.following evaluator).run st.engine.words = some (genes, words) ∧
      next = ⟨st.generation + 1, genes, st.record evaluator, { st.entered evaluator with words }⟩ := by
  change Option.map _ (Option.map _ ((st.following evaluator).run st.engine.words)) = _ ↔ _
  cases (st.following evaluator).run st.engine.words with
  | none => simp
  | some r =>
    obtain ⟨genes, words⟩ := r
    simp [eq_comm]

theorem first_eq_some_iff {e : Engine σ} {initial : Option (List Gene)} : first e initial = some st ↔
    ∃ genes words, (e.opening initial).run e.words = some (genes, words) ∧
      st = ⟨0, genes, [], { e with words }⟩ := by
  change Option.map _ (Option.map _ ((e.opening initial).run e.words)) = _ ↔ _
  cases (e.opening initial).run e.words with
  | none => simp
  | some r =>
    obtain ⟨genes, words⟩ := r
    simp [eq_comm]

theorem first_start {e : Engine σ} {initial : Option (List Gene)} (h : first e initial = some st) :
    st.generation = 0 ∧ st.history = [] ∧ st.engine.settings = e.settings ∧ st.engine.hall = e.hall := by
  obtain ⟨_, _, -, rfl⟩ := first_eq_some_iff.mp h
  exact ⟨rfl, rfl, rfl, rfl⟩

theorem onward_ended (h : st.ending? evaluator = some reason) (left : Nat) : onward evaluator left st = [st] := by
  cases left <;> simp [onward, h]

theorem onward_succ (h : st.ending? evaluator = none) (hnext : st.advance evaluator = some next) (left : Nat) :
    onward evaluator (left + 1) st = st :: onward evaluator left next := by
  simp [onward, h, hnext]

theorem onward_brokenOff (h : st.ending? evaluator = none) (hnext : st.advance evaluator = none) (left : Nat) :
    onward evaluator (left + 1) st = [st] := by
  simp [onward, h, hnext]

/-- A run ends with the stage that it has come to, has spent its budget there, breaks off after it, or
goes on from the next one. -/
theorem play_induction (evaluator : Evaluator) {P : Nat → Stage σ → Prop}
    (ended : ∀ left st reason, st.ending? evaluator = some reason → P left st)
    (spent : ∀ st, st.ending? evaluator = none → P 0 st)
    (brokenOff : ∀ left st, st.ending? evaluator = none → st.advance evaluator = none → P (left + 1) st)
    (further : ∀ left st next, st.ending? evaluator = none → st.advance evaluator = some next →
      P left next → P (left + 1) st)
    (left : Nat) (st : Stage σ) : P left st := by
  induction left generalizing st with
  | zero =>
    cases hend : st.ending? evaluator with
    | none => exact spent st hend
    | some reason => exact ended 0 st reason hend
  | succ left ih =>
    cases hend : st.ending? evaluator with
    | none =>
      cases hnext : st.advance evaluator with
      | none => exact brokenOff left st hend hnext
      | some next => exact further left st next hend hnext (ih next)
    | some reason => exact ended (left + 1) st reason hend

/-- What one step keeps holds at every stage from the first one on. -/
theorem onward_induction {P : Stage σ → Prop} (h : P st)
    (hstep : ∀ st next, P st → st.advance evaluator = some next → P next) (left : Nat) :
    ∀ later ∈ onward evaluator left st, P later := by
  induction left, st using @play_induction σ _ evaluator with
  | ended left st reason hend => simpa [onward_ended hend] using h
  | spent st hend => simpa [onward] using h
  | brokenOff left st hend hnext => simpa [onward_brokenOff hend hnext] using h
  | further left st next hend hnext ih =>
    rw [onward_succ hend hnext]
    exact List.forall_mem_cons.mpr ⟨h, ih (hstep st next h hnext)⟩

theorem onward_eq_cons (evaluator : Evaluator) (left : Nat) (st : Stage σ) :
    ∃ later, onward evaluator left st = st :: later := by
  induction left, st using @play_induction σ _ evaluator with
  | ended left st reason hend => exact ⟨[], onward_ended hend left⟩
  | spent st hend => exact ⟨[], rfl⟩
  | brokenOff left st hend hnext => exact ⟨[], onward_brokenOff hend hnext left⟩
  | further left st next hend hnext => exact ⟨_, onward_succ hend hnext left⟩

/-- What holds between a stage and the next one holds along the whole run. -/
theorem onward_isChain {P : Stage σ → Prop} {R : Stage σ → Stage σ → Prop} (h : P st)
    (hstep : ∀ st next, P st → st.advance evaluator = some next → P next ∧ R st next)
    (left : Nat) : (onward evaluator left st).IsChain R := by
  induction left, st using @play_induction σ _ evaluator with
  | ended left st reason hend =>
    rw [onward_ended hend]
    exact List.isChain_singleton st
  | spent st hend => exact List.isChain_singleton st
  | brokenOff left st hend hnext =>
    rw [onward_brokenOff hend hnext]
    exact List.isChain_singleton st
  | further left st next hend hnext ih =>
    obtain ⟨hkept, hrelated⟩ := hstep st next h hnext
    obtain ⟨later, hlater⟩ := onward_eq_cons evaluator left next
    have hrest := ih hkept
    rw [onward_succ hend hnext]
    rw [hlater] at hrest ⊢
    exact List.isChain_cons_cons.mpr ⟨hrelated, hrest⟩

omit [WordSource σ] in
/-- The way of judging makes no difference to where a run ends. -/
theorem ending?_judge (evaluator : Evaluator) (st : Stage σ) :
    Engine.ending? st.engine.settings (st.history ++ [GenerationStats.ofPopulation st.generation
      (Engine.judge st.engine.settings evaluator st.generation st.genes)]) = st.ending? evaluator := by
  rw [Engine.judge_eq]
  rfl

theorem play_ended (h : st.ending? evaluator = some reason) (left : Nat) :
    play evaluator left st =
      some (⟨st.scored evaluator, st.record evaluator, reason⟩, st.events evaluator,
        st.entered evaluator) := by
  rw [← ending?_judge] at h
  rw [play, Engine.runFrom.eq_1 _ _ _ _ _ left reason h, Engine.judge_eq]
  rfl

theorem play_zero (h : st.ending? evaluator = none) :
    play evaluator 0 st =
      some (⟨st.scored evaluator, st.record evaluator, .generationBudget⟩, st.events evaluator,
        st.entered evaluator) := by
  rw [← ending?_judge] at h
  rw [play, Engine.runFrom.eq_2 _ _ _ _ _ h, Engine.judge_eq]
  rfl

theorem play_step (h : st.ending? evaluator = none) (left : Nat) :
    play evaluator (left + 1) st = (st.advance evaluator).bind fun next =>
      (play evaluator left next).map fun run => (run.1, st.events evaluator ++ run.2.1, run.2.2) := by
  rw [← ending?_judge] at h
  rw [play, Engine.runFrom.eq_3 _ _ _ _ _ left h, Engine.judge_eq]
  change Option.bind ((st.entered evaluator).draw (st.following evaluator)) _ = _
  rw [advance]
  cases (st.entered evaluator).draw (st.following evaluator) with
  | none => rfl
  | some r =>
    change Option.bind (play evaluator left ⟨st.generation + 1, r.1, st.record evaluator, r.2⟩) _ =
      Option.map _ (play evaluator left ⟨st.generation + 1, r.1, st.record evaluator, r.2⟩)
    cases play evaluator left ⟨st.generation + 1, r.1, st.record evaluator, r.2⟩ <;> rfl

theorem play_succ (h : st.ending? evaluator = none) (hnext : st.advance evaluator = some next) (left : Nat) :
    play evaluator (left + 1) st = (play evaluator left next).map fun run =>
      (run.1, st.events evaluator ++ run.2.1, run.2.2) := by
  rw [play_step h, hnext, Option.bind_some]

theorem play_brokenOff (h : st.ending? evaluator = none) (hnext : st.advance evaluator = none) (left : Nat) :
    play evaluator (left + 1) st = none := by
  rw [play_step h, hnext, Option.bind_none]

theorem evolve_eq_play (e : Engine σ) (initial : Option (List Gene)) (evaluator : Evaluator) :
    e.evolve initial evaluator =
      (first e initial).bind (play evaluator (Nat.max e.settings.generations 1 - 1)) := by
  have hopening : e.evolve initial evaluator = (e.draw (e.opening initial)).bind fun (genes, e) =>
      Engine.runFrom evaluator (Nat.max e.settings.generations 1 - 1) 0 genes [] e := by
    cases initial <;> rfl
  rw [hopening, first, Engine.draw]
  cases (e.opening initial).run e.words <;> rfl

/-- What holds of the runs that end holds of a run that comes to its end. -/
theorem play_cases {P : Nat → Stage σ → Outcome × List Event × Engine σ → Prop}
    (ended : ∀ left st reason, st.ending? evaluator = some reason → P left st
      (⟨st.scored evaluator, st.record evaluator, reason⟩, st.events evaluator, st.entered evaluator))
    (spent : ∀ st, st.ending? evaluator = none → P 0 st
      (⟨st.scored evaluator, st.record evaluator, .generationBudget⟩, st.events evaluator, st.entered evaluator))
    (further : ∀ left st next run, st.ending? evaluator = none → st.advance evaluator = some next →
      P left next run → P (left + 1) st (run.1, st.events evaluator ++ run.2.1, run.2.2))
    {left : Nat} (h : play evaluator left st = some run) : P left st run := by
  induction left, st using @play_induction σ _ evaluator generalizing run with
  | ended left st reason hend =>
    rw [play_ended hend] at h
    obtain rfl := Option.some.inj h
    exact ended left st reason hend
  | spent st hend =>
    rw [play_zero hend] at h
    obtain rfl := Option.some.inj h
    exact spent st hend
  | brokenOff left st hend hnext =>
    rw [play_brokenOff hend hnext] at h
    cases h
  | further left st next hend hnext ih =>
    rw [play_succ hend hnext] at h
    obtain ⟨last, hlast, rfl⟩ := Option.map_eq_some_iff.mp h
    exact further left st next last hend hnext (ih hlast)

/-- The last stage gives the population of the outcome. -/
theorem play_population {left : Nat} (h : play evaluator left st = some run) :
    ((onward evaluator left st).map (scored evaluator)).getLast? = some run.1.population := by
  apply play_cases (P := fun left st run =>
    ((onward evaluator left st).map (scored evaluator)).getLast? = some run.1.population) ?_ ?_ ?_ h
  · intro left st reason hend
    simp [onward_ended hend]
  · intro st hend
    simp [onward]
  · intro left st next run hend hnext ih
    simp [onward_succ hend hnext, List.getLast?_cons, ih]

theorem play_history {left : Nat} (h : play evaluator left st = some run) :
    run.1.history = st.history ++ (onward evaluator left st).map (stats evaluator) := by
  apply play_cases (P := fun left st run =>
    run.1.history = st.history ++ (onward evaluator left st).map (stats evaluator)) ?_ ?_ ?_ h
  · intro left st reason hend
    simp [onward_ended hend, record]
  · intro st hend
    simp [onward, record]
  · intro left st next run hend hnext ih
    have hhistory : next.history = st.history ++ [st.stats evaluator] := by
      obtain ⟨_, _, -, rfl⟩ := advance_eq_some_iff.mp hnext
      rfl
    simp [onward_succ hend hnext, ih, hhistory]

theorem onward_generation {left i : Nat} (h : (onward evaluator left st)[i]? = some later) :
    later.generation = st.generation + i := by
  have hlast : ∀ (st : Stage σ) (i : Nat), [st][i]? = some later → later.generation = st.generation + i := by
    intro st i h
    cases i with
    | zero =>
      obtain rfl : st = later := by simpa using h
      rfl
    | succ i => simp at h
  induction left, st using @play_induction σ _ evaluator generalizing i with
  | ended left st reason hend =>
    rw [onward_ended hend] at h
    exact hlast st i h
  | spent st hend => exact hlast st i h
  | brokenOff left st hend hnext =>
    rw [onward_brokenOff hend hnext] at h
    exact hlast st i h
  | further left st next hend hnext ih =>
    rw [onward_succ hend hnext] at h
    cases i with
    | zero =>
      obtain rfl : st = later := by simpa using h
      rfl
    | succ i =>
      have hgeneration : next.generation = st.generation + 1 := by
        obtain ⟨_, _, -, rfl⟩ := advance_eq_some_iff.mp hnext
        rfl
      rw [ih h, hgeneration]
      omega

theorem onward_stats (left : Nat) (st : Stage σ) :
    (onward evaluator left st).map (stats evaluator) =
      ((onward evaluator left st).map (scored evaluator)).mapIdx fun i population =>
        GenerationStats.ofPopulation (st.generation + i) population := by
  apply List.ext_getElem?
  intro i
  rw [List.getElem?_map, List.getElem?_mapIdx, List.getElem?_map]
  cases hlater : (onward evaluator left st)[i]? with
  | none => rfl
  | some later =>
    rw [← onward_generation hlater]
    rfl

/-- Where every stage has a next one, a run comes to its end. -/
theorem exists_play {P : Stage σ → Prop} (h : P st)
    (hstep : ∀ st, P st → ∃ next, st.advance evaluator = some next ∧ P next) (left : Nat) :
    ∃ run, play evaluator left st = some run := by
  induction left, st using @play_induction σ _ evaluator with
  | ended left st reason hend => exact ⟨_, play_ended hend left⟩
  | spent st hend => exact ⟨_, play_zero hend⟩
  | brokenOff left st hend hnext =>
    obtain ⟨next, hsome, -⟩ := hstep st h
    cases hnext.symm.trans hsome
  | further left st next hend hnext ih =>
    obtain ⟨other, hother, hkept⟩ := hstep st h
    obtain rfl := Option.some.inj (hnext.symm.trans hother)
    obtain ⟨run, hrun⟩ := ih hkept
    rw [play_succ hend hnext, hrun]
    exact ⟨_, rfl⟩

end Stage

namespace Engine

variable {σ : Type} [WordSource σ] {e : Engine σ} {initial : Option (List Gene)} {evaluator : Evaluator}
  {run : Outcome × List Event × Engine σ}

/-- The stages of a run, in order. -/
def stages (e : Engine σ) (initial : Option (List Gene)) (evaluator : Evaluator) : List (Stage σ) :=
  (Stage.first e initial).elim [] (Stage.onward evaluator (Nat.max e.settings.generations 1 - 1))

/-- The populations that a run scores, in order; also those of a run that breaks off later. -/
def generations (e : Engine σ) (initial : Option (List Gene)) (evaluator : Evaluator) :
    List (List Scored) :=
  (e.stages initial evaluator).map (Stage.scored evaluator)

theorem exists_first (h : e.evolve initial evaluator = some run) : ∃ st, Stage.first e initial = some st ∧
    Stage.play evaluator (Nat.max e.settings.generations 1 - 1) st = some run ∧
    e.stages initial evaluator = Stage.onward evaluator (Nat.max e.settings.generations 1 - 1) st := by
  rw [Stage.evolve_eq_play] at h
  obtain ⟨st, hfirst, hplay⟩ := Option.bind_eq_some_iff.mp h
  refine ⟨st, hfirst, hplay, ?_⟩
  rw [stages, hfirst, Option.elim_some]

/-- What the first stage has and one step keeps, every stage of a run has. -/
theorem stages_induction {P : Stage σ → Prop} (hfirst : ∀ st, Stage.first e initial = some st → P st)
    (hstep : ∀ st next, P st → st.advance evaluator = some next → P next) :
    ∀ st ∈ e.stages initial evaluator, P st := by
  intro st hst
  rw [stages] at hst
  cases hopen : Stage.first e initial with
  | none => simp [hopen] at hst
  | some opened =>
    rw [hopen, Option.elim_some] at hst
    exact Stage.onward_induction (hfirst opened hopen) hstep _ st hst

theorem generation_of_stages {i : Nat} {st : Stage σ} (h : (e.stages initial evaluator)[i]? = some st) :
    st.generation = i := by
  rw [stages] at h
  cases hopen : Stage.first e initial with
  | none => simp [hopen] at h
  | some opened =>
    rw [hopen, Option.elim_some] at h
    rw [Stage.onward_generation h, (Stage.first_start hopen).1, Nat.zero_add]

theorem evolve_population (h : e.evolve initial evaluator = some run) :
    (e.generations initial evaluator).getLast? = some run.1.population := by
  obtain ⟨st, -, hplay, hstages⟩ := exists_first h
  rw [generations, hstages]
  exact Stage.play_population hplay

theorem evolve_summaries (h : e.evolve initial evaluator = some run) :
    run.1.history = (e.stages initial evaluator).map (Stage.stats evaluator) := by
  obtain ⟨st, hfirst, hplay, hstages⟩ := exists_first h
  obtain ⟨-, hnone, -⟩ := Stage.first_start hfirst
  rw [Stage.play_history hplay, hnone, hstages, List.nil_append]

/-- The outcome keeps a summary of each population, numbered from 0. -/
theorem evolve_history (h : e.evolve initial evaluator = some run) :
    run.1.history = (e.generations initial evaluator).mapIdx GenerationStats.ofPopulation := by
  obtain ⟨st, hfirst, -, hstages⟩ := exists_first h
  rw [evolve_summaries h, generations, hstages, Stage.onward_stats, (Stage.first_start hfirst).1]
  simp

end Engine
end SignalEvolution

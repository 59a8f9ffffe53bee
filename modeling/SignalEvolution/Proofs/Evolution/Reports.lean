import SignalEvolution.Proofs.Evolution.Ending
import SignalEvolution.Proofs.Evolution.Offers

/-! # What a run reports

Each generation is reported from its start to its summary, together with the size of the hall. The
hall drops entries and may take a formula again, so which formulas it holds depends on their scores;
how many it holds depends only on how many different ones have been scored.
-/
namespace SignalEvolution

/-- The different formulas of a population. -/
def Scored.formulas (scored : List Scored) : Finset String := (scored.map fun s => s.gene.formula).toFinset

theorem Scored.formulas_append (a b : List Scored) : formulas (a ++ b) = formulas a ∪ formulas b := by
  rw [formulas, List.map_append, List.toFinset_append]
  rfl

namespace Hall

variable {h : Hall} {e : Elite} {offered : Finset String}

/-- Of the formulas offered, a hall that has room left holds every one. -/
structure Filled (h : Hall) (offered : Finset String) : Prop where
  orderly : h.Orderly
  known : ∀ s ∈ h.entries.map Elite.canonical, s ∈ offered
  full : h.entries.length = h.capacity ∨ ∀ s ∈ offered, s ∈ h.entries.map Elite.canonical

theorem filled_empty (capacity : Nat) : Filled { capacity } ∅ where
  orderly := orderly_empty capacity
  known := nofun
  full := .inr nofun

theorem Filled.refuse (hf : h.Filled offered)
    (he : h.capacity = 0 ∨ e.canonical ∈ h.entries.map Elite.canonical) :
    h.Filled (insert e.canonical offered) := by
  refine ⟨hf.orderly, fun s hs => Finset.mem_insert_of_mem (hf.known s hs), ?_⟩
  rcases he with hzero | hknown
  · have hfits := hf.orderly.fits
    exact .inl (by omega)
  · refine hf.full.imp_right fun hall s hs => ?_
    rcases Finset.mem_insert.mp hs with rfl | hs
    · exact hknown
    · exact hall s hs

/-- A new entry takes a place that is left, or there is none and one entry has to leave. -/
theorem Filled.accept (hf : h.Filled offered) (hcapacity : 0 < h.capacity)
    (he : e.canonical ∉ h.signatures) : (h.offer e).1.Filled (insert e.canonical offered) := by
  have hentries := (offer_of_not_mem hcapacity he).2
  have hperm := ((ranks (h.entries ++ [e])).perm.map Elite.canonical)
  have hmem : ∀ s, s ∈ (ranked (h.entries ++ [e])).map Elite.canonical ↔
      s = e.canonical ∨ s ∈ h.entries.map Elite.canonical := by
    intro s
    rw [hperm.mem_iff, List.map_append, List.mem_append, or_comm]
    simp
  have hlength : (ranked (h.entries ++ [e])).length = h.entries.length + 1 := by
    rw [(ranks (h.entries ++ [e])).perm.length_eq, List.length_append, List.length_singleton]
  refine ⟨hf.orderly.offer e, ?_, ?_⟩
  · intro s hs
    rw [hentries, List.map_take] at hs
    rw [Finset.mem_insert]
    exact ((hmem s).mp (List.mem_of_mem_take hs)).imp_right (hf.known s)
  · rw [hentries, capacity_offer, List.length_take, hlength]
    by_cases hroom : h.entries.length < h.capacity
    · right
      intro s hs
      rw [List.take_of_length_le (by omega), hmem]
      rcases Finset.mem_insert.mp hs with rfl | hs
      · exact .inl rfl
      · exact .inr (hf.full.resolve_left (by omega) s hs)
    · exact .inl (by omega)

theorem Filled.offer (hf : h.Filled offered) (e : Elite) :
    (h.offer e).1.Filled (insert e.canonical offered) := by
  by_cases hknown : e.canonical ∈ h.signatures
  · rw [offer_of_mem hknown]
    exact hf.refuse (.inr ((hf.orderly.indexed.signatures _).mp hknown))
  · rcases Nat.eq_zero_or_pos h.capacity with hzero | hpos
    · rw [Hall.offer, if_pos (.inl hzero)]
      exact hf.refuse (.inl hzero)
    · exact hf.accept hpos hknown

theorem Filled.offerAll (hf : h.Filled offered) (generation : Nat) (scored : List Scored) :
    (h.offerAll generation scored).1.Filled (offered ∪ Scored.formulas scored) := by
  induction scored generalizing h offered with
  | nil => simpa [Scored.formulas, Hall.offerAll] using hf
  | cons s rest ih =>
    have hrest := ih (hf.offer (Elite.ofScored s generation))
    have hsplit : insert (Elite.ofScored s generation).canonical offered ∪ Scored.formulas rest =
        offered ∪ Scored.formulas (s :: rest) := by
      rw [Scored.formulas, Scored.formulas, List.map_cons, List.toFinset_cons, Finset.insert_union,
        Finset.union_insert]
      rfl
    rw [hsplit] at hrest
    exact hrest

/-- A hall holds as many formulas as it was offered, up to its capacity. -/
theorem Filled.length_entries (hf : h.Filled offered) :
    h.entries.length = min h.capacity offered.card := by
  have hcard : (h.entries.map Elite.canonical).toFinset.card = h.entries.length := by
    rw [List.toFinset_card_of_nodup hf.orderly.indexed.nodup, List.length_map]
  have hsubset : (h.entries.map Elite.canonical).toFinset ⊆ offered := by
    intro s hs
    exact hf.known s (List.mem_toFinset.mp hs)
  have hle := Finset.card_le_card hsubset
  have hfits := hf.orderly.fits
  rcases hf.full with hfull | hall
  · omega
  · have hsuperset : offered ⊆ (h.entries.map Elite.canonical).toFinset := by
      intro s hs
      exact List.mem_toFinset.mpr (hall s hs)
    have hge := Finset.card_le_card hsuperset
    omega

@[simp] theorem capacity_offerAll (h : Hall) (generation : Nat) (scored : List Scored) :
    (h.offerAll generation scored).1.capacity = h.capacity := by
  rw [offerAll_eq, capacity_offerEach]

end Hall

/-- What is reported of a generation: its start, each gene scored if this is done one after another,
and its summary. -/
def EvolutionSettings.reports (s : EvolutionSettings) (generation : Nat) (stats : GenerationStats)
    (hallSize : Nat) : List Event :=
  [.started generation] ++
    (if s.parallelEvaluation then []
      else (List.range s.populationSize).map fun i => .evaluated (i + 1) s.populationSize) ++
    [.completed stats hallSize]

namespace Stage

variable {σ : Type} [WordSource σ] {evaluator : Evaluator} {settings : EvolutionSettings} {st next : Stage σ}
  {run : Outcome × List Event × Engine σ} {past : List Scored} {capacity : Nat}

/-- A stage of a run under these settings, whose hall was offered all that was scored before. -/
structure Reporting (settings : EvolutionSettings) (capacity : Nat) (past : List Scored) (st : Stage σ) :
    Prop where
  sized : st.Sized settings
  capacity : st.engine.hall.capacity = capacity
  filled : st.engine.hall.Filled (Scored.formulas past)

omit [WordSource σ] in
theorem Reporting.entered (h : st.Reporting settings capacity past) (evaluator : Evaluator) :
    (st.entered evaluator).hall.Filled (Scored.formulas (past ++ st.scored evaluator)) := by
  rw [Scored.formulas_append]
  exact h.filled.offerAll st.generation (st.scored evaluator)

theorem Reporting.advance (h : st.Reporting settings capacity past) (hvalid : settings.Valid)
    (hnext : st.advance evaluator = some next) :
    next.Reporting settings capacity (past ++ st.scored evaluator) := by
  have hsized := h.sized.advance hvalid hnext
  have hentered := h.entered evaluator
  obtain ⟨_, _, -, rfl⟩ := advance_eq_some_iff.mp hnext
  exact ⟨hsized, (Hall.capacity_offerAll _ _ _).trans h.capacity, hentered⟩

omit [WordSource σ] in
theorem Reporting.events_eq (h : st.Reporting settings capacity past) (evaluator : Evaluator) :
    st.events evaluator = settings.reports st.generation (st.stats evaluator)
      (min capacity (Scored.formulas (past ++ st.scored evaluator)).card) := by
  have hsize := (h.entered evaluator).length_entries
  have hcapacity : (st.entered evaluator).hall.capacity = capacity :=
    (Hall.capacity_offerAll _ _ _).trans h.capacity
  rw [events, hsize, hcapacity, h.sized.genes, h.sized.settings]
  rfl

theorem play_events {left : Nat} (h : play evaluator left st = some run) :
    run.2.1 = ((onward evaluator left st).map (events evaluator)).flatten := by
  apply play_cases (P := fun left st run =>
    run.2.1 = ((onward evaluator left st).map (events evaluator)).flatten) ?_ ?_ ?_ h
  · intro left st reason hend
    simp [onward_ended hend]
  · intro st hend
    simp [onward]
  · intro left st next run hend hnext ih
    simp [onward_succ hend hnext, ih]

theorem Reporting.onward_events (h : st.Reporting settings capacity past) (hvalid : settings.Valid)
    (evaluator : Evaluator) (left : Nat) :
    (onward evaluator left st).map (events evaluator) =
      ((onward evaluator left st).map (stats evaluator)).mapIdx fun i stats =>
        settings.reports (st.generation + i) stats (min capacity (Scored.formulas (past ++
          (((onward evaluator left st).map (scored evaluator)).take (i + 1)).flatten)).card) := by
  induction left, st using @play_induction σ _ evaluator generalizing past with
  | ended left st reason hend => simp [onward_ended hend, h.events_eq]
  | spent st hend => simp [onward, h.events_eq]
  | brokenOff left st hend hnext => simp [onward_brokenOff hend hnext, h.events_eq]
  | further left st next hend hnext ih =>
    have hnumber : ∀ i, next.generation + i = st.generation + (i + 1) := by
      obtain ⟨_, _, -, rfl⟩ := advance_eq_some_iff.mp hnext
      intro i
      exact Nat.add_right_comm st.generation 1 i
    simp only [onward_succ hend hnext, List.map_cons, List.mapIdx_cons, ih (h.advance hvalid hnext)]
    simp [h.events_eq, hnumber]

end Stage

namespace Engine

variable {σ : Type} [WordSource σ] {e : Engine σ} {evaluator : Evaluator} {capacity : Nat}

theorem first_reporting (hfresh : e.hall = { capacity }) {initial : Option (List Gene)} {st : Stage σ}
    (h : Stage.first e initial = some st) : st.Reporting e.settings capacity [] := by
  obtain ⟨-, -, hsettings, hhall⟩ := Stage.first_start h
  rw [hfresh] at hhall
  refine ⟨⟨Stage.first_length h, hsettings⟩, by rw [hhall], ?_⟩
  rw [hhall]
  exact Hall.filled_empty capacity

/-- A run of a fresh engine reports each generation that it scores, in order and nothing else: its start,
then, one after another, the genes scored, unless this is done side by side, and at last the summary that the
history keeps. The size that it gives of the hall is the number of different formulas scored so far, or
the capacity if this is less, whatever they score. A run comes to its end if the generator has a range to
draw constants from. -/
theorem evolve_reports (hcheck : e.settings.check = .ok ()) (hfresh : e.hall = { capacity })
    (initial : Option (List Gene)) (evaluator : Evaluator) :
    (e.generator.Ready → ∃ run, e.evolve initial evaluator = some run) ∧
    ∀ run, e.evolve initial evaluator = some run →
      let history := run.1.history
      let populations := e.generations initial evaluator
      history = populations.mapIdx GenerationStats.ofPopulation ∧
      run.2.1 = (history.mapIdx fun g stats => e.settings.reports g stats
        (min capacity (Scored.formulas (populations.take (g + 1)).flatten).card)).flatten := by
  have hvalid := EvolutionSettings.check_eq_ok_iff.mp hcheck
  refine ⟨fun hready => exists_evolve hready initial evaluator, ?_⟩
  intro run hrun history populations
  refine ⟨evolve_history hrun, ?_⟩
  obtain ⟨st, hfirst, hplay, hstages⟩ := exists_first hrun
  have hreports := (first_reporting hfresh hfirst).onward_events hvalid evaluator
    (Nat.max e.settings.generations 1 - 1)
  have hhistory : history = (Stage.onward evaluator (Nat.max e.settings.generations 1 - 1) st).map
      (Stage.stats evaluator) := hstages ▸ evolve_summaries hrun
  obtain ⟨hzero, -⟩ := Stage.first_start hfirst
  rw [Stage.play_events hplay, hreports, hhistory]
  simp only [hzero, Nat.zero_add, List.nil_append, populations, generations, hstages]

/-- The default settings with a hall of three places, from a single comparison, with an evaluator that
answers differently from place to place and scores no number in the first generation. -/
theorem evolve_reports_default :
    let e : Engine ListedWords := ⟨.default, .ofSettings .default, { capacity := 3 }, ⟨[], 7⟩⟩
    let gene : Gene := ⟨.compare .greater (.series .close) (.constant 1), "00000000000000ab", 0, {}⟩
    let evaluator : Evaluator := fun generation place _ =>
      { score := if generation = 0 then GenerationStats.notANumber else Float.ofNat place }
    (e.settings.check = .ok () ∧ e.hall = { capacity := 3 }) ∧
    ∃ run, e.evolve (some [gene]) evaluator = some run ∧
      let history := run.1.history
      let populations := e.generations (some [gene]) evaluator
      history = populations.mapIdx GenerationStats.ofPopulation ∧
      run.2.1 = (history.mapIdx fun g stats => e.settings.reports g stats
        (min 3 (Scored.formulas (populations.take (g + 1)).flatten).card)).flatten := by
  intro e gene evaluator
  have hcheck : EvolutionSettings.default.check = .ok () := by rfl
  have hfresh : e.hall = { capacity := 3 } := rfl
  have hready : (Generator.ofSettings .default).Ready := by decide +kernel
  obtain ⟨hruns, hreports⟩ := evolve_reports hcheck hfresh (some [gene]) evaluator
  obtain ⟨run, hrun⟩ := hruns hready
  exact ⟨⟨hcheck, hfresh⟩, run, hrun, hreports run hrun⟩

end Engine
end SignalEvolution

import SignalEvolution.Evolution.Selection
import SignalEvolution.Proofs.Arithmetic.Equality
import SignalEvolution.Proofs.Random.Always

/-! # Selection takes members

Parents and elites come out of the population they are taken from, and where there is a
population there is a parent. The wheel has one because it only turns when its weights sum
to more than zero, so that at least one of them does.
-/
namespace SignalEvolution

open Draw (Always)

namespace Roulette

variable {α β : Type} [Scalar α] {x : β}

theorem stop?_mem {spin : α} {weighted : List (α × β)} (h : stop? spin weighted = some x) :
    ∃ w, (w, x) ∈ weighted ∧ ¬ w ≤ 0 := by
  induction weighted generalizing spin with
  | nil => simp [stop?] at h
  | cons entry rest ih =>
    obtain ⟨w, y⟩ := entry
    have hrest {spin : α} (h : stop? spin rest = some x) : ∃ v, (v, x) ∈ (w, y) :: rest ∧ ¬ v ≤ 0 := by
      obtain ⟨v, hv, hpos⟩ := ih h
      exact ⟨v, List.mem_cons_of_mem _ hv, hpos⟩
    rw [stop?] at h
    split at h
    · exact hrest h
    · next hw =>
      split at h
      · obtain rfl : y = x := by simpa using h
        exact ⟨w, List.mem_cons_self, hw⟩
      · exact hrest h

/-- The wheel passes over entries without weight. -/
theorem spin?_mem {u : α} {weighted : List (α × β)} (h : spin? u weighted = some x) :
    ∃ w, (w, x) ∈ weighted ∧ (¬ w ≤ 0 ∨ 0 < w) := by
  rw [spin?] at h
  split at h
  · rename_i y hstop
    obtain rfl : y = x := by simpa using h
    obtain ⟨w, hw, hpos⟩ := stop?_mem hstop
    exact ⟨w, hw, .inl hpos⟩
  · obtain ⟨entry, hfind, rfl⟩ := Option.map_eq_some_iff.mp h
    have hmem := List.mem_of_find?_eq_some hfind
    exact ⟨entry.1, List.mem_reverse.mp hmem, .inr (of_decide_eq_true (List.find?_some hfind :))⟩

theorem spin?_isSome {u w : α} {weighted : List (α × β)} (h : (w, x) ∈ weighted) (hw : 0 < w) :
    (spin? u weighted).isSome = true := by
  rw [spin?]
  split
  · rfl
  · rw [Option.isSome_map, List.find?_isSome]
    exact ⟨(w, x), List.mem_reverse.mpr h, decide_eq_true hw⟩

theorem weight_cases (score : Float) : Binary.IsZero (weight score) ∨ 0 < weight score := by
  rw [weight, Scalar.max]
  split
  · next hfinite =>
    have hself := Binary.beq_self (Binary.isNaN_of_isFinite hfinite)
    have hnan : ¬ Scalar.isNaN score = true := by
      rw [Scalar.isNaN]
      simpa using hself
    rw [if_neg hnan]
    split
    · exact .inl Binary.isZero_zero
    · next hnonneg =>
      rcases Binary.sign_cases hfinite with hzero | hneg | hpos
      · exact .inl hzero
      · exact absurd hneg hnonneg
      · exact .inr hpos
  · exact .inl Binary.isZero_zero

/-- Weights that sum to more than zero are not all zeros. -/
theorem exists_weight_pos {scores : List Float} (h : ¬ Scalar.sum (scores.map weight) ≤ 0) :
    ∃ score ∈ scores, 0 < weight score := by
  by_contra hnone
  push Not at hnone
  apply h
  apply Binary.IsZero.le_zero
  apply Binary.IsZero.sum
  intro w hw
  obtain ⟨score, hscore, rfl⟩ := List.mem_map.mp hw
  exact (weight_cases score).resolve_right (hnone score hscore)

end Roulette

namespace Scored

variable {σ : Type} [WordSource σ] {population : List Scored}

theorem member_mem (population : List Scored) :
    Always (member population : Draw σ (Option Scored)) fun out => ∀ s ∈ out, s ∈ population := by
  apply Always.ite
  · intro _
    exact Always.nothing
  · intro _
    apply Always.after
    intro n
    apply Always.pure
    intro s hs
    exact List.mem_of_getElem? hs

theorem challenge_mem {best : Scored} (h : best ∈ population) (rounds : Nat) :
    Always (challenge population rounds best : Draw σ Scored) fun s => s ∈ population := by
  induction rounds generalizing best with
  | zero => exact Always.pure h
  | succ rounds ih =>
    apply (member_mem population).bind
    intro out hout
    cases out with
    | none => exact ih h
    | some candidate =>
      dsimp only
      split
      · exact ih (hout candidate rfl)
      · exact ih h

theorem tournament_mem (population : List Scored) (size : Nat) :
    Always (tournament population size : Draw σ (Option Scored)) fun out =>
      ∀ s ∈ out, s ∈ population := by
  apply (member_mem population).bind
  intro out hout
  cases out with
  | none => exact Always.nothing
  | some first =>
    apply (challenge_mem (hout first rfl) _).bind
    intro best hbest
    apply Always.pure
    simpa using hbest

theorem roulette_mem (population : List Scored) :
    Always (roulette population : Draw σ (Option Scored)) fun out => ∀ s ∈ out, s ∈ population := by
  apply Always.ite
  · intro _
    exact Always.nothing
  · intro _
    apply Always.ite
    · intro _
      exact member_mem population
    · intro _
      apply Always.after
      intro u
      apply Always.pure
      intro s hs
      obtain ⟨w, hw, -⟩ := Roulette.spin?_mem hs
      obtain ⟨member, hmember, heq⟩ := List.mem_map.mp hw
      obtain rfl : member = s := congrArg Prod.snd heq
      exact hmember

theorem select_mem (settings : EvolutionSettings) (population : List Scored) :
    Always (select settings population : Draw σ (Option Scored)) fun out =>
      ∀ s ∈ out, s ∈ population := by
  rw [select]
  cases settings.selection with
  | tournament => exact tournament_mem population settings.tournamentSize
  | roulette => exact roulette_mem population

theorem member_isSome (h : population ≠ []) :
    Always (member population : Draw σ (Option Scored)) fun out => out.isSome = true := by
  apply Always.ite
  · intro hempty
    exact absurd (List.isEmpty_iff.mp hempty) h
  · intro _
    apply (Always.index_lt (List.length_pos_iff.mpr h)).bind
    intro n hn
    apply Always.pure
    rw [List.getElem?_eq_getElem hn]
    rfl

theorem tournament_isSome (h : population ≠ []) (size : Nat) :
    Always (tournament population size : Draw σ (Option Scored)) fun out => out.isSome = true := by
  apply (member_isSome h).bind
  intro out hout
  cases out with
  | none => cases hout
  | some first =>
    apply Always.after
    intro best
    exact Always.pure rfl

theorem roulette_isSome (h : population ≠ []) :
    Always (roulette population : Draw σ (Option Scored)) fun out => out.isSome = true := by
  apply Always.ite
  · intro hempty
    exact absurd (List.isEmpty_iff.mp hempty) h
  · intro _
    apply Always.ite
    · intro _
      exact member_isSome h
    · intro hsum
      apply Always.after
      intro u
      apply Always.pure
      have hweights : ((population.map fun s => (Roulette.weight s.score, s)).map (·.1)) =
          (population.map score).map Roulette.weight := by
        rw [List.map_map, List.map_map]
        rfl
      rw [hweights] at hsum
      obtain ⟨_, hscore, hpos⟩ := Roulette.exists_weight_pos hsum
      obtain ⟨s, hs, rfl⟩ := List.mem_map.mp hscore
      exact Roulette.spin?_isSome (List.mem_map.mpr ⟨s, hs, rfl⟩) hpos

theorem select_isSome (settings : EvolutionSettings) (h : population ≠ []) :
    Always (select settings population : Draw σ (Option Scored)) fun out => out.isSome = true := by
  rw [select]
  cases settings.selection with
  | tournament => exact tournament_isSome h settings.tournamentSize
  | roulette => exact roulette_isSome h

/-- A population that is not empty always gives one of its members. -/
theorem select_some (settings : EvolutionSettings) (h : population ≠ []) :
    Always (select settings population : Draw σ (Option Scored)) fun out =>
      ∃ s ∈ population, out = some s := by
  apply ((select_isSome settings h).and (select_mem settings population)).imp
  rintro out ⟨hsome, hmem⟩
  obtain ⟨s, rfl⟩ := Option.isSome_iff_exists.mp hsome
  exact ⟨s, hmem s rfl, rfl⟩

theorem mem_of_mem_elites {count : Nat} {g : Gene} (h : g ∈ elites population count) :
    ∃ s ∈ population, s.gene = g := by
  obtain ⟨s, hs, hgene⟩ := List.mem_map.mp h
  have hranked := List.mem_of_mem_take hs
  exact ⟨s, List.mem_mergeSort.mp hranked, hgene⟩

end Scored
end SignalEvolution

import SignalEvolution.Evolution.Settings

/-! # Settings that pass their check -/
namespace SignalEvolution.EvolutionSettings

def rates (s : EvolutionSettings) : List Float :=
  [s.pointMutationRate, s.subtreeMutationRate, s.crossoverRate, s.transpositionRate,
    s.rootTranspositionRate, s.inversionRate]

/-- What the check asks for, all at once. -/
structure Valid (s : EvolutionSettings) : Prop where
  populationSize : 2 ≤ s.populationSize
  rates : ∀ rate ∈ s.rates, 0 ≤ rate ∧ rate ≤ 1
  eliteCount : s.eliteCount < s.populationSize
  tournamentSize : 0 < s.tournamentSize
  maxDepth : 0 < s.maxDepth
  maxNodes : 0 < s.maxNodes
  constants : s.constantMin < s.constantMax
  convergenceWindow : s.stopOnConvergence = true → 2 ≤ s.convergenceWindow

variable {s : EvolutionSettings} {c : Prop} [Decidable c] {name reason : String}

theorem guard_eq_ok_iff : (if c then refuse reason else pure ()) = .ok () ↔ ¬ c := by
  by_cases h : c
  · simp [h, refuse]
  · simp [h, pure, Except.pure]

/-- A refusal ends the check, so what follows is reached past the condition only. -/
theorem guarded_eq_ok_iff {rest : Unit → Except Problem Unit} :
    (if c then refuse reason >>= rest else rest ()) = .ok () ↔ ¬ c ∧ rest () = .ok () := by
  by_cases h : c
  · simp [h, refuse, bind, Except.bind]
  · simp [h]

theorem bind_eq_ok_iff {d : Except Problem Unit} {rest : Unit → Except Problem Unit} :
    d >>= rest = .ok () ↔ d = .ok () ∧ rest () = .ok () := by
  cases d with
  | error _ => simp [bind, Except.bind]
  | ok _ => simp [bind, Except.bind]

theorem checkRate_eq_ok_iff {rate : Float} :
    checkRate name rate = .ok () ↔ 0 ≤ rate ∧ rate ≤ 1 := by
  by_cases h : 0 ≤ rate ∧ rate ≤ 1
  · simp [checkRate, h]
  · simp [checkRate, h, refuse]

theorem check_eq_ok_iff : s.check = .ok () ↔ s.Valid := by
  simp only [check, guarded_eq_ok_iff, bind_eq_ok_iff, checkRate_eq_ok_iff, guard_eq_ok_iff]
  constructor
  · rintro ⟨hsize, hpoint, hsubtree, hcross, htrans, hroot, hinversion, helite, htournament, hroom,
      hconstants, hwindow⟩
    constructor
    · omega
    · simp [rates, hpoint, hsubtree, hcross, htrans, hroot, hinversion]
    · omega
    · omega
    · omega
    · omega
    · exact Decidable.not_not.mp hconstants
    · intro hstop
      apply Nat.le_of_not_lt
      intro hshort
      exact hwindow ⟨hstop, hshort⟩
  · rintro ⟨hsize, hrates, helite, htournament, hdepth, hnodes, hconstants, hwindow⟩
    simp only [rates, List.forall_mem_cons] at hrates
    obtain ⟨hpoint, hsubtree, hcross, htrans, hroot, hinversion, -⟩ := hrates
    refine ⟨by omega, hpoint, hsubtree, hcross, htrans, hroot, hinversion, by omega, by omega,
      by omega, not_not_intro hconstants, ?_⟩
    rintro ⟨hstop, hshort⟩
    have hlong := hwindow hstop
    omega

end SignalEvolution.EvolutionSettings

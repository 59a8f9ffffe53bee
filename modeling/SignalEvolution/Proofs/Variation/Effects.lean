import SignalEvolution.Proofs.Evolution.Settings
import SignalEvolution.Proofs.Tree.Equality
import SignalEvolution.Proofs.Variation.Bounds

/-! # What recorded variations did to the tree

Variations are tried one after the other, and those that give a tree are recorded. Most of
them check that they changed something. A subtree mutation does not: it puts a random tree
in place of a subtree, and the two may be equal.
-/
namespace SignalEvolution

open Draw (Always)
open PartialDraw (Unless)

variable {σ : Type} [WordSource σ]

namespace Tree

variable {k : Kind} {cs : List Tree} {t new old : Tree} {p : Path}

/-- A tree is changed where another subtree is put. -/
theorem same_of_graft_same (hold : t.get? p = some old) (h : (t.graft p new == t) = true) :
    (new == old) = true := by
  induction p generalizing t with
  | nil =>
    obtain rfl : t = old := by simpa [get?] using hold
    rwa [graft_nil] at h
  | cons i p ih =>
    cases t with
    | node k cs =>
      obtain ⟨c, hc, hbelow⟩ := Option.bind_eq_some_iff.mp hold
      rw [graft_cons hc hbelow] at h
      exact ih hbelow (same_of_set hc (same_node_iff.mp h).2)

/-- And nowhere else, as far as it equals itself. -/
theorem graft_same (hself : (t == t) = true) (hold : t.get? p = some old)
    (h : (new == old) = true) : (t.graft p new == t) = true := by
  induction p generalizing t with
  | nil =>
    obtain rfl : t = old := by simpa [get?] using hold
    rwa [graft_nil]
  | cons i p ih =>
    cases t with
    | node k cs =>
      obtain ⟨c, hc, hbelow⟩ := Option.bind_eq_some_iff.mp hold
      obtain ⟨hk, hcs⟩ := same_node_iff.mp hself
      rw [graft_cons hc hbelow]
      have hchild := ih (same_self_of_mem hcs (List.mem_of_getElem? hc)) hbelow
      exact same_node_iff.mpr ⟨hk, allSame_set hcs hc hchild⟩

theorem rootTransposition_changes (s : EvolutionSettings) (t : Tree) :
    Always (t.rootTransposition s : Draw σ (Option Tree)) fun out => ∀ u ∈ out, (u == t) = false := by
  apply (rootTransposition_result s t).imp
  intro out hout u hu
  obtain ⟨path, -, lifted, -, hu, -⟩ := hout u hu
  rw [← Bool.not_eq_true]
  intro hsame
  have hcount := nodeCount_of_same hsame
  rcases hu with rfl | rfl
  · simp only [both, nodeCount_node, totalCount_cons] at hcount
    omega
  · simp only [either, nodeCount_node, totalCount_cons] at hcount
    omega

/-- A tree that the generator draws stands in place of another. If the two are equal, nothing has
changed. -/
def Regrown (σ : Type) [WordSource σ] (s : EvolutionSettings) (g : Generator) (t u : Tree) : Prop :=
  ∃ path ∈ t.innerPaths, ∃ old new, t.get? path = some old ∧
    (g.tree (budgetAt s path) : PartialDraw σ Tree).Gives new ∧ u = t.graft path new ∧
    ((u == t) = true → (new == old) = true) ∧
    ((t == t) = true → (new == old) = true → (u == t) = true)

theorem subtreeMutation_regrown (s : EvolutionSettings) (g : Generator) (t : Tree) :
    Unless (t.subtreeMutation s g : PartialDraw σ (Option Tree)) (¬ g.Ready) fun out => ∀ u ∈ out,
      Regrown σ s g t u := by
  apply (subtreeMutation_result (fun budget => (Generator.tree_depth budget).gives) s t).imp
  intro out hout u hu
  obtain ⟨path, hpath, new, hnew, rfl, -⟩ := hout u hu
  obtain ⟨old, hold⟩ := exists_get? (List.mem_of_mem_tail hpath)
  exact ⟨path, hpath, old, new, hold, hnew, rfl, same_of_graft_same hold,
    fun hself => graft_same hself hold⟩

end Tree

namespace Variator

/-- A variation with the rate at which it is tried. -/
structure Trial (σ : Type) where
  kind : Variation
  rate : Float
  vary : Tree → PartialDraw σ (Option Tree)

/-- A recorded variation with the trees before and after it. -/
structure Step where
  kind : Variation
  before : Tree
  after : Tree

/-- The tree that a trial gives, if it takes place and gives one. -/
def Trial.outcome (trial : Trial σ) (t : Tree) : PartialDraw σ (Option Tree) := do
  let roll ← Draw.unit.sure
  if roll < trial.rate then trial.vary t else return none

def trials (v : Variator) : List (Trial σ) :=
  let s := v.settings
  [⟨.pointMutation, s.pointMutationRate, fun t => (visibleMutation s t).sure⟩,
    ⟨.subtreeMutation, s.subtreeMutationRate, (·.subtreeMutation s v.generator)⟩,
    ⟨.transposition, s.transpositionRate, fun t => (t.transposition s).sure⟩,
    ⟨.rootTransposition, s.rootTranspositionRate, fun t => (t.rootTransposition s).sure⟩,
    ⟨.inversion, s.inversionRate, fun t => t.inversion.sure⟩]

/-- The recorded variations of a tree on which one trial after the other is made. -/
def trace : List (Trial σ) → Tree → PartialDraw σ (List Step)
  | [], _ => return []
  | trial :: rest, t => do
    match ← trial.outcome t with
    | some u =>
      let steps ← trace rest u
      return ⟨trial.kind, t, u⟩ :: steps
    | none => trace rest t

/-- The tree that recorded variations lead to. -/
def result (t : Tree) (steps : List Step) : Tree := steps.foldl (fun _ step => step.after) t

/-- Every recorded variation starts from the tree that the one before it left. -/
def Linked (t : Tree) : List Step → Prop
  | [] => True
  | step :: rest => step.before = t ∧ Linked step.after rest

variable {trials : List (Trial σ)} {P : Step → Prop}

theorem attempt_eq (trial : Trial σ) (state : Tree × List Variation) :
    attempt trial.rate trial.kind trial.vary state = do
      match ← trial.outcome state.1 with
      | some u => return (u, state.2 ++ [trial.kind])
      | none => return state := by
  simp only [attempt, Trial.outcome, bind_assoc]
  congr 1
  funext roll
  split
  · rfl
  · rw [pure_bind]

/-- The trials of a tree record what its trace shows and end where it leads. -/
theorem foldlM_attempt (trials : List (Trial σ)) (t : Tree) (kinds : List Variation) :
    trials.foldlM (fun state trial => attempt trial.rate trial.kind trial.vary state) (t, kinds) = do
      let steps ← trace trials t
      return (result t steps, kinds ++ steps.map Step.kind) := by
  induction trials generalizing t kinds with
  | nil => simp [trace, result]
  | cons trial rest ih =>
    rw [List.foldlM_cons, attempt_eq, trace, bind_assoc, bind_assoc]
    congr 1
    funext out
    cases out with
    | none => exact ih t kinds
    | some u =>
      simp only [pure_bind, bind_assoc, ih u (kinds ++ [trial.kind]), result, List.foldl_cons,
        List.map_cons, List.append_assoc, List.singleton_append]

theorem mutate_eq (v : Variator) (t : Tree) :
    (v.mutate t : PartialDraw σ (Tree × List Variation)) = do
      let steps ← trace v.trials t
      return (result t steps, steps.map Step.kind) := by
  have hfold := foldlM_attempt (v.trials : List (Trial σ)) t []
  simp only [List.nil_append] at hfold
  rw [← hfold]
  simp only [mutate, Variator.trials, List.foldlM_cons, List.foldlM_nil, bind_pure]

/-- What holds of all that each trial gives holds of all steps of the trace. -/
theorem trace_unless {off : Prop}
    (h : ∀ trial ∈ trials, ∀ t, (trial.vary t).Unless off fun out => ∀ u ∈ out, P ⟨trial.kind, t, u⟩)
    (t : Tree) :
    (trace trials t).Unless off fun steps => Linked t steps ∧ ∀ step ∈ steps, P step := by
  induction trials generalizing t with
  | nil => exact Unless.pure ⟨trivial, by simp⟩
  | cons trial rest ih =>
    have hrest := ih fun trial htrial => h trial (List.mem_cons_of_mem _ htrial)
    have hout : (trial.outcome t).Unless off fun out => ∀ u ∈ out, P ⟨trial.kind, t, u⟩ := by
      apply Unless.after
      intro roll
      apply Unless.ite
      · intro _
        exact h trial List.mem_cons_self t
      · intro _
        exact Unless.nothing
    apply hout.bind
    intro out hstep
    cases out with
    | none => exact hrest t
    | some u =>
      apply (hrest u).bind
      rintro steps ⟨hlinked, hsteps⟩
      apply Unless.pure
      exact ⟨⟨rfl, hlinked⟩, List.forall_mem_cons.mpr ⟨hstep u rfl, hsteps⟩⟩

theorem visibleMutation_changes (s : EvolutionSettings) (t : Tree) :
    Always (visibleMutation s t : Draw σ (Option Tree)) fun out => ∀ u ∈ out, (u == t) = false := by
  apply Always.after
  intro out
  apply Always.pure
  intro u hu
  split at hu
  · simp at hu
  · next hnew =>
    obtain rfl : out = u := by simpa using hu
    simpa using hnew

/-- A recorded variation changed the tree; a subtree mutation may have put an equal subtree. -/
def Step.Effect (σ : Type) [WordSource σ] (v : Variator) (step : Step) : Prop :=
  (step.kind ≠ .subtreeMutation → (step.after == step.before) = false) ∧
  (step.kind = .subtreeMutation →
    Tree.Regrown σ v.settings v.generator step.before step.after)

theorem Step.Effect.changed {v : Variator} {step : Step} (hkind : step.kind ≠ .subtreeMutation)
    (h : (step.after == step.before) = false) : step.Effect σ v :=
  ⟨fun _ => h, fun heq => absurd heq hkind⟩

theorem trials_effect (v : Variator) :
    ∀ trial ∈ (v.trials : List (Trial σ)), ∀ t,
      (trial.vary t).Unless (¬ v.generator.Ready) fun out => ∀ u ∈ out, Step.Effect σ v ⟨trial.kind, t, u⟩ := by
  simp only [trials, List.forall_mem_cons]
  refine ⟨?pointMutation, ?subtreeMutation, ?transposition, ?rootTransposition, ?inversion, by simp⟩
  case pointMutation =>
    intro t
    apply Unless.sure
    apply (visibleMutation_changes v.settings t).imp
    exact fun out hout u hu => Step.Effect.changed (by simp) (hout u hu)
  case subtreeMutation =>
    intro t
    apply (Tree.subtreeMutation_regrown v.settings v.generator t).imp
    exact fun out hout u hu => ⟨fun hkind => absurd rfl hkind, fun _ => hout u hu⟩
  case transposition =>
    intro t
    apply Unless.sure
    apply (Tree.transposition_result v.settings t).imp
    intro out hout u hu
    obtain ⟨_, -, _, -, _, -, -, hchanged, -⟩ := hout u hu
    exact Step.Effect.changed (by simp) hchanged
  case rootTransposition =>
    intro t
    apply Unless.sure
    apply (Tree.rootTransposition_changes v.settings t).imp
    exact fun out hout u hu => Step.Effect.changed (by simp) (hout u hu)
  case inversion =>
    intro t
    apply Unless.sure
    apply (Tree.inversion_result t).imp
    intro out hout u hu
    obtain ⟨_, -, _, -, -, -, hchanged⟩ := hout u hu
    exact Step.Effect.changed (by simp) hchanged

/-- The variations of a tree lead from it, one to the next, to the result, and without any the tree
stays. Each one recorded changed the tree before it, except that a subtree mutation is recorded
also when the random subtree equals the one it replaced. This takes place unless the generator has
no range to draw a constant from. -/
theorem recorded_effects (v : Variator) (t : Tree) :
    ((v.mutate t : PartialDraw σ (Tree × List Variation)) = do
      let steps ← trace v.trials t
      return (result t steps, steps.map Step.kind)) ∧
    (Unless (trace v.trials t : PartialDraw σ (List Step)) (¬ v.generator.Ready) fun steps =>
      Linked t steps ∧ ∀ step ∈ steps,
        (step.kind ≠ .subtreeMutation → (step.after == step.before) = false) ∧
        (step.kind = .subtreeMutation →
          Tree.Regrown σ v.settings v.generator step.before step.after)) ∧
    Unless (v.mutate t : PartialDraw σ (Tree × List Variation)) (¬ v.generator.Ready)
      fun out => out.2 = [] → out.1 = t := by
  have htrace := trace_unless (trials_effect (σ := σ) v) t
  refine ⟨mutate_eq v t, htrace, ?_⟩
  rw [mutate_eq]
  apply htrace.bind
  intro steps _
  apply Unless.pure
  intro hnone
  obtain rfl : steps = [] := List.map_eq_nil_iff.mp hnone
  rfl

/-- A subtree mutation of `close > 0` that draws the same constant again and is recorded. -/
theorem recorded_effects_not_always :
    let s : EvolutionSettings :=
      { EvolutionSettings.default with
        maxDepth := 2, pointMutationRate := 0, subtreeMutationRate := 1, transpositionRate := 0,
        rootTranspositionRate := 0, inversionRate := 0 }
    let v : Variator := ⟨s, .ofSettings s⟩
    let t := Tree.compare .greater (.series .close) (.constant 0)
    let words : ListedWords := ⟨[0, 0, 0, 0, 0x60000000], 0⟩
    s.check = .ok () ∧ (t == t) = true ∧
    (∃ u rest, (v.mutate t).run words = some ((u, [.subtreeMutation]), rest) ∧ (u == t) = true) ∧
    ∃ steps rest, (trace v.trials t).run words = some (steps, rest) ∧
      ¬ ∀ step ∈ steps, (step.after == step.before) = false := by
  intro s v t words
  have hvalid : s.Valid := by
    constructor
    case rates => decide +kernel
    case convergenceWindow => exact fun hstop => Bool.noConfusion hstop
    all_goals decide +kernel
  have hrun : ((v.mutate t).run words).any fun r => r.1.2 = [.subtreeMutation] ∧ (r.1.1 == t) = true := by
    decide +kernel
  have hsteps : ((trace v.trials t).run words).any fun r =>
      ∃ step ∈ r.1, (step.after == step.before) = true := by
    decide +kernel
  refine ⟨EvolutionSettings.check_eq_ok_iff.mpr hvalid, by decide +kernel, ?_, ?_⟩
  · obtain ⟨⟨⟨u, kinds⟩, rest⟩, hmutate, hr⟩ := (Option.any_eq_true _ _).mp hrun
    obtain ⟨rfl, hsame⟩ := of_decide_eq_true hr
    exact ⟨u, rest, hmutate, hsame⟩
  · obtain ⟨⟨steps, rest⟩, htrace, hr⟩ := (Option.any_eq_true _ _).mp hsteps
    obtain ⟨step, hstep, hsame⟩ := of_decide_eq_true hr
    refine ⟨steps, rest, htrace, ?_⟩
    intro hchanged
    rw [hchanged step hstep] at hsame
    cases hsame

end Variator
end SignalEvolution

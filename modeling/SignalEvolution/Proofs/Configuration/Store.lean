import SignalEvolution.Configuration.Store
import SignalEvolution.Proofs.Evolution.Settings
import SignalEvolution.Proofs.Problem

/-! # Stored configurations

A store is changed by its operations only: a change of what it holds, a file, or all layers.
Whatever files and layers are read as and whatever the changes do, the store holds a
configuration that passes its check, and an operation that fails leaves it as it was.
-/
namespace SignalEvolution

namespace Configuration

/-- What the check asks of all sections. -/
structure Valid (c : Configuration) : Prop where
  evolution : c.evolution.Valid
  capital : ¬ c.backtesting.initialCapital ≤ 0
  commission : ¬ c.backtesting.commission < 0
  slippage : ¬ c.backtesting.slippage < 0
  periods : ¬ c.backtesting.periodsPerYear ≤ 0
  source : Text.trim c.exchange.source.toList ≠ []

variable {c : Configuration}

theorem check_eq_ok_iff : c.check = .ok () ↔ c.Valid := by
  have hbacktesting : c.backtesting.check = .ok () ↔ ¬ c.backtesting.initialCapital ≤ 0 ∧
      ¬ (c.backtesting.commission < 0 ∨ c.backtesting.slippage < 0) ∧
      ¬ c.backtesting.periodsPerYear ≤ 0 := by
    unfold BacktestSettings.check
    split
    · next hcapital => simp [hcapital]
    · split
      · next hcosts => simp [hcosts]
      · split <;> simp_all
  have hexchange : c.exchange.check = .ok () ↔ Text.trim c.exchange.source.toList ≠ [] := by
    unfold ExchangeSettings.check
    split <;> simp_all
  simp only [check, EvolutionSettings.bind_eq_ok_iff, EvolutionSettings.check_eq_ok_iff, hbacktesting,
    hexchange, not_or]
  constructor
  · rintro ⟨hevolution, ⟨hcapital, ⟨hcommission, hslippage⟩, hperiods⟩, hsource⟩
    exact ⟨hevolution, hcapital, hcommission, hslippage, hperiods, hsource⟩
  · rintro ⟨hevolution, hcapital, hcommission, hslippage, hperiods, hsource⟩
    exact ⟨hevolution, ⟨hcapital, ⟨hcommission, hslippage⟩, hperiods⟩, hsource⟩

theorem check_default : ({} : Configuration).check = .ok () := by
  rfl

end Configuration

namespace ConfigurationStore

/-- How files and layers are read. -/
structure Sources where
  table : String → Except Problem Configuration
  layers : Option Layers.File → List (String × String) → Except Problem Configuration

def Sources.standard : Sources := ⟨Configuration.ofTable, Configuration.ofLayers⟩

/-- What may be done with a store, with what is found at the time. -/
inductive Operation where
  | update (change : Configuration → Configuration)
  | load (content : FileContent)
  | loadLayers (file : Option (Option Layers.File)) (environment : List (String × String))

namespace Operation

def candidate (sources : Sources) (current : Configuration) : Operation → Except Problem Configuration
  | update change => .ok (change current)
  | load (.error reason) => .error (unreadable reason)
  | load (.ok s) => sources.table s
  | loadLayers none environment => sources.layers none environment
  | loadLayers (some none) _ => .error .layers
  | loadLayers (some (some f)) environment => sources.layers (some f) environment

def apply (sources : Sources) (op : Operation) (store : ConfigurationStore) :
    Except Problem Unit × ConfigurationStore :=
  store.replace (op.candidate sources store.current)

/-- An operation on a store as it is. -/
def perform (store : ConfigurationStore) : Operation → Except Problem Unit × ConfigurationStore
  | update change => store.update change
  | load content => store.load content
  | loadLayers file environment => store.loadLayers file environment

theorem apply_standard (op : Operation) (store : ConfigurationStore) :
    op.apply .standard store = op.perform store := by
  cases op with
  | update change => rfl
  | load content => cases content <;> rfl
  | loadLayers file environment =>
    cases file with
    | none => rfl
    | some found => cases found <;> rfl

end Operation

def run (sources : Sources) (ops : List Operation) (store : ConfigurationStore) : ConfigurationStore :=
  ops.foldl (fun store op => (op.apply sources store).2) store

variable {sources : Sources} {ops : List Operation} {op : Operation} {store : ConfigurationStore}
variable {candidate : Except Problem Configuration} {p : Problem}

theorem outcome_replace (store : ConfigurationStore) (candidate : Except Problem Configuration) :
    (store.replace candidate).1 = candidate >>= Configuration.check := by
  unfold replace
  cases candidate with
  | error p => rfl
  | ok c =>
    change _ = c.check
    cases hcheck : c.check <;> simp [hcheck]

/-- A candidate that cannot be had and one that fails its check are both dropped. -/
theorem replace_of_error (h : (store.replace candidate).1 = .error p) : (store.replace candidate).2 = store := by
  unfold replace at h ⊢
  split
  · rfl
  · split
    · rfl
    · next hcandidate _ hcheck => simp [hcheck] at h

theorem replace_of_ok (h : (store.replace candidate).1 = .ok ()) :
    candidate = .ok (store.replace candidate).2.current ∧
      (store.replace candidate).2.current.check = .ok () := by
  unfold replace at h ⊢
  split
  · next hcandidate => simp at h
  · split
    · next hcheck => simp [hcheck] at h
    · next hcheck => exact ⟨rfl, hcheck⟩

theorem check_replace (h : store.current.check = .ok ()) (candidate : Except Problem Configuration) :
    (store.replace candidate).2.current.check = .ok () := by
  cases hresult : (store.replace candidate).1 with
  | error p => rwa [replace_of_error hresult]
  | ok u => exact (replace_of_ok hresult).2

theorem run_append (sources : Sources) (ops rest : List Operation) (store : ConfigurationStore) :
    run sources (ops ++ rest) store = run sources rest (run sources ops store) :=
  List.foldl_append

theorem check_run (h : store.current.check = .ok ()) (sources : Sources) (ops : List Operation) :
    (run sources ops store).current.check = .ok () := by
  induction ops generalizing store with
  | nil => exact h
  | cons op ops ih => exact ih (check_replace h _)

/-- An operation that fails may as well be left out. -/
theorem run_of_error (h : (op.apply sources (run sources ops store)).1 = .error p) (rest : List Operation) :
    run sources (ops ++ op :: rest) store = run sources (ops ++ rest) store := by
  have hsame : (op.apply sources (run sources ops store)).2 = run sources ops store := replace_of_error h
  rw [run_append, run_append]
  exact congrArg (run sources rest) hsame

/-- Whatever is done with a new store, and however files and layers are read, what it holds passes
the check. An operation that fails leaves the store as it was, so it may be left out of any
sequence, and one that succeeds stores what it was meant to store. -/
theorem stored_configuration_passes (sources : Sources) (ops : List Operation) :
    let store := run sources ops {}
    store.current.check = .ok () ∧ store.current.Valid ∧
    (∀ op : Operation, (op.apply sources store).1 =
      op.candidate sources store.current >>= Configuration.check) ∧
    (∀ (op : Operation) (p : Problem), (op.apply sources store).1 = .error p →
      (op.apply sources store).2 = store ∧
        ∀ rest, run sources (ops ++ op :: rest) {} = run sources (ops ++ rest) {}) ∧
    (∀ op : Operation, (op.apply sources store).1 = .ok () →
      op.candidate sources store.current = .ok (op.apply sources store).2.current) ∧
    ∀ (op : Operation) (s : ConfigurationStore), op.apply .standard s = op.perform s := by
  intro store
  have hcheck : store.current.check = .ok () := check_run Configuration.check_default sources ops
  refine ⟨hcheck, Configuration.check_eq_ok_iff.mp hcheck, fun op => outcome_replace store _,
    fun op p h => ?_, fun op h => ?_, Operation.apply_standard⟩
  · exact ⟨replace_of_error h, run_of_error h⟩
  · exact (replace_of_ok h).1

/-- A change is kept, a file that is not there and one whose settings fail the check change nothing,
and neither does a change that fails it. -/
theorem stored_configuration_passes_changed :
    let ops : List Operation := [.update fun c => { c with evolution.populationSize := 80 },
      .load (.error "no such file"), .load (.ok "[evolution]\npopulation_size = 1\n")]
    let refused : Operation := .update fun c => { c with evolution.crossoverRate := 2 }
    let kept : Operation := .load (.ok "[evolution]\nelitism_count = 5\n")
    (run .standard ops {}).current.evolution.populationSize = 80 ∧
      (run .standard ops {}).current.check = .ok () ∧
      (∃ p, (refused.apply .standard (run .standard ops {})).1 = .error p ∧
        (refused.apply .standard (run .standard ops {})).2 = run .standard ops {}) ∧
      (kept.apply .standard (run .standard ops {})).1 = .ok () ∧
      kept.candidate .standard (run .standard ops {}).current =
        .ok (kept.apply .standard (run .standard ops {})).2.current := by
  intro ops refused kept
  obtain ⟨hcheck, -, -, hrefused, hkept, -⟩ := stored_configuration_passes .standard ops
  have hsize : (run .standard ops {}).current.evolution.populationSize = 80 := by decide +kernel
  have hfails : (refused.apply .standard (run .standard ops {})).1.isOk = false := by decide +kernel
  have hsucceeds : (kept.apply .standard (run .standard ops {})).1.isOk = true := by decide +kernel
  obtain ⟨p, hp⟩ := exists_of_not_isOk hfails
  obtain ⟨⟨⟩, hok⟩ := exists_of_isOk hsucceeds
  exact ⟨hsize, hcheck, ⟨p, hp, (hrefused refused p hp).1⟩, hok, hkept kept hok⟩

end ConfigurationStore
end SignalEvolution

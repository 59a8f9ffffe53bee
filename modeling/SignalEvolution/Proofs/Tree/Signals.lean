import SignalEvolution.Proofs.Market.Window
import SignalEvolution.Tree.Evaluation

/-! # Signals bar by bar

A walk over bars asks a tree at each bar what it would say of the bars up to there, seen all
at once. What comes later has no part in it.
-/
namespace SignalEvolution.Tree

variable {c : Context} {seen : List (Bar Float)}

theorem length_signalsFrom (t : Tree) (c : Context) (bars : List (Bar Float)) :
    (t.signalsFrom c bars).length = bars.length := by
  induction bars generalizing c with
  | nil => rfl
  | cons bar bars ih => simp [signalsFrom, ih]

theorem length_signals (t : Tree) (capacity : Nat) (bars : List (Bar Float)) :
    (t.signals capacity bars).length = bars.length := by
  cases bars with
  | nil => rfl
  | cons bar bars => simp [signals, length_signalsFrom]

theorem signalsFrom_append (t : Tree) (c : Context) (bars later : List (Bar Float)) :
    t.signalsFrom c (bars ++ later) =
      t.signalsFrom c bars ++ t.signalsFrom (c.run (bars.map .push)) later := by
  induction bars generalizing c with
  | nil => rfl
  | cons bar bars ih =>
    rw [List.cons_append, signalsFrom, ih]
    rfl

/-- Later bars add signals and change none. -/
theorem signals_append (t : Tree) (capacity : Nat) (bars later : List (Bar Float)) :
    (t.signals capacity (bars ++ later)).take bars.length = t.signals capacity bars := by
  cases bars with
  | nil => rfl
  | cons bar bars =>
    rw [List.cons_append, signals, signalsFrom_append, ← List.cons_append, List.take_left']
    · rfl
    · simp [length_signalsFrom]

/-- The signal of a context without supplied readings is that of its bars seen all at once. -/
theorem signal_of_shows (h : c.Shows seen) (hfeed : c.feed = Table.empty) (t : Tree) :
    (Context.ofBars? seen c.capacity).map (fun c => (t.value c).isTrue) =
      some (t.value c).isTrue := by
  obtain ⟨bars, current, isLast, capacity, feed⟩ := c
  subst hfeed
  rw [h.ofBars?_eq]
  rfl

theorem getElem?_signalsFrom (h : c.Shows seen) (t : Tree) (bars : List (Bar Float)) {i : Nat}
    (hi : i < bars.length) :
    (t.signalsFrom c bars)[i]? =
      (Context.ofBars? (seen ++ bars.take (i + 1)) c.capacity).map fun c => (t.value c).isTrue := by
  induction bars generalizing c seen i with
  | nil => simp at hi
  | cons bar bars ih =>
    have hnext := h.push bar
    rw [signalsFrom]
    cases i with
    | zero =>
      have hsignal := signal_of_shows hnext rfl t
      exact hsignal.symm
    | succ i =>
      have hrest := ih hnext (Nat.lt_of_succ_lt_succ hi)
      rw [List.getElem?_cons_succ, hrest, List.take_succ_cons, List.append_assoc]
      rfl

theorem getElem?_signals (t : Tree) (capacity : Nat) (bars : List (Bar Float)) {i : Nat}
    (hi : i < bars.length) :
    (t.signals capacity bars)[i]? =
      (Context.ofBars? (bars.take (i + 1)) capacity).map fun c => (t.value c).isTrue := by
  cases bars with
  | nil => simp at hi
  | cons bar bars =>
    have hstart := Context.shows_start bar capacity
    rw [signals]
    cases i with
    | zero =>
      have hsignal := signal_of_shows hstart rfl t
      exact hsignal.symm
    | succ i =>
      have hrest := getElem?_signalsFrom hstart t bars (Nat.lt_of_succ_lt_succ hi)
      rw [List.getElem?_cons_succ, hrest]
      rfl

/-- One signal for each bar, the one of the bars up to there seen all at once, whatever follows.
And a context that moves on while a feed supplies readings has the last bar and the history of
all its bars seen at once, and the readings supplied since its last bar. -/
theorem window_agrees_with_batch :
    (∀ (t : Tree) (capacity : Nat) (bars : List (Bar Float)),
      (t.signals capacity bars).length = bars.length ∧
      (∀ i : Fin bars.length, (t.signals capacity bars)[i.val]? =
        (Context.ofBars? (bars.take (i + 1)) capacity).map fun c => (t.value c).isTrue) ∧
      ∀ later, (t.signals capacity (bars ++ later)).take bars.length = t.signals capacity bars) ∧
    ∀ (first : Bar Float) (capacity : Nat) (actions : List Context.Action),
      let c := (Context.start first capacity).run actions
      (∃ batch, Context.ofBars? (Context.seenIn first actions) capacity = some batch ∧
        c.current = batch.current ∧ c.history = batch.history) ∧
      c.history.length ≤ capacity ∧
      ∀ key, c.supplied? key = Entries.find? key (Context.Action.recent actions.reverse) := by
  constructor
  · intro t capacity bars
    refine ⟨length_signals t capacity bars, ?_, signals_append t capacity bars⟩
    intro i
    exact getElem?_signals t capacity bars i.isLt
  · intro first capacity actions c
    have hshows := Context.shows_run_start first capacity actions
    have hcapacity : c.capacity = capacity := Context.capacity_run _ actions
    refine ⟨?_, ?_, Context.supplied?_run_start first capacity actions⟩
    · have hbatch := hshows.ofBars?_eq
      rw [hcapacity] at hbatch
      exact ⟨_, hbatch, rfl, rfl⟩
    · have hlength := hshows.length_history
      rwa [hcapacity] at hlength

end SignalEvolution.Tree

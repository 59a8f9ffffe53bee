import SignalEvolution.Backtest.Run
import SignalEvolution.Proofs.Tree.Signals

/-! # Backtests of the first bars

An account takes its bars one by one and only adds to its equity and its trades, so a backtest
over more bars begins like one that ends early. Selling out at the last bar is all that the
end of the bars brings about.
-/
namespace SignalEvolution

namespace Account

variable {α : Type} {a b c : Account α} {bar m n : Nat}

/-- The account `b` is what `a` has become over a number of bars from `bar` on: its equity is longer
by one value for each of them, and what trades it has more were closed there by the signal. -/
structure Grows (a b : Account α) (bar count : Nat) : Prop where
  equity : ∃ values, values.length = count ∧ b.equity = a.equity ++ values
  trades : ∃ trades, (∀ t ∈ trades, (bar ≤ t.exitBar ∧ t.exitBar < bar + count) ∧
    t.exitReason = .signal) ∧ b.trades = a.trades ++ trades

theorem Grows.refl (a : Account α) (bar : Nat) : a.Grows a bar 0 :=
  ⟨⟨[], rfl, by simp⟩, ⟨[], by simp, by simp⟩⟩

theorem Grows.trans (hab : a.Grows b bar m) (hbc : b.Grows c (bar + m) n) : a.Grows c bar (m + n) := by
  obtain ⟨⟨early, hearly, hb⟩, ⟨first, hfirst, hb'⟩⟩ := hab
  obtain ⟨⟨late, hlate, hc⟩, ⟨second, hsecond, hc'⟩⟩ := hbc
  constructor
  · refine ⟨early ++ late, ?_, by rw [hc, hb, List.append_assoc]⟩
    rw [List.length_append, hearly, hlate]
  · refine ⟨first ++ second, ?_, by rw [hc', hb', List.append_assoc]⟩
    intro t ht
    rcases List.mem_append.mp ht with ht | ht
    · obtain ⟨hbar, hreason⟩ := hfirst t ht
      exact ⟨by omega, hreason⟩
    · obtain ⟨hbar, hreason⟩ := hsecond t ht
      exact ⟨by omega, hreason⟩

variable [Scalar α]

@[simp] theorem marks_buy (a : Account α) (bar : Nat) (price : α) : (a.buy bar price).marks = a.marks := by
  unfold buy
  dsimp only
  split <;> rfl

@[simp] theorem trades_buy (a : Account α) (bar : Nat) (price : α) : (a.buy bar price).trades = a.trades := by
  unfold buy
  dsimp only
  split <;> rfl

@[simp] theorem marks_sell (a : Account α) (bar : Nat) (price : α) (reason : ExitReason) :
    (a.sell bar price reason).marks = a.marks := by
  unfold sell
  split <;> rfl

theorem trades_sell (a : Account α) (bar : Nat) (price : α) (reason : ExitReason) :
    ∃ closed : List (Trade α), closed.length ≤ 1 ∧
      (∀ t ∈ closed, t.exitBar = bar ∧ t.exitReason = reason) ∧
      (a.sell bar price reason).trades = a.trades ++ closed := by
  unfold sell
  split
  · exact ⟨[], by simp, by simp, by simp⟩
  · exact ⟨[_], Nat.le_refl 1, by simp, List.reverse_cons⟩

theorem grows_step (a : Account α) (bar : Nat) (signal : Bool) (price : α) :
    a.Grows (a.step bar signal price) bar 1 := by
  have hmark : ∀ moved : Account α, moved.marks = a.marks →
      (moved.worth price :: moved.marks).reverse = a.equity ++ [moved.worth price] := by
    intro moved hmarks
    rw [hmarks, List.reverse_cons]
    rfl
  unfold step
  dsimp only
  split
  · have htrades := (a.trades_buy bar price).trans (List.append_nil a.trades).symm
    exact ⟨⟨[_], rfl, hmark _ (a.marks_buy bar price)⟩, ⟨[], by simp, htrades⟩⟩
  · obtain ⟨closed, _, hclosed, htrades⟩ := a.trades_sell bar price .signal
    refine ⟨⟨[_], rfl, hmark _ (a.marks_sell bar price .signal)⟩, ⟨closed, ?_, htrades⟩⟩
    intro t ht
    obtain ⟨hbar, hreason⟩ := hclosed t ht
    exact ⟨by omega, hreason⟩
  · exact ⟨⟨[_], rfl, hmark a rfl⟩, ⟨[], by simp, by simp [trades]⟩⟩

theorem grows_walk (a : Account α) (bar : Nat) (steps : List (α × Bool)) :
    a.Grows (a.walk bar steps) bar steps.length := by
  induction steps generalizing a bar with
  | nil => exact .refl a bar
  | cons first rest ih =>
    rw [walk, List.length_cons, Nat.add_comm rest.length]
    exact (a.grows_step bar first.2 first.1).trans (ih _ (bar + 1))

theorem walk_append (a : Account α) (bar : Nat) (steps later : List (α × Bool)) :
    a.walk bar (steps ++ later) = (a.walk bar steps).walk (bar + steps.length) later := by
  induction steps generalizing a bar with
  | nil => rfl
  | cons first rest ih =>
    rw [List.cons_append, walk, ih, walk, List.length_cons, Nat.add_assoc, Nat.add_comm 1]

theorem equity_finish (a : Account α) (bar : Nat) (price : α) :
    (a.finish bar price).equity.length = a.equity.length ∧
      ∀ n < a.equity.length, (a.finish bar price).equity.take n = a.equity.take n := by
  cases hmarks : a.marks with
  | nil => simp [finish, equity, hmarks]
  | cons last marks =>
    simp only [finish, equity, marks_sell, hmarks, List.reverse_cons, List.length_append,
      List.length_singleton, true_and]
    intro n hn
    have hle : n ≤ marks.reverse.length := by omega
    rw [List.take_append_of_le_length hle, List.take_append_of_le_length hle]

end Account

namespace BacktestSettings

variable {α : Type} [Scalar α] {closes : List α} {signals : List Bool}

/-- The account after all bars, before it is sold out. -/
def walked (s : BacktestSettings α) (closes : List α) (signals : List Bool) : Account α :=
  s.account.walk 0 (closes.zip signals)

theorem trade_cases (s : BacktestSettings α) (closes : List α) (signals : List Bool) :
    (closes = [] ∧ s.trade closes signals = s.walked closes signals) ∨
      ∃ last, s.trade closes signals = (s.walked closes signals).finish (closes.length - 1) last := by
  unfold trade
  dsimp only
  split
  · next h => exact .inl ⟨List.getLast?_eq_none_iff.mp h, rfl⟩
  · next last _ => exact .inr ⟨last, rfl⟩

/-- Besides the trades on the way there is one at most, closed at the end of the data. -/
theorem trades_trade (s : BacktestSettings α) (closes : List α) (signals : List Bool) :
    ∃ final : List (Trade α), final.length ≤ 1 ∧
      (∀ t ∈ final, t.exitBar = closes.length - 1 ∧ t.exitReason = .endOfData) ∧
      (s.trade closes signals).trades = (s.walked closes signals).trades ++ final := by
  rcases s.trade_cases closes signals with ⟨_, h⟩ | ⟨last, h⟩
  · exact ⟨[], by simp, by simp, by rw [h, List.append_nil]⟩
  · rw [h]
    exact (s.walked closes signals).trades_sell (closes.length - 1) last .endOfData

variable (hlength : closes.length = signals.length)
include hlength

theorem grows_walked (s : BacktestSettings α) :
    s.account.Grows (s.walked closes signals) 0 closes.length := by
  have h := s.account.grows_walk 0 (closes.zip signals)
  rwa [List.length_zip, ← hlength, Nat.min_self] at h

/-- Over more bars the account walks on from where it stood after the first ones. -/
theorem grows_walked_append (s : BacktestSettings α) {later : List α} {signals' : List Bool}
    (hlater : later.length = signals'.length) :
    (s.walked closes signals).Grows (s.walked (closes ++ later) (signals ++ signals'))
      closes.length later.length := by
  have hcount : (closes.zip signals).length = closes.length := by
    rw [List.length_zip, ← hlength, Nat.min_self]
  have h := (s.walked closes signals).grows_walk closes.length (later.zip signals')
  rw [List.length_zip, ← hlater, Nat.min_self] at h
  rwa [walked, walked, List.zip_append hlength, Account.walk_append, hcount, Nat.zero_add]

theorem length_equity_walked (s : BacktestSettings α) :
    (s.walked closes signals).equity.length = closes.length + 1 := by
  obtain ⟨values, hcount, hvalues⟩ := (s.grows_walked hlength).equity
  rw [hvalues, List.length_append, hcount, Nat.add_comm]
  rfl

theorem equity_trade (s : BacktestSettings α) :
    (s.trade closes signals).equity.length = closes.length + 1 ∧
      ∀ n ≤ closes.length, (s.trade closes signals).equity.take n =
        (s.walked closes signals).equity.take n := by
  have hwalked := s.length_equity_walked hlength
  rcases s.trade_cases closes signals with ⟨_, heq⟩ | ⟨last, heq⟩
  · rw [heq]
    exact ⟨hwalked, fun _ _ => rfl⟩
  · obtain ⟨hcount, htake⟩ := (s.walked closes signals).equity_finish (closes.length - 1) last
    rw [heq]
    exact ⟨hcount.trans hwalked, fun n hn => htake n (by omega)⟩

theorem trade_append (s : BacktestSettings α) {later : List α} {signals' : List Bool}
    (hlater : later.length = signals'.length) (hne : later ≠ []) :
    let short := s.trade closes signals
    let long := s.trade (closes ++ later) (signals ++ signals')
    short.equity.take closes.length = long.equity.take closes.length ∧
      (∀ t ∈ long.trades, t.exitBar < closes.length → t.exitReason = .signal) ∧
      ∃ final : List (Trade α), final.length ≤ 1 ∧ (∀ t ∈ final, t.exitReason = .endOfData) ∧
        short.trades = (long.trades.filter fun t => t.exitBar < closes.length) ++ final := by
  intro short long
  have hpos := List.length_pos_iff.mpr hne
  have hall : (closes ++ later).length = (signals ++ signals').length := by
    rw [List.length_append, List.length_append, hlength, hlater]
  have hgrows := s.grows_walked_append hlength hlater
  constructor
  · obtain ⟨values, _, hvalues⟩ := hgrows.equity
    have hshort := (s.equity_trade hlength).2 closes.length (Nat.le_refl _)
    have hlong := (s.equity_trade hall).2 closes.length (by simp)
    rw [hshort, hlong, hvalues, List.take_append_of_le_length]
    rw [s.length_equity_walked hlength]
    omega
  · obtain ⟨early, hearly, hwalked⟩ := (s.grows_walked hlength).trades
    obtain ⟨late, hlate, hlong⟩ := hgrows.trades
    obtain ⟨final, hcount, hfinal, hshort⟩ := s.trades_trade closes signals
    obtain ⟨final', _, hfinal', hlong'⟩ := s.trades_trade (closes ++ later) (signals ++ signals')
    change _ = early at hwalked
    have hkept : (long.trades.filter fun t => t.exitBar < closes.length) = early := by
      have hearly' : ∀ t ∈ early, t.exitBar < closes.length := fun t ht => by
        have hbar := (hearly t ht).1
        omega
      have hlate' : ∀ t ∈ late, ¬ t.exitBar < closes.length := fun t ht => by
        have hbar := (hlate t ht).1
        omega
      have hlast' : ∀ t ∈ final', ¬ t.exitBar < closes.length := fun t ht => by
        have hbar := (hfinal' t ht).1
        rw [List.length_append] at hbar
        omega
      rw [show long.trades = early ++ late ++ final' by rw [hlong', hlong, hwalked],
        List.filter_append, List.filter_append, List.filter_eq_self.mpr (by simpa using hearly'),
        List.filter_eq_nil_iff.mpr (by simpa using hlate'),
        List.filter_eq_nil_iff.mpr (by simpa using hlast'), List.append_nil, List.append_nil]
    refine ⟨?_, final, hcount, fun t ht => (hfinal t ht).2, by rw [hkept, hshort, hwalked]⟩
    intro t ht hbar
    have hmem : t ∈ early := by
      rw [← hkept]
      exact List.mem_filter.mpr ⟨ht, by simpa using hbar⟩
    exact (hearly t hmem).2

end BacktestSettings

namespace Backtest

variable {first later : List (Bar Float)}

/-- A backtest of the first bars and one that goes on have the same equity up to the last of the first
bars, where the shorter one is sold out. The trades that the longer one closed by then are those of
the shorter one, which the signal closed, but for one trade at the end of its data. -/
theorem run_uses_no_later_bars (s : BacktestSettings Float) (t : Tree) (hlater : later ≠ []) :
    (run s first t).equity.length = first.length + 1 ∧
    (run s (first ++ later) t).equity.length = (first ++ later).length + 1 ∧
    (run s first t).equity.take first.length = (run s (first ++ later) t).equity.take first.length ∧
    (∀ trade ∈ (run s (first ++ later) t).trades, trade.exitBar < first.length →
      trade.exitReason = .signal) ∧
    ∃ final : List (Trade Float), final.length ≤ 1 ∧
      (∀ trade ∈ final, trade.exitReason = .endOfData) ∧
      (run s first t).trades =
        ((run s (first ++ later) t).trades.filter fun trade => trade.exitBar < first.length) ++ final := by
  have hlength : ∀ bars : List (Bar Float),
      (bars.map Bar.close).length = (t.signals s.historyCapacity bars).length := by
    intro bars
    rw [List.length_map, t.length_signals]
  have hequity : ∀ bars, (run s bars t).equity.length = bars.length + 1 := by
    intro bars
    have hcount := (s.equity_trade (hlength bars)).1
    rwa [List.length_map] at hcount
  refine ⟨hequity first, hequity (first ++ later), ?_⟩
  -- The signals of the longer run are those of the shorter one and some more.
  obtain ⟨more, hmore⟩ : ∃ more,
      t.signals s.historyCapacity (first ++ later) = t.signals s.historyCapacity first ++ more := by
    rw [← t.signals_append s.historyCapacity first later]
    exact ⟨_, (List.take_append_drop _ _).symm⟩
  have hrest : (later.map Bar.close).length = more.length := by
    have hall := hlength (first ++ later)
    rw [hmore, List.map_append, List.length_append, List.length_append, hlength first] at hall
    omega
  have htrade := s.trade_append (hlength first) hrest (by simpa using hlater)
  rw [List.length_map, ← List.map_append, ← hmore] at htrade
  exact htrade

/-- Two rising bars and a falling one after them, under a signal that holds above 1. -/
theorem run_uses_no_later_bars_falling :
    let first : List (Bar Float) := [.flat 1 10, .flat 2 10, .flat 3 10]
    let later : List (Bar Float) := [.flat 1 10]
    let t := Tree.compare .greater (.series .close) (.constant 1)
    later ≠ [] ∧
    (run .default first t).equity.length = first.length + 1 ∧
    (run .default (first ++ later) t).equity.length = (first ++ later).length + 1 ∧
    (run .default first t).equity.take first.length =
      (run .default (first ++ later) t).equity.take first.length ∧
    (∀ trade ∈ (run .default (first ++ later) t).trades, trade.exitBar < first.length →
      trade.exitReason = .signal) ∧
    ∃ final : List (Trade Float), final.length ≤ 1 ∧
      (∀ trade ∈ final, trade.exitReason = .endOfData) ∧
      (run .default first t).trades = ((run .default (first ++ later) t).trades.filter fun trade =>
        trade.exitBar < first.length) ++ final := by
  intro first later t
  have hlater : later ≠ [] := List.cons_ne_nil _ _
  exact ⟨hlater, run_uses_no_later_bars .default t hlater⟩

end Backtest
end SignalEvolution

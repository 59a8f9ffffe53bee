import SignalEvolution.Proofs.Backtest.Steps

/-! # The trades of a signal

A backtest turns a row of signals into a row of trades: each of them lasts as long as the signal
holds, and the signal holds nowhere else but where a purchase is refused. The account goes
between two states, with all its means in cash or all of them in one position.
-/
namespace SignalEvolution

variable {α : Type}

namespace Trade

/-- A trade over which the signal holds, from its entry up to its exit. -/
structure Carried (t : Trade α) (signals : List Bool) : Prop where
  ordered : t.entryBar ≤ t.exitBar
  held : ∀ bar, t.entryBar ≤ bar → bar < t.exitBar → signals[bar]? = some true

/-- A trade that ends because the signal no longer holds. -/
structure Dropped (t : Trade α) (signals : List Bool) : Prop where
  reason : t.exitReason = .signal
  fallen : signals[t.exitBar]? = some false

/-- A trade that ends as the last one at the last bar, where the signal still holds. -/
structure CutShort (t : Trade α) (signals : List Bool) (trades : List (Trade α)) : Prop where
  reason : t.exitReason = .endOfData
  last : trades.getLast? = some t
  exit : t.exitBar + 1 = signals.length
  held : signals[t.exitBar]? = some true

/-- The bars from the entry to the exit of a trade. -/
def Spans (t : Trade α) (bar : Nat) : Prop := t.entryBar ≤ bar ∧ bar ≤ t.exitBar

end Trade

/-- The trades of a backtest over these signals: one after another, each as long as the signal holds, and
one wherever it holds but for refused purchases. -/
structure Traded (signals : List Bool) (Refused : Nat → Prop) (trades : List (Trade α)) : Prop where
  ordered : trades.Pairwise fun earlier later => earlier.exitBar < later.entryBar
  carried : ∀ t ∈ trades, t.Carried signals ∧ (t.Dropped signals ∨ t.CutShort signals trades)
  covered : ∀ bar, signals[bar]? = some true → (∃ t ∈ trades, t.Spans bar) ∨ Refused bar

variable [Scalar α] {signals : List Bool} {Refused : Nat → Prop} {n : Nat} {price : α}

namespace Account

variable {a moved : Account α} {p : Position α}

/-- What an account has come to after `n` bars with these signals. -/
structure Follows (signals : List Bool) (Refused : Nat → Prop) (n : Nat) (a : Account α) : Prop where
  ordered : a.trades.Pairwise fun earlier later => earlier.exitBar < later.entryBar
  closed : ∀ t ∈ a.trades, t.exitBar < n ∧ t.Carried signals ∧ t.Dropped signals
  invested : ∀ p ∈ a.position, a.cash = 0
  /-- An open position has been held since it was bought, after all trades. -/
  opened : ∀ p ∈ a.position, p.entryBar < n ∧ (∀ t ∈ a.trades, t.exitBar < p.entryBar) ∧
    ∀ bar, p.entryBar ≤ bar → bar < n → signals[bar]? = some true
  covered : ∀ bar < n, signals[bar]? = some true →
    (∃ t ∈ a.trades, t.Spans bar) ∨ (∃ p ∈ a.position, p.entryBar ≤ bar) ∨ Refused bar

theorem follows_start (capital commission slippage : α) :
    (start capital commission slippage).Follows signals Refused 0 := by
  constructor
  case ordered => exact List.Pairwise.nil
  case closed => simp [start, trades]
  case invested => simp [start]
  case opened => simp [start]
  case covered => simp

theorem Follows.closed_succ (h : a.Follows signals Refused n) :
    ∀ t ∈ a.trades, t.exitBar < n + 1 ∧ t.Carried signals ∧ t.Dropped signals := by
  intro t ht
  obtain ⟨hexit, hrest⟩ := h.closed t ht
  exact ⟨Nat.lt_succ_of_lt hexit, hrest⟩

theorem Follows.mark (h : a.Follows signals Refused n) (price : α) :
    (a.mark price).Follows signals Refused n :=
  ⟨h.ordered, h.closed, h.invested, h.opened, h.covered⟩

theorem Follows.stay (h : a.Follows signals Refused n)
    (hheld : ∀ p ∈ a.position, signals[n]? = some true)
    (hfree : a.position = none → signals[n]? = some true → Refused n) :
    a.Follows signals Refused (n + 1) := by
  constructor
  case ordered => exact h.ordered
  case closed => exact h.closed_succ
  case invested => exact h.invested
  case opened =>
    intro p hp
    obtain ⟨hentry, hafter, hsince⟩ := h.opened p hp
    refine ⟨by omega, hafter, ?_⟩
    intro bar hle hlt
    rcases Nat.lt_succ_iff_lt_or_eq.mp hlt with hlt | rfl
    · exact hsince bar hle hlt
    · exact hheld p hp
  case covered =>
    intro bar hlt htrue
    rcases Nat.lt_succ_iff_lt_or_eq.mp hlt with hlt | rfl
    · exact h.covered bar hlt htrue
    · cases hposition : a.position with
      | none => exact .inr (.inr (hfree hposition htrue))
      | some p =>
        obtain ⟨hentry, -⟩ := h.opened p hposition
        exact .inr (.inl ⟨p, rfl, by omega⟩)

theorem Follows.buy (h : a.Follows signals Refused n) (hnone : a.position = none)
    (htrue : signals[n]? = some true) (price : α) :
    (a.bought n price).Follows signals Refused (n + 1) := by
  constructor
  case ordered => exact h.ordered
  case closed => exact h.closed_succ
  case invested =>
    intro p _
    rfl
  case opened =>
    rintro p ⟨rfl⟩
    refine ⟨Nat.lt_succ_self n, ?_, ?_⟩
    · intro t ht
      exact (h.closed t ht).1
    · intro bar hle hlt
      obtain rfl : bar = n := by
        change n ≤ bar at hle
        omega
      exact htrue
  case covered =>
    intro bar hlt hbar
    rcases Nat.lt_succ_iff_lt_or_eq.mp hlt with hlt | rfl
    · rcases h.covered bar hlt hbar with htrade | ⟨p, hp, -⟩ | hrefused
      · exact .inl htrade
      · rw [hnone] at hp
        cases hp
      · exact .inr (.inr hrefused)
    · exact .inr (.inl ⟨_, rfl, Nat.le_refl _⟩)

theorem Follows.ordered_sold (h : a.Follows signals Refused n) (hsome : a.position = some p) (bar : Nat)
    (price : α) (reason : ExitReason) :
    (a.sold p bar price reason).trades.Pairwise fun earlier later => earlier.exitBar < later.entryBar := by
  obtain ⟨-, hafter, -⟩ := h.opened p hsome
  rw [trades_sold]
  refine List.pairwise_append.mpr ⟨h.ordered, List.pairwise_singleton _ _, ?_⟩
  intro t ht last hlast
  obtain rfl := List.mem_singleton.mp hlast
  exact hafter t ht

theorem Follows.covered_sold (h : a.Follows signals Refused n) (hsome : a.position = some p) {last : Nat}
    (hlast : n ≤ last + 1) (price : α) (reason : ExitReason) :
    ∀ bar < n, signals[bar]? = some true →
      (∃ t ∈ (a.sold p last price reason).trades, t.Spans bar) ∨ Refused bar := by
  intro bar hlt hbar
  rw [trades_sold]
  rcases h.covered bar hlt hbar with ⟨t, ht, hspans⟩ | ⟨q, hq, hle⟩ | hrefused
  · exact .inl ⟨t, List.mem_append_left _ ht, hspans⟩
  · obtain rfl : p = q := Option.some.inj (hsome.symm.trans hq)
    refine .inl ⟨_, List.mem_append_right _ (List.mem_singleton_self _), hle, ?_⟩
    exact Nat.le_of_lt_succ (Nat.lt_of_lt_of_le hlt hlast)
  · exact .inr hrefused

theorem Follows.sell (h : a.Follows signals Refused n) (hsome : a.position = some p)
    (hfalse : signals[n]? = some false) (price : α) :
    (a.sold p n price .signal).Follows signals Refused (n + 1) := by
  obtain ⟨hentry, -, hsince⟩ := h.opened p hsome
  constructor
  case ordered => exact h.ordered_sold hsome n price .signal
  case closed =>
    intro t ht
    rw [trades_sold] at ht
    rcases List.mem_append.mp ht with ht | ht
    · exact h.closed_succ t ht
    · obtain rfl := List.mem_singleton.mp ht
      exact ⟨Nat.lt_succ_self n, ⟨Nat.le_of_lt hentry, hsince⟩, ⟨rfl, hfalse⟩⟩
  case invested => rintro q ⟨⟩
  case opened => rintro q ⟨⟩
  case covered =>
    intro bar hlt hbar
    rcases Nat.lt_succ_iff_lt_or_eq.mp hlt with hlt | rfl
    · rcases h.covered_sold hsome (Nat.le_succ n) price .signal bar hlt hbar with htrade | hrefused
      · exact .inl htrade
      · exact .inr (.inr hrefused)
    · cases hfalse.symm.trans hbar

/-- Whatever a bar does, the account goes on following the signals. -/
theorem Follows.step {signal : Bool} (h : a.Follows signals Refused n) (hsignal : signals[n]? = some signal)
    (hrefused : a.position = none → a.Refuses price → Refused n) :
    (a.step n signal price).Follows signals Refused (n + 1) := by
  obtain ⟨moved, hmoves, heq⟩ := a.step_cases n signal price
  rw [heq]
  apply Follows.mark
  cases hmoves with
  | waits hnone =>
    refine h.stay ?_ ?_
    · intro p hp
      rw [hnone] at hp
      cases hp
    · intro _ htrue
      cases hsignal.symm.trans htrue
  | refused hnone hrefuses => exact h.stay (fun _ _ => hsignal) fun _ _ => hrefused hnone hrefuses
  | buys hnone _ => exact h.buy hnone hsignal price
  | holds hsome =>
    refine h.stay (fun _ _ => hsignal) ?_
    intro hnone
    rw [hsome] at hnone
    cases hnone
  | sells hsome => exact h.sell hsome hsignal price

theorem Follows.traded_of_none (h : a.Follows signals Refused signals.length) (hnone : a.position = none) :
    Traded signals Refused a.trades := by
  constructor
  case ordered => exact h.ordered
  case carried =>
    intro t ht
    obtain ⟨-, hcarried, hdropped⟩ := h.closed t ht
    exact ⟨hcarried, .inl hdropped⟩
  case covered =>
    intro bar hbar
    obtain ⟨hlt, -⟩ := List.getElem?_eq_some_iff.mp hbar
    rcases h.covered bar hlt hbar with htrade | ⟨p, hp, -⟩ | hrefused
    · exact .inl htrade
    · rw [hnone] at hp
      cases hp
    · exact .inr hrefused

/-- What is held after the last bar becomes the last trade. -/
theorem Follows.traded_of_some (h : a.Follows signals Refused signals.length) (hsome : a.position = some p)
    (price : α) :
    Traded signals Refused (a.sold p (signals.length - 1) price .endOfData).trades := by
  obtain ⟨hentry, -, hsince⟩ := h.opened p hsome
  have hlast : signals.length - 1 + 1 = signals.length := by omega
  constructor
  case ordered => exact h.ordered_sold hsome _ price .endOfData
  case carried =>
    intro t ht
    rw [trades_sold] at ht ⊢
    rcases List.mem_append.mp ht with ht | ht
    · obtain ⟨-, hcarried, hdropped⟩ := h.closed t ht
      exact ⟨hcarried, .inl hdropped⟩
    · obtain rfl := List.mem_singleton.mp ht
      have hheld := hsince (signals.length - 1) (Nat.le_sub_one_of_lt hentry) (by omega)
      refine ⟨⟨Nat.le_sub_one_of_lt hentry, ?_⟩, .inr ⟨rfl, List.getLast?_concat, hlast, hheld⟩⟩
      intro bar hle hlt
      exact hsince bar hle (Nat.lt_of_lt_of_le hlt (Nat.sub_le _ _))
  case covered =>
    intro bar hbar
    obtain ⟨hlt, -⟩ := List.getElem?_eq_some_iff.mp hbar
    exact h.covered_sold hsome (Nat.le_of_eq hlast.symm) price .endOfData bar hlt hbar

theorem trades_finish (a : Account α) (bar : Nat) (price : α) :
    (a.finish bar price).trades = (a.sell bar price .endOfData).trades := rfl

theorem position_finish (a : Account α) (bar : Nat) (price : α) :
    (a.finish bar price).position = none := by
  change (a.sell bar price .endOfData).position = none
  rcases a.sell_cases bar price .endOfData with ⟨hnone, heq⟩ | ⟨p, -, heq⟩
  · rw [heq, hnone]
  · rw [heq, sold]

theorem getLast?_finish (h : a.marks ≠ []) (bar : Nat) (price : α) :
    (a.finish bar price).equity.getLast? = some (a.finish bar price).cash := by
  obtain ⟨last, marks, hmarks⟩ := List.exists_cons_of_ne_nil h
  simp only [finish, equity, marks_sell, hmarks, List.getLast?_reverse, List.head?_cons]

theorem Follows.traded (h : a.Follows signals Refused signals.length) (price : α) :
    Traded signals Refused (a.finish (signals.length - 1) price).trades := by
  rw [trades_finish]
  rcases a.sell_cases (signals.length - 1) price .endOfData with ⟨hnone, heq⟩ | ⟨p, hsome, heq⟩
  · rw [heq]
    exact h.traded_of_none hnone
  · rw [heq]
    exact h.traded_of_some hsome price

end Account

namespace BacktestSettings

variable {closes : List α}

/-- At this bar a purchase is asked for and not carried out. -/
def RefusedAt (s : BacktestSettings α) (closes : List α) (signals : List Bool) (bar : Nat) : Prop :=
  ∃ price, closes[bar]? = some price ∧ (s.accountAfter closes signals bar).position = none ∧
    (s.accountAfter closes signals bar).Refuses price

theorem position_trade (s : BacktestSettings α) (closes : List α) (signals : List Bool) :
    (s.trade closes signals).position = none := by
  rcases s.trade_cases closes signals with ⟨rfl, heq⟩ | ⟨last, heq⟩
  · rw [heq]
    rfl
  · rw [heq, Account.position_finish]

theorem getLast?_equity_trade (s : BacktestSettings α) (signals : List Bool) (hne : closes ≠ []) :
    (s.trade closes signals).equity.getLast? = some (s.trade closes signals).cash := by
  rcases s.trade_cases closes signals with ⟨hnil, -⟩ | ⟨last, heq⟩
  · exact absurd hnil hne
  · rw [heq, Account.getLast?_finish (s.marks_walked_ne_nil closes signals)]

variable (hlength : closes.length = signals.length)
include hlength

theorem follows_accountAfter (s : BacktestSettings α) :
    ∀ n ≤ closes.length,
      (s.accountAfter closes signals n).Follows signals (s.RefusedAt closes signals) n := by
  apply s.accountAfter_induction (P := fun n a => a.Follows signals (s.RefusedAt closes signals) n) hlength
  · exact Account.follows_start _ _ _
  · intro n price signal hprice hsignal h
    exact h.step hsignal fun hnone hrefuses => ⟨price, hprice, hnone, hrefuses⟩

theorem follows_walked (s : BacktestSettings α) :
    (s.walked closes signals).Follows signals (s.RefusedAt closes signals) signals.length := by
  have h := s.follows_accountAfter hlength closes.length (Nat.le_refl _)
  rwa [s.accountAfter_length, hlength] at h

theorem traded_trade (s : BacktestSettings α) :
    Traded signals (s.RefusedAt closes signals) (s.trade closes signals).trades := by
  have hwalked := s.follows_walked hlength
  rcases s.trade_cases closes signals with ⟨rfl, heq⟩ | ⟨last, heq⟩
  · rw [heq]
    exact hwalked.traded_of_none rfl
  · rw [heq, hlength]
    exact hwalked.traded last

end BacktestSettings

namespace Backtest

/-- What a backtest of a tree does, for any numbers that the bars and the settings hold: while a position
is open there is no cash; trades follow one another, each from a bar where the tree holds up to the
first one where it does not, or to the last bar; where it holds there is a trade or a refused
purchase; in the end all is cash, and that is the last of the equity. -/
theorem run_trades_signals (s : BacktestSettings Float) (bars : List (Bar Float)) (t : Tree) :
    let closes := bars.map Bar.close
    let signals := t.signals s.historyCapacity bars
    let final := s.trade closes signals
    (∀ n ≤ bars.length, ∀ p ∈ (s.accountAfter closes signals n).position,
      (s.accountAfter closes signals n).cash = 0) ∧
    Traded signals (s.RefusedAt closes signals) (run s bars t).trades ∧
    final.position = none ∧
    (run s bars t).equity.length = bars.length + 1 ∧
    (bars ≠ [] → (run s bars t).equity.getLast? = some final.cash) := by
  intro closes signals final
  have hcloses : closes.length = bars.length := List.length_map _
  have hlength : closes.length = signals.length := by
    rw [hcloses, t.length_signals]
  refine ⟨?_, s.traded_trade hlength, s.position_trade closes signals, ?_, ?_⟩
  · intro n hn
    rw [← hcloses] at hn
    exact (s.follows_accountAfter hlength n hn).invested
  · rw [← hcloses]
    exact (s.equity_trade hlength).1
  · intro hne
    exact s.getLast?_equity_trade signals (by simpa [closes] using hne)

end Backtest
end SignalEvolution

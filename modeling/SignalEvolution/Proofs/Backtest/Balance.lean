import Mathlib
import SignalEvolution.Arithmetic.Exact
import SignalEvolution.Proofs.Backtest.Trades

/-! # The balance of an exact backtest

Without rounding, an account ends with its capital and the profits of its trades, and this is also
its capital times what each trade made of the money that went into it. Both follow from one
fact about the money at stake: a purchase leaves it as it is, and a sale settles it.
-/
namespace SignalEvolution

/-- What a trade makes of one unit of money, with a commission on both sides. -/
def Trade.growth (commission : Rat) (t : Trade Rat) : Rat :=
  (1 - commission) ^ 2 * t.exitPrice / t.entryPrice

namespace Account

/-- The cash, or what was paid for the position that is open. -/
def stake {α : Type} (a : Account α) : α :=
  match a.position with
  | some p => p.cost
  | none => a.cash

theorem stake_of_some {α : Type} {a : Account α} {p : Position α} (h : a.position = some p) :
    a.stake = p.cost := by
  rw [stake, h]

theorem stake_of_none {α : Type} {a : Account α} (h : a.position = none) : a.stake = a.cash := by
  rw [stake, h]

variable {a : Account Rat} {p : Position Rat} {price : Rat}

theorem entryFill_eq (a : Account Rat) (price : Rat) : a.entryFill price = price * (1 + a.slippage) := rfl

theorem exitFill_eq (a : Account Rat) (price : Rat) : a.exitFill price = price * (1 - a.slippage) := rfl

theorem proceeds_eq (a : Account Rat) (price size : Rat) :
    a.proceeds price size = a.exitFill price * size * (1 - a.commission) := by
  change a.exitFill price * size - a.exitFill price * size * a.commission = _
  ring

theorem entryFill_pos_of_not_refuses (h : ¬ a.Refuses price) : 0 < a.entryFill price := by
  by_contra hle
  exact h (.inl (not_lt.mp hle))

/-- What all the cash buys. -/
def purchasable (a : Account Rat) (price : Rat) : Rat :=
  a.cash * (1 - a.commission) / a.entryFill price

theorem position_bought (a : Account Rat) (bar : Nat) (price : Rat) :
    (a.bought bar price).position = some ⟨bar, a.entryFill price, a.purchasable price, a.cash⟩ := by
  have hsize : (a.cash - a.cash * a.commission) / a.entryFill price = a.purchasable price := by
    rw [purchasable, mul_sub, mul_one]
  rw [← hsize]
  rfl

/-- The money at stake is the capital with all profits, and the capital after all growth. An open position
is worth what was paid for it less the commission, at the price of its entry. -/
structure Balanced (capital commission : Rat) (a : Account Rat) : Prop where
  rate : a.commission = commission
  profits : a.stake = capital + (a.trades.map Trade.profit).sum
  growth : a.stake = capital * (a.trades.map (Trade.growth commission)).prod
  opened : ∀ p ∈ a.position, a.cash = 0 ∧ p.entryPrice ≠ 0 ∧
    p.size * p.entryPrice = p.cost * (1 - commission)

variable {capital commission : Rat}

theorem balanced_start (capital commission slippage : Rat) :
    (start capital commission slippage).Balanced capital commission := by
  constructor
  case rate => rfl
  case profits => simp [stake, start, trades]
  case growth => simp [stake, start, trades]
  case opened => simp [start]

theorem Balanced.mark (h : a.Balanced capital commission) (price : Rat) :
    (a.mark price).Balanced capital commission :=
  ⟨h.rate, h.profits, h.growth, h.opened⟩

theorem Balanced.buy (h : a.Balanced capital commission) (hnone : a.position = none)
    (hbuys : ¬ a.Refuses price) (bar : Nat) : (a.bought bar price).Balanced capital commission := by
  have hstake : (a.bought bar price).stake = a.stake := by
    rw [stake_of_some (a.position_bought bar price), stake_of_none hnone]
  have hfill := entryFill_pos_of_not_refuses hbuys
  constructor
  case rate => exact h.rate
  case profits => rw [hstake, h.profits, trades_bought]
  case growth => rw [hstake, h.growth, trades_bought]
  case opened =>
    intro p hp
    rw [position_bought] at hp
    obtain rfl := Option.some.inj hp
    refine ⟨rfl, ne_of_gt hfill, ?_⟩
    rw [purchasable, h.rate, div_mul_cancel₀ _ (ne_of_gt hfill)]

/-- A sale turns what was paid into what it brings, for whatever reason it is made. -/
theorem Balanced.sell (h : a.Balanced capital commission) (hsome : a.position = some p) (bar : Nat)
    (price : Rat) (reason : ExitReason) : (a.sold p bar price reason).Balanced capital commission := by
  obtain ⟨hcash, hentry, hsize⟩ := h.opened p hsome
  have hstake : (a.sold p bar price reason).stake = a.proceeds price p.size := by
    change a.cash + a.proceeds price p.size = _
    rw [hcash, zero_add]
  have hprofits := h.profits
  have hgrowth := h.growth
  rw [stake_of_some hsome] at hprofits hgrowth
  constructor
  case rate => exact h.rate
  case profits =>
    rw [hstake, trades_sold, List.map_append, List.sum_append, List.map_singleton, List.sum_singleton,
      ← add_assoc, ← hprofits]
    change _ = p.cost + (a.proceeds price p.size - p.cost)
    ring
  case growth =>
    rw [hstake, trades_sold, List.map_append, List.prod_append, List.map_singleton, List.prod_singleton,
      ← mul_assoc, ← hgrowth, proceeds_eq, h.rate]
    change _ = p.cost * ((1 - commission) ^ 2 * a.exitFill price / p.entryPrice)
    -- The units cancel out, as what they cost at the entry is the stake less the commission.
    calc a.exitFill price * p.size * (1 - commission)
        = p.size * p.entryPrice * (1 - commission) * a.exitFill price / p.entryPrice := by
          field_simp
      _ = p.cost * ((1 - commission) ^ 2 * a.exitFill price / p.entryPrice) := by
          rw [hsize]
          ring
  case opened => rintro q ⟨⟩

theorem Balanced.step (h : a.Balanced capital commission) (bar : Nat) (signal : Bool) (price : Rat) :
    (a.step bar signal price).Balanced capital commission := by
  obtain ⟨moved, hmoves, heq⟩ := a.step_cases bar signal price
  rw [heq]
  apply Balanced.mark
  cases hmoves with
  | waits _ => exact h
  | refused _ _ => exact h
  | buys hnone hbuys => exact h.buy hnone hbuys bar
  | holds _ => exact h
  | sells hsome => exact h.sell hsome bar price .signal

/-- An account that sells out is left with what was at stake, and its balance is its cash. -/
theorem Balanced.finish (h : a.Balanced capital commission) (hmarks : a.marks ≠ []) (bar : Nat) (price : Rat) :
    (a.finish bar price).Balanced capital commission ∧
      (a.finish bar price).balance = (a.finish bar price).stake := by
  have hsold : (a.sell bar price .endOfData).Balanced capital commission := by
    rcases a.sell_cases bar price .endOfData with ⟨-, heq⟩ | ⟨p, hsome, heq⟩
    · rwa [heq]
    · rw [heq]
      exact h.sell hsome bar price .endOfData
  refine ⟨⟨hsold.rate, hsold.profits, hsold.growth, hsold.opened⟩, ?_⟩
  obtain ⟨last, marks, hlast⟩ := List.exists_cons_of_ne_nil hmarks
  rw [stake_of_none (position_finish a bar price), balance]
  simp only [Account.finish, marks_sell, hlast, List.head?_cons, Option.getD_some]

end Account

namespace BacktestSettings

theorem balanced_walked (s : BacktestSettings Rat) (closes : List Rat) (signals : List Bool) :
    (s.walked closes signals).Balanced s.initialCapital s.commission := by
  apply Account.walk_induction
  · exact Account.balanced_start _ _ _
  · intro a bar signal price h
    exact h.step bar signal price

/-- Without rounding, what a backtest has gained in the end is the sum of the profits of its trades, and its
balance is its capital times the growth that all trades brought, whatever the prices and the signals. -/
theorem trade_balance (s : BacktestSettings Rat) (closes : List Rat) (signals : List Bool) :
    (s.trade closes signals).balance - s.initialCapital =
        ((s.trade closes signals).trades.map Trade.profit).sum ∧
      (s.trade closes signals).balance = s.initialCapital *
        ((s.trade closes signals).trades.map fun t =>
          (1 - s.commission) ^ 2 * t.exitPrice / t.entryPrice).prod := by
  have hwalked := s.balanced_walked closes signals
  have hfinal : (s.trade closes signals).Balanced s.initialCapital s.commission ∧
      (s.trade closes signals).balance = (s.trade closes signals).stake := by
    rcases s.trade_cases closes signals with ⟨rfl, heq⟩ | ⟨last, heq⟩
    · rw [heq]
      exact ⟨hwalked, rfl⟩
    · rw [heq]
      exact hwalked.finish (s.marks_walked_ne_nil closes signals) _ last
  obtain ⟨hbalanced, hstake⟩ := hfinal
  constructor
  · rw [hstake, hbalanced.profits, add_sub_cancel_left]
  · rw [hstake]
    exact hbalanced.growth

end BacktestSettings
end SignalEvolution

import SignalEvolution.Proofs.Backtest.Prefix

/-! # The bars of a backtest

What one bar can do to an account, told by its position and the signal, and the accounts that
a backtest passes from bar to bar. All that is proved about whole backtests goes by these steps.
-/
namespace SignalEvolution

namespace Account

variable {α : Type} [Scalar α]

/-- What one unit costs where it is bought at a price. -/
def entryFill (a : Account α) (price : α) : α := price * (1 + a.slippage)

/-- What one unit brings where it is sold at a price. -/
def exitFill (a : Account α) (price : α) : α := price * (1 - a.slippage)

/-- What a number of units brings after the commission. -/
def proceeds (a : Account α) (price size : α) : α :=
  a.exitFill price * size - a.exitFill price * size * a.commission

/-- A purchase at this price is not carried out. -/
def Refuses (a : Account α) (price : α) : Prop :=
  a.entryFill price ≤ 0 ∨ Scalar.isFinite (a.entryFill price) = false ∨ a.cash ≤ 0

/-- The account after a purchase with all its cash. -/
def bought (a : Account α) (bar : Nat) (price : α) : Account α :=
  { a with
    position := some ⟨bar, a.entryFill price, (a.cash - a.cash * a.commission) / a.entryFill price, a.cash⟩
    cash := 0 }

/-- The account after the sale of a position. -/
def sold (a : Account α) (p : Position α) (bar : Nat) (price : α) (reason : ExitReason) : Account α :=
  { a with
    position := none
    cash := a.cash + a.proceeds price p.size
    closed := ⟨p.entryBar, bar, p.entryPrice, a.exitFill price, p.size,
      a.proceeds price p.size - p.cost, reason⟩ :: a.closed }

/-- The account with its worth at a price as the latest mark. -/
def mark (a : Account α) (price : α) : Account α := { a with marks := a.worth price :: a.marks }

variable {a moved : Account α} {bar : Nat} {price : α} {signal : Bool} {p : Position α} {reason : ExitReason}

theorem buy_of_refuses (h : a.Refuses price) : a.buy bar price = a := by
  apply if_pos
  rcases h with h | h | h
  · exact .inr (.inl h)
  · exact .inr (.inr (.inl (by simpa [entryFill] using h)))
  · exact .inr (.inr (.inr h))

theorem buy_of_not_refuses (hnone : a.position = none) (h : ¬ a.Refuses price) :
    a.buy bar price = a.bought bar price := by
  apply if_neg
  rintro (hsome | hfill | hfinite | hcash)
  · simp [hnone] at hsome
  · exact h (.inl hfill)
  · exact h (.inr (.inl (by simpa [entryFill] using hfinite)))
  · exact h (.inr (.inr hcash))

theorem sell_of_none (h : a.position = none) : a.sell bar price reason = a := by
  simp only [sell, h]

theorem sell_of_some (h : a.position = some p) : a.sell bar price reason = a.sold p bar price reason := by
  simp only [sell, h, sold, proceeds, exitFill]

theorem sell_cases (a : Account α) (bar : Nat) (price : α) (reason : ExitReason) :
    (a.position = none ∧ a.sell bar price reason = a) ∨
      ∃ p, a.position = some p ∧ a.sell bar price reason = a.sold p bar price reason := by
  cases hposition : a.position with
  | none => exact .inl ⟨rfl, sell_of_none hposition⟩
  | some p => exact .inr ⟨p, rfl, sell_of_some hposition⟩

@[simp] theorem trades_bought (a : Account α) (bar : Nat) (price : α) :
    (a.bought bar price).trades = a.trades := rfl

theorem trades_sold (a : Account α) (p : Position α) (bar : Nat) (price : α) (reason : ExitReason) :
    (a.sold p bar price reason).trades = a.trades ++ [⟨p.entryBar, bar, p.entryPrice, a.exitFill price,
      p.size, a.proceeds price p.size - p.cost, reason⟩] := List.reverse_cons

/-- What a bar does to an account before it is marked. -/
inductive Moves (a : Account α) (bar : Nat) (price : α) : Bool → Account α → Prop
  | waits (hnone : a.position = none) : Moves a bar price false a
  | refused (hnone : a.position = none) (h : a.Refuses price) : Moves a bar price true a
  | buys (hnone : a.position = none) (h : ¬ a.Refuses price) : Moves a bar price true (a.bought bar price)
  | holds {p : Position α} (hsome : a.position = some p) : Moves a bar price true a
  | sells {p : Position α} (hsome : a.position = some p) :
    Moves a bar price false (a.sold p bar price .signal)

theorem step_cases (a : Account α) (bar : Nat) (signal : Bool) (price : α) :
    ∃ moved, a.Moves bar price signal moved ∧ a.step bar signal price = moved.mark price := by
  unfold step mark
  dsimp only
  cases hposition : a.position with
  | none =>
    cases signal with
    | false => exact ⟨a, .waits hposition, rfl⟩
    | true =>
      by_cases hrefuses : a.Refuses price
      · exact ⟨a, .refused hposition hrefuses, by simp only [buy_of_refuses hrefuses]⟩
      · exact ⟨a.bought bar price, .buys hposition hrefuses,
          by simp only [buy_of_not_refuses hposition hrefuses]⟩
  | some p =>
    cases signal with
    | false => exact ⟨a.sold p bar price .signal, .sells hposition, by simp only [sell_of_some hposition]⟩
    | true => exact ⟨a, .holds hposition, rfl⟩

@[simp] theorem commission_step (a : Account α) (bar : Nat) (signal : Bool) (price : α) :
    (a.step bar signal price).commission = a.commission := by
  obtain ⟨moved, hmoves, heq⟩ := a.step_cases bar signal price
  rw [heq]
  cases hmoves <;> rfl

@[simp] theorem slippage_step (a : Account α) (bar : Nat) (signal : Bool) (price : α) :
    (a.step bar signal price).slippage = a.slippage := by
  obtain ⟨moved, hmoves, heq⟩ := a.step_cases bar signal price
  rw [heq]
  cases hmoves <;> rfl

/-- What every bar keeps holds after a walk over any bars. -/
theorem walk_induction {P : Account α → Prop} (h : P a)
    (hstep : ∀ a bar signal price, P a → P (a.step bar signal price)) (bar : Nat) (steps : List (α × Bool)) :
    P (a.walk bar steps) := by
  induction steps generalizing a bar with
  | nil => exact h
  | cons first rest ih => exact ih (hstep a bar first.2 first.1 h) (bar + 1)

end Account

namespace BacktestSettings

variable {α : Type} [Scalar α] {closes : List α} {signals : List Bool} {n : Nat}

/-- The account after a number of bars. -/
def accountAfter (s : BacktestSettings α) (closes : List α) (signals : List Bool) (n : Nat) : Account α :=
  s.account.walk 0 ((closes.zip signals).take n)

theorem accountAfter_succ (s : BacktestSettings α) {price : α} {signal : Bool}
    (hprice : closes[n]? = some price) (hsignal : signals[n]? = some signal) :
    s.accountAfter closes signals (n + 1) = (s.accountAfter closes signals n).step n signal price := by
  have hstep : (closes.zip signals)[n]? = some (price, signal) :=
    List.getElem?_zip_eq_some.mpr ⟨hprice, hsignal⟩
  obtain ⟨hn, -⟩ := List.getElem?_eq_some_iff.mp hstep
  have hcount : ((closes.zip signals).take n).length = n := by
    rw [List.length_take]
    omega
  rw [accountAfter, List.take_add_one, hstep, Account.walk_append, hcount, Nat.zero_add]
  rfl

theorem accountAfter_length (s : BacktestSettings α) (closes : List α) (signals : List Bool) :
    s.accountAfter closes signals closes.length = s.walked closes signals := by
  have hcount : (closes.zip signals).length ≤ closes.length := by
    rw [List.length_zip]
    exact Nat.min_le_left _ _
  rw [accountAfter, walked, List.take_of_length_le hcount]

theorem accountAfter_induction (s : BacktestSettings α) (hlength : closes.length = signals.length)
    {P : Nat → Account α → Prop} (hstart : P 0 s.account)
    (hstep : ∀ n price signal, closes[n]? = some price → signals[n]? = some signal →
      P n (s.accountAfter closes signals n) →
      P (n + 1) ((s.accountAfter closes signals n).step n signal price)) :
    ∀ n ≤ closes.length, P n (s.accountAfter closes signals n) := by
  intro n hn
  induction n with
  | zero => exact hstart
  | succ n ih =>
    have hprice : closes[n]? = some closes[n] := List.getElem?_eq_getElem hn
    have hsignal : signals[n]? = some signals[n] := List.getElem?_eq_getElem (by omega)
    rw [s.accountAfter_succ hprice hsignal]
    exact hstep n _ _ hprice hsignal (ih (by omega))

@[simp] theorem commission_accountAfter (s : BacktestSettings α) (closes : List α) (signals : List Bool)
    (n : Nat) : (s.accountAfter closes signals n).commission = s.commission := by
  apply Account.walk_induction (P := fun a => a.commission = s.commission) rfl
  intro a bar signal price h
  rw [Account.commission_step, h]

@[simp] theorem slippage_accountAfter (s : BacktestSettings α) (closes : List α) (signals : List Bool)
    (n : Nat) : (s.accountAfter closes signals n).slippage = s.slippage := by
  apply Account.walk_induction (P := fun a => a.slippage = s.slippage) rfl
  intro a bar signal price h
  rw [Account.slippage_step, h]

theorem trade_of_ne_nil (s : BacktestSettings α) (signals : List Bool) (hne : closes ≠ []) :
    s.trade closes signals = (s.walked closes signals).finish (closes.length - 1) (closes.getLast hne) := by
  unfold trade
  rw [List.getLast?_eq_some_getLast hne]
  rfl

theorem marks_walked_ne_nil (s : BacktestSettings α) (closes : List α) (signals : List Bool) :
    (s.walked closes signals).marks ≠ [] := by
  apply Account.walk_induction (P := fun a => a.marks ≠ [])
  · exact List.cons_ne_nil _ _
  · intro a bar signal price _
    exact List.cons_ne_nil _ _

end BacktestSettings
end SignalEvolution

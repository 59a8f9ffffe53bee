import SignalEvolution.Arithmetic.Scalar

/-! # A fully invested account

The account buys with all its cash when the signal rises, sells everything when
it falls, and is marked to market at every bar. Fills are worse than the price
by the slippage, and each side pays a commission.
-/
namespace SignalEvolution

inductive ExitReason where
  | signal
  | endOfData
  deriving Repr, DecidableEq

namespace ExitReason

def all : List ExitReason := [signal, endOfData]

def name : ExitReason → String
  | signal => "Signal"
  | endOfData => "EndOfData"

end ExitReason

structure Trade (α : Type) where
  entryBar : Nat
  exitBar : Nat
  entryPrice : α
  exitPrice : α
  size : α
  /-- What is left after commissions on both sides. -/
  profit : α
  exitReason : ExitReason
  deriving Repr, DecidableEq

structure Position (α : Type) where
  entryBar : Nat
  entryPrice : α
  size : α
  cost : α

structure Account (α : Type) where
  initialCapital : α
  commission : α
  slippage : α
  cash : α
  position : Option (Position α)
  /-- Closed trades, the latest first. -/
  closed : List (Trade α)
  /-- Values of the account, the latest first. -/
  marks : List α

namespace Account

variable {α : Type} [Scalar α]

def start (capital commission slippage : α) : Account α :=
  { initialCapital := capital, commission, slippage, cash := capital, position := none,
    closed := [], marks := [capital] }

/-- Buys with all cash. Nothing happens while a position is open, or without a finite
positive fill and positive cash. -/
@[specialize] def buy (a : Account α) (bar : Nat) (price : α) : Account α :=
  let fill := price * (1 + a.slippage)
  if a.position.isSome ∨ fill ≤ 0 ∨ !Scalar.isFinite fill ∨ a.cash ≤ 0 then a
  else
    let fee := a.cash * a.commission
    { a with
      position := some ⟨bar, fill, (a.cash - fee) / fill, a.cash⟩
      cash := 0 }

@[specialize] def sell (a : Account α) (bar : Nat) (price : α) (reason : ExitReason) : Account α :=
  match a.position with
  | none => a
  | some p =>
    let fill := price * (1 - a.slippage)
    let gross := fill * p.size
    let proceeds := gross - gross * a.commission
    { a with
      position := none
      cash := a.cash + proceeds
      closed := ⟨p.entryBar, bar, p.entryPrice, fill, p.size, proceeds - p.cost, reason⟩ :: a.closed }

@[specialize] def worth (a : Account α) (price : α) : α :=
  match a.position with
  | some p => a.cash + p.size * price
  | none => a.cash + 0

@[specialize] def step (a : Account α) (bar : Nat) (signal : Bool) (price : α) : Account α :=
  let moved := match a.position, signal with
    | none, true => a.buy bar price
    | some _, false => a.sell bar price .signal
    | _, _ => a
  { moved with marks := moved.worth price :: moved.marks }

def balance (a : Account α) : α := a.marks.head?.getD a.initialCapital

def trades (a : Account α) : List (Trade α) := a.closed.reverse

def equity (a : Account α) : List α := a.marks.reverse

@[specialize] def walk (a : Account α) (bar : Nat) : List (α × Bool) → Account α
  | [] => a
  | (price, signal) :: rest => walk (a.step bar signal price) (bar + 1) rest

/-- Sells what is left at the last price and puts the cash in place of the last mark. -/
@[specialize] def finish (a : Account α) (bar : Nat) (price : α) : Account α :=
  let sold := a.sell bar price .endOfData
  { sold with marks := match sold.marks with
    | [] => []
    | _ :: rest => sold.cash :: rest }

end Account
end SignalEvolution

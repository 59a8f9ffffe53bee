import Mathlib.Data.List.Induction
import SignalEvolution.Market.Context
import SignalEvolution.Proofs.Table

/-! # The window of a context

A context that moves on bar by bar has in view what a context made from all bars at once
has: the last bar and, before it, as many of the others as its capacity allows. Readings
that a feed supplies stay until the next bar.
-/
namespace SignalEvolution.Context

variable {c : Context} {seen : List (Bar Float)} {capacity : Nat}

/-- What a feed does to a context. -/
inductive Action where
  | push (bar : Bar Float)
  | supply (key : String) (x : Float)

namespace Action

def apply (c : Context) : Action → Context
  | push bar => c.push bar
  | supply key x => c.supply key x

def bar? : Action → Option (Bar Float)
  | push bar => some bar
  | supply _ _ => none

/-- The readings supplied since the last bar, from the last of all actions backward. -/
def recent : List Action → List (String × Float)
  | supply key x :: earlier => (key, x) :: recent earlier
  | _ => []

end Action

def run (c : Context) (actions : List Action) : Context := actions.foldl Action.apply c

/-- The bars that a context has seen after its first one. -/
def seenIn (first : Bar Float) (actions : List Action) : List (Bar Float) :=
  first :: actions.filterMap Action.bar?

/-- The context has the last of these bars in view, and those before it that fit. -/
structure Shows (c : Context) (seen : List (Bar Float)) : Prop where
  nonempty : seen ≠ []
  bars : c.bars = seen.drop (seen.length - 1 - c.capacity)

theorem shows_start (first : Bar Float) (capacity : Nat) : (start first capacity).Shows [first] := by
  constructor
  · exact List.cons_ne_nil _ _
  · simp [start]

theorem Shows.length_bars (h : c.Shows seen) : c.bars.length = min seen.length (c.capacity + 1) := by
  have hpos := List.length_pos_iff.mpr h.nonempty
  rw [h.bars, List.length_drop]
  omega

theorem Shows.push (h : c.Shows seen) (bar : Bar Float) : (c.push bar).Shows (seen ++ [bar]) := by
  have hpos := List.length_pos_iff.mpr h.nonempty
  have hlength := h.length_bars
  constructor
  · simp
  · have hkept : (if c.capacity < c.bars.length then c.bars.tail else c.bars) =
        seen.drop (seen.length - c.capacity) := by
      split
      · -- The window is full, so its first bar leaves.
        rw [h.bars, List.tail_drop]
        congr 1
        omega
      · rw [h.bars]
        congr 1
        omega
    have hfits : seen.length - c.capacity ≤ seen.length := Nat.sub_le ..
    simp only [Context.push, hkept, List.length_append, List.length_singleton, Nat.add_sub_cancel]
    rw [List.drop_append_of_le_length hfits]

theorem Shows.supply (h : c.Shows seen) (key : String) (x : Float) : (c.supply key x).Shows seen :=
  ⟨h.nonempty, h.bars⟩

theorem Shows.run (h : c.Shows seen) (actions : List Action) :
    (c.run actions).Shows (seen ++ actions.filterMap Action.bar?) := by
  induction actions generalizing c seen with
  | nil => simpa [Context.run] using h
  | cons action rest ih =>
    cases action with
    | push bar =>
      rw [List.filterMap_cons_some (by rfl), List.append_cons]
      exact ih (h.push bar)
    | supply key x =>
      rw [List.filterMap_cons_none (by rfl)]
      exact ih (h.supply key x)

theorem shows_run_start (first : Bar Float) (capacity : Nat) (actions : List Action) :
    ((start first capacity).run actions).Shows (seenIn first actions) :=
  (shows_start first capacity).run actions

theorem Shows.getLast? (h : c.Shows seen) : seen.getLast? = some c.current := by
  have hpos := List.length_pos_iff.mpr h.nonempty
  rw [← c.isLast, h.bars, List.getLast?_drop, if_neg (by omega)]

/-- Only the supplied readings set a context apart from the one made from all its bars. -/
theorem Shows.ofBars?_eq (h : c.Shows seen) :
    ofBars? seen c.capacity = some { c with feed := Table.empty } := by
  have hlast := h.getLast?
  obtain ⟨bars, current, isLast, capacity, feed⟩ := c
  obtain ⟨hne, hbars⟩ := h
  dsimp only at hbars
  subst hbars
  unfold ofBars?
  split
  · next hnone => simp [hnone] at hlast
  · next last hsome =>
    obtain rfl : last = current := Option.some.inj (hsome.symm.trans hlast)
    rfl

theorem Shows.length_history (h : c.Shows seen) : c.history.length ≤ c.capacity := by
  have hlength := h.length_bars
  rw [history, List.length_dropLast]
  omega

@[simp] theorem supplied?_push (c : Context) (bar : Bar Float) (key : String) :
    (c.push bar).supplied? key = none := rfl

@[simp] theorem supplied?_start (first : Bar Float) (capacity : Nat) (key : String) :
    (start first capacity).supplied? key = none := rfl

theorem supplied?_supply (c : Context) (key : String) (x : Float) (other : String) :
    (c.supply key x).supplied? other = if key = other then some x else c.supplied? other := by
  simp [supplied?, supply, Table.find?_insert, eq_comm]

@[simp] theorem capacity_run (c : Context) (actions : List Action) :
    (c.run actions).capacity = c.capacity := by
  induction actions generalizing c with
  | nil => rfl
  | cons action rest ih =>
    cases action with
    | push bar => exact ih (c.push bar)
    | supply key x => exact ih (c.supply key x)

theorem run_concat (c : Context) (actions : List Action) (action : Action) :
    c.run (actions ++ [action]) = action.apply (c.run actions) := by
  simp [run]

/-- A key has the value that was supplied for it last, unless a bar came after it. -/
theorem supplied?_run_start (first : Bar Float) (capacity : Nat) (actions : List Action)
    (key : String) :
    ((start first capacity).run actions).supplied? key =
      Entries.find? key (Action.recent actions.reverse) := by
  -- The last action decides, so the induction takes actions off the end.
  induction actions using List.reverseRecOn with
  | nil => rfl
  | append_singleton actions action ih =>
    rw [run_concat, List.reverse_append, List.reverse_singleton, List.singleton_append]
    cases action with
    | push bar => rfl
    | supply other x =>
      rw [Action.apply, supplied?_supply, Action.recent, Entries.find?, ih]

end SignalEvolution.Context

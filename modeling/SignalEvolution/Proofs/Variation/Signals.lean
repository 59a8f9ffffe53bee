import SignalEvolution.Proofs.Variation.Bounds

/-! # Random signals

A random tree keeps to its budget of levels. A signal is a comparison on top of numbers: its
operands are drawn with one level less, by a draw that knows the arithmetic operators only. There is
no tree where a constant is asked for and the range of the generator has none to draw.
-/
namespace SignalEvolution

open Draw (Always)
open PartialDraw (Unless)

variable {σ : Type} [WordSource σ] {g : Generator}

/-- Kinds of nodes that stand for numbers and take none but numbers. -/
def Kind.Numeric : Kind → Prop
  | .operator op => op.family = .arithmetic
  | .comparator _ => False
  | .indicator _ _ => True
  | .constant _ => True
  | .series _ => True

namespace Generator

theorem terminal_numeric : Unless (g.terminal : PartialDraw σ Tree) (¬ g.Ready) (Tree.Every Kind.Numeric) :=
  terminal_unless (fun _ => Tree.every_leaf trivial) (constant_unless fun _ => Tree.every_leaf trivial)

theorem indicator_numeric : Always (g.indicator : Draw σ Tree) (Tree.Every Kind.Numeric) := by
  apply Always.after
  intro n
  apply Always.after
  intro params
  exact Always.pure (Tree.every_leaf trivial)

omit [WordSource σ] in
theorem family_of_mem_arithmetic {op : Operator} (h : op ∈ arithmetic) : op.family = .arithmetic := by
  simpa using (List.mem_filter.mp h).2

theorem numeric_every (budget : Nat) :
    Unless (g.numeric budget : PartialDraw σ Tree) (¬ g.Ready) (Tree.Every Kind.Numeric) :=
  numeric_unless (P := fun _ => Tree.Every Kind.Numeric) (fun _ => terminal_numeric)
    (fun _ => indicator_numeric)
    (fun _ _ _ hop _ hcs => Tree.every_iff.mpr ⟨family_of_mem_arithmetic hop, hcs⟩) budget

/-- With room for a comparison a signal is one, of two numeric trees. -/
theorem signal_compares (h : 2 ≤ g.maxDepth) :
    Unless (g.signal : PartialDraw σ Tree) (¬ g.Ready) fun t =>
      ∃ cmp left right, t = Tree.compare cmp left right ∧
        left.Every Kind.Numeric ∧ right.Every Kind.Numeric := by
  apply Unless.ite
  · intro hshallow
    omega
  · intro _
    apply Unless.after
    intro cmp
    apply (numeric_every (g.maxDepth - 1)).bind
    intro left hleft
    apply (numeric_every (g.maxDepth - 1)).bind
    intro right hright
    exact Unless.pure ⟨_, left, right, rfl, hleft, hright⟩

/-- A high word asks for a constant. -/
theorem terminal_breaks_off (h : ¬ g.Ready) (words : List UInt64) (state : UInt64) :
    g.terminal.run (⟨0xFFFFFFFFFFFFFFFF :: words, state⟩ : ListedWords) = none := by
  change ((Draw.below g.constantLow g.constantHigh).run (⟨words, state⟩ : ListedWords)).bind _ = none
  rw [Draw.below, if_neg h]
  rfl

/-- With levels to spare, it asks for a terminal first. -/
theorem roll_high (d : PartialDraw ListedWords Tree) (words : List UInt64) (state : UInt64) :
    StateT.run (do
      let roll ← Draw.unit.sure
      if roll < functionShare then d
      else if roll < functionShare + indicatorShare then g.indicator.sure
      else g.terminal) (⟨0xFFFFFFFFFFFFFFFF :: words, state⟩ : ListedWords) =
    g.terminal.run (⟨words, state⟩ : ListedWords) := by
  let roll := ((0xFFFFFFFFFFFFFFFF : UInt64) >>> 11).toFloat * Float.ofBits 0x3ca0000000000000
  have hfunction : ¬ roll < functionShare := by decide +kernel
  have hindicator : ¬ roll < functionShare + indicatorShare := by decide +kernel
  have hroll : (Draw.unit.sure : PartialDraw ListedWords Float).run
      ⟨0xFFFFFFFFFFFFFFFF :: words, state⟩ = some (roll, ⟨words, state⟩) := rfl
  rw [StateT.run_bind, hroll, Option.bind_eq_bind, Option.bind_some, if_neg hfunction, if_neg hindicator]

theorem tree_breaks_off (h : ¬ g.Ready) (budget : Nat) (words : List UInt64) (state : UInt64) :
    (g.tree budget).run
      (⟨0xFFFFFFFFFFFFFFFF :: 0xFFFFFFFFFFFFFFFF :: words, state⟩ : ListedWords) = none := by
  match budget with
  | 0 | 1 => exact terminal_breaks_off h _ state
  | n + 2 => exact (roll_high _ _ state).trans (terminal_breaks_off h _ state)

theorem numeric_breaks_off (h : ¬ g.Ready) (budget : Nat) (words : List UInt64) (state : UInt64) :
    (g.numeric budget).run
      (⟨0xFFFFFFFFFFFFFFFF :: 0xFFFFFFFFFFFFFFFF :: words, state⟩ : ListedWords) = none := by
  match budget with
  | 0 | 1 => exact terminal_breaks_off h _ state
  | n + 2 => exact (roll_high _ _ state).trans (terminal_breaks_off h _ state)

/-- The first word is for the comparator, the others for its left operand. -/
theorem signal_breaks_off (h : ¬ g.Ready) (hroom : 2 ≤ g.maxDepth) (words : List UInt64) (state : UInt64) :
    g.signal.run (⟨0 :: 0xFFFFFFFFFFFFFFFF :: 0xFFFFFFFFFFFFFFFF :: words, state⟩ : ListedWords) = none := by
  have hcomparator : ((Draw.choose? Comparator.all).sure : PartialDraw ListedWords (Option Comparator)).run
      ⟨0 :: 0xFFFFFFFFFFFFFFFF :: 0xFFFFFFFFFFFFFFFF :: words, state⟩ =
      some (some .greater, ⟨0xFFFFFFFFFFFFFFFF :: 0xFFFFFFFFFFFFFFFF :: words, state⟩) := by rfl
  rw [signal, if_neg (Nat.not_lt.mpr hroom), StateT.run_bind, hcomparator, Option.bind_eq_bind,
    Option.bind_some, StateT.run_bind, numeric_breaks_off h]
  rfl

end Generator

theorem Tree.numeric_below_compare {cmp : Comparator} {left right u : Tree} {p : Path}
    (hleft : left.Every Kind.Numeric) (hright : right.Every Kind.Numeric) (hp : p ≠ [])
    (hget : (compare cmp left right).get? p = some u) : u.kind.Numeric := by
  cases p with
  | nil => exact absurd rfl hp
  | cons i rest =>
    obtain ⟨c, hc, hu⟩ := Option.bind_eq_some_iff.mp hget
    have hoperand : c = left ∨ c = right := by simpa using List.mem_of_getElem? hc
    rcases hoperand with rfl | rfl
    · exact (hleft.get? hu).kind
    · exact (hright.get? hu).kind

/-- Unless its generator has no range to draw a constant from, there is a random tree for all words.
Such a tree has no more levels than its budget, or one if that is none. With two levels or more, a
signal is a comparison at its root and nowhere else: every other node is an arithmetic operator, an
indicator, a constant or a series; and it keeps to the levels of its generator. Without such a range
there are words for which there is no tree. -/
theorem Generator.signals_compare_numbers (g : Generator) :
    (∀ budget, Unless (g.tree budget : PartialDraw σ Tree) (¬ g.Ready) fun t => t.depth ≤ max budget 1) ∧
    (2 ≤ g.maxDepth → Unless (g.signal : PartialDraw σ Tree) (¬ g.Ready) fun t =>
      (∃ cmp, t.kind = .comparator cmp) ∧
      (∀ p u, p ≠ [] → t.get? p = some u → u.kind.Numeric) ∧
      t.depth ≤ g.maxDepth) ∧
    (¬ g.Ready → (∀ budget, ∃ words : ListedWords, (g.tree budget).run words = none) ∧
      (2 ≤ g.maxDepth → ∃ words : ListedWords, g.signal.run words = none)) := by
  refine ⟨tree_depth, ?_, ?_⟩
  · intro hroom
    apply ((signal_compares hroom).and signal_depth).imp
    rintro t ⟨⟨cmp, left, right, rfl, hleft, hright⟩, hdepth⟩
    refine ⟨⟨cmp, rfl⟩, ?_, by omega⟩
    intro p u hp hget
    exact Tree.numeric_below_compare hleft hright hp hget
  · intro hoff
    exact ⟨fun budget => ⟨_, tree_breaks_off hoff budget [] 0⟩,
      fun hroom => ⟨_, signal_breaks_off hoff hroom [] 0⟩⟩

/-- The generator of the default settings. -/
theorem Generator.signals_compare_numbers_default :
    let g := ofSettings .default
    2 ≤ g.maxDepth ∧ Unless (g.signal : PartialDraw ListedWords Tree) False fun t =>
      (∃ cmp, t.kind = .comparator cmp) ∧
      (∀ p u, p ≠ [] → t.get? p = some u → u.kind.Numeric) ∧
      t.depth ≤ g.maxDepth := by
  intro g
  have hroom : 2 ≤ g.maxDepth := by
    rw [ofSettings_maxDepth]
    decide
  have hready : g.Ready := by decide +kernel
  exact ⟨hroom, ((signals_compare_numbers g).2.1 hroom).total (not_not_intro hready)⟩

/-- A range without an upper end is taken, and there is no constant to draw from it. -/
theorem Generator.signals_compare_numbers_wide_range :
    let g := (ofDepth 2).withConstants 200 (1 / 0)
    g.constantLow < g.constantHigh ∧ 2 ≤ g.maxDepth ∧
    (∃ words : ListedWords, (g.tree 1).run words = none) ∧
    ∃ words : ListedWords, g.signal.run words = none := by
  intro g
  have hoff : ¬ g.Ready := by decide +kernel
  exact ⟨by decide +kernel, by decide +kernel, ⟨_, tree_breaks_off hoff 1 [] 0⟩,
    ⟨_, signal_breaks_off hoff (by decide +kernel) [] 0⟩⟩

end SignalEvolution

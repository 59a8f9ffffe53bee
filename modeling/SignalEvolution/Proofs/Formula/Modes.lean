import Mathlib
import SignalEvolution.Formula.Reader

/-! # The two modes

Lenient reading has an answer where strict reading gives up, and nowhere else another one:
what strict reading makes of an argument, an operand, a clause or a formula, lenient reading
makes of it too.
-/
namespace SignalEvolution.Formula

variable {α β : Type} {strict lenient : Except Problem α} {i : Indicator} {op : Operator}

/-- Whatever the strict result is, the lenient one is the same; a strict problem is left open. -/
def Fills (lenient strict : Except Problem α) : Prop := ∀ x, strict = .ok x → lenient = .ok x

theorem fills_self (r : Except Problem α) : Fills r r := fun _ h => h

theorem fills_error (p : Problem) : Fills lenient (.error p) := by
  intro x h
  cases h

theorem Fills.bind {f g : α → Except Problem β} (h : Fills lenient strict) (hf : ∀ x, Fills (f x) (g x)) :
    Fills (lenient >>= f) (strict >>= g) := by
  cases strict with
  | error p => exact fills_error p
  | ok x =>
    rw [h x rfl]
    exact hf x

theorem Fills.map (h : Fills lenient strict) (f : α → β) : Fills (lenient.map f) (strict.map f) := by
  cases strict with
  | error p => exact fills_error p
  | ok x =>
    rw [h x rfl]
    exact fills_self _

theorem fallback_fills (reason : String) (cs ds : List Char) :
    Fills (fallback .lenient reason cs) (fallback .strict reason ds) := fills_error _

theorem storeArgument_fills (params : Table Float) (position : Nat) (arg : List Char) :
    Fills (storeArgument .lenient i params position arg) (storeArgument .strict i params position arg) := by
  unfold storeArgument
  cases argumentTarget? i.specs position arg with
  | none => exact fills_error _
  | some target =>
    obtain ⟨key, value⟩ := target
    dsimp only
    cases finite? value with
    | none => exact fills_error _
    | some x => exact fills_self _

theorem storeArguments_fills (args : List (List Char)) (position : Nat) (params : Table Float) :
    Fills (storeArguments .lenient i params position args)
      (storeArguments .strict i params position args) := by
  induction args generalizing position params with
  | nil => exact fills_self _
  | cons arg args ih => exact (storeArgument_fills _ _ _).bind fun stored => ih _ stored

theorem indicatorCall_fills (source name args : List Char) :
    Fills (indicatorCall .lenient source name args) (indicatorCall .strict source name args) := by
  unfold indicatorCall
  cases Indicator.find? name with
  | none => exact fallback_fills _ _ _
  | some i => exact (storeArguments_fills _ _ _).bind fun params => fills_self _

theorem operand_fills (cs : List Char) : Fills (operand .lenient cs) (operand .strict cs) := by
  unfold operand
  dsimp only
  split
  · exact fallback_fills _ _ _
  · split
    · exact fills_self _
    · exact fills_self _
    · exact indicatorCall_fills _ _ _
    · exact fallback_fills _ _ _

theorem clause_fills (source inner : List Char) :
    Fills (clause .lenient source inner) (clause .strict source inner) := by
  unfold clause
  split
  · exact fallback_fills _ _ _
  · cases comparison? inner with
    | none => exact fills_error _
    | some cut =>
      obtain ⟨left, cmp, right⟩ := cut
      exact (operand_fills left).bind fun a => (operand_fills right).bind fun b => fills_self _

mutual
theorem tree_fills : ∀ o : Outline, Fills (o.tree .lenient) (o.tree .strict)
  | .blank source => fallback_fills _ source source
  | .clause source inner => clause_fills source inner
  | .joined source mixed op parts => by
    unfold Outline.tree
    cases mixed with
    | true => exact fills_error _
    | false => exact (trees_fills parts).map (join op)
theorem trees_fills : ∀ os : List Outline, Fills (Outline.trees .lenient os) (Outline.trees .strict os)
  | [] => fills_self _
  | o :: os => (tree_fills o).bind fun _ => (trees_fills os).bind fun _ => fills_self _
end

/-- A text that strict reading accepts is read as the same tree by lenient reading, and so is every part
of a text: the outlines nested in it, their clauses and the operands of these. -/
theorem lenient_reads_strict_texts :
    (∀ s t, parse .strict s = .ok t → parse .lenient s = .ok t) ∧
    (∀ (o : Outline) t, o.tree .strict = .ok t → o.tree .lenient = .ok t) ∧
    (∀ source inner t, clause .strict source inner = .ok t → clause .lenient source inner = .ok t) ∧
    ∀ cs t, operand .strict cs = .ok t → operand .lenient cs = .ok t :=
  ⟨fun s => tree_fills (outline s.toList), tree_fills, clause_fills, operand_fills⟩

set_option maxRecDepth 4000 in
/-- Two clauses under OR stand in parentheses before an AND. -/
theorem lenient_reads_strict_texts_nested :
    (∃ t, parse .strict "(close > open OR high < low) and volume >= low" = .ok t ∧
      parse .lenient "(close > open OR high < low) and volume >= low" = .ok t) ∧
    (∃ t, (outline "close > open OR high < low".toList).tree .strict = .ok t ∧
      (outline "close > open OR high < low".toList).tree .lenient = .ok t) ∧
    (∃ t, clause .strict " close > open".toList "close > open".toList = .ok t ∧
      clause .lenient " close > open".toList "close > open".toList = .ok t) ∧
    ∃ t, operand .strict "(close)".toList = .ok t ∧ operand .lenient "(close)".toList = .ok t := by
  obtain ⟨hparse, houtline, hclause, hoperand⟩ := lenient_reads_strict_texts
  have hrising : clause .strict " close > open".toList "close > open".toList =
      .ok (.compare .greater (.series .close) (.series .opening)) := by cbv
  have hnested : (outline "close > open OR high < low".toList).tree .strict =
      .ok (.either (.compare .greater (.series .close) (.series .opening))
        (.compare .less (.series .high) (.series .low))) := by cbv
  have hwhole : parse .strict "(close > open OR high < low) and volume >= low" =
      .ok (.both (.either (.compare .greater (.series .close) (.series .opening))
        (.compare .less (.series .high) (.series .low)))
        (.compare .greaterEqual (.series .volume) (.series .low))) := by cbv
  have hclose : operand .strict "(close)".toList = .ok (.series .close) := by cbv
  exact ⟨⟨_, hwhole, hparse _ _ hwhole⟩, ⟨_, hnested, houtline _ _ hnested⟩,
    ⟨_, hrising, hclause _ _ _ hrising⟩, _, hclose, hoperand _ _ hclose⟩

end SignalEvolution.Formula

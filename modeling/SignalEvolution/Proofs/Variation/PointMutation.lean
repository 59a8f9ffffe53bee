import SignalEvolution.Proofs.Variation.Edit
import SignalEvolution.Tree.Evaluation

/-! # What a point mutation leaves as it was

A node decides by its kind alone whether its value is a truth value or a number, whatever the
values of its children are. A point mutation puts a kind of the same sort at one path and keeps
all paths and all other kinds, so the mutated tree answers with the sort of value that the tree
before it answers with.
-/
namespace SignalEvolution

open Draw (Always)

variable {σ : Type} [WordSource σ] {k l : Kind}

def Value.isTruth : Value → Bool
  | truth _ => true
  | number _ => false

theorem Operator.isTruth_value (op : Operator) (args : List Value) :
    (op.value args).isTruth = (op.family == .logical) := by
  unfold Operator.value
  split
  case h_8 =>
    split
    · next hlogical => rw [hlogical]; rfl
    · next harithmetic => simpa [Value.isTruth] using harithmetic
  all_goals rfl

theorem Kind.isTruth_value (c : Context) (args : List Value) (k : Kind) :
    (k.value c args).isTruth = k.isLogical := by
  cases k with
  | operator op => exact op.isTruth_value args
  | comparator cmp =>
    unfold Kind.value
    dsimp only
    split <;> rfl
  | indicator i params => rfl
  | constant x => rfl
  | series s => rfl

theorem Tree.isTruth_value (c : Context) (t : Tree) : (t.value c).isTruth = t.kind.isLogical := by
  cases t with
  | node k cs => rw [value_node, Kind.isTruth_value, kind]

namespace Kind

/-- The family of an operator. -/
def family? : Kind → Option OperatorFamily
  | operator op => some op.family
  | _ => none

namespace Akin

variable (h : k.Akin l)

include h

theorem exists_operator {op : Operator} (hk : k = operator op) : ∃ other, l = operator other := by
  have htype := h.nodeType
  subst hk
  cases l with
  | operator other => exact ⟨other, rfl⟩
  | _ => cases htype

/-- Operators of one sort are of one family, which their values tell. -/
theorem family?_eq : l.family? = k.family? := by
  have htype := h.nodeType
  cases k with
  | operator op =>
    obtain ⟨other, rfl⟩ := h.exists_operator rfl
    have hlogical : (other.family == .logical) = (op.family == .logical) := h.isLogical
    rw [family?, family?, Option.some_inj]
    cases hother : other.family <;> cases hop : op.family <;> simp_all
  | _ =>
    cases l with
    | operator other => cases htype
    | _ => rfl

theorem eq_not (hk : k = operator .not) : l = operator .not := by
  obtain ⟨other, rfl⟩ := h.exists_operator hk
  have harity : other.arity = 1 := by
    have hl := h.arity
    rwa [hk] at hl
  cases other with
  | not => rfl
  | _ => cases harity

end Akin
end Kind

namespace Tree

variable {s : EvolutionSettings}

theorem pointMutation_edit (s : EvolutionSettings) (t : Tree) :
    Always (t.pointMutation s : Draw σ Tree) fun u =>
      ∃ path old kind, old.kind.Akin kind ∧ Edit t u path old (node kind old.children) := by
  apply (pointMutation_result s (mutateKind_akin s) t).imp
  rintro u (rfl | ⟨path, -, old, hold, kind, hakin, rfl⟩)
  · have hsame : node u.kind u.children = u := by
      cases u
      rfl
    refine ⟨[], u, u.kind, Kind.akin_self _, ?_⟩
    rw [hsame]
    exact edit_iff.mpr (replaceAt?_nil_eq_some_iff.mpr ⟨rfl, rfl⟩)
  · exact ⟨path, old, kind, hakin, edit_graft hold _⟩

/-- The root of a tree stays of its sort where one node becomes another of its sort. -/
theorem Edit.akin_kind {t u old : Tree} {path : Path} (h : Edit t u path old (node k old.children))
    (hakin : old.kind.Akin k) : t.kind.Akin u.kind := by
  by_cases hpath : path = []
  · subst hpath
    obtain ⟨hold, hnew⟩ := h.kindAt?_self
    rw [kindAt?_nil, Option.some_inj] at hold hnew
    rw [hold, hnew]
    exact hakin
  · have hroot := h.kindAt?_eq (p := []) (Ne.symm hpath)
    rw [kindAt?_nil, kindAt?_nil, Option.some_inj] at hroot
    rw [hroot]
    exact Kind.akin_self _

/-- A point mutation keeps all paths of a tree and the kinds at all of them but one. There the
node stays of its sort, with as many operands, and an operator stays in its family; NOT stays
NOT. So in every context the value of the tree stays a truth value or stays a number. -/
theorem pointMutation_keeps_sort (s : EvolutionSettings) (t : Tree) (w : σ) :
    let u := ((t.pointMutation s).run w).1
    u.paths = t.paths ∧
    (∃ path ∈ t.paths, ∃ k l, t.kindAt? path = some k ∧ u.kindAt? path = some l ∧
      (∀ p, p ≠ path → u.kindAt? p = t.kindAt? p) ∧
      l.nodeType = k.nodeType ∧ l.arity = k.arity ∧ l.family? = k.family? ∧
      l.isLogical = k.isLogical ∧ (k = .operator .not → l = .operator .not)) ∧
    ∀ c, (u.value c).isTruth = (t.value c).isTruth := by
  intro u
  obtain ⟨path, old, kind, hakin, hedit⟩ := (pointMutation_edit s t).holds w
  have hgraft : u = t.graft path (node kind old.children) := hedit.eq_graft
  refine ⟨?_, ?_, ?_⟩
  · rw [hgraft]
    exact paths_graft hedit.there (paths_withKind old kind)
  · obtain ⟨hold, hnew⟩ := hedit.kindAt?_self
    exact ⟨path, mem_paths_iff.mpr ⟨old, hedit.there⟩, old.kind, kind, hold, hnew,
      fun p hp => hedit.kindAt?_eq hp, hakin.nodeType, hakin.arity, hakin.family?_eq, hakin.isLogical,
      hakin.eq_not⟩
  · intro c
    rw [isTruth_value, isTruth_value]
    exact (hedit.akin_kind hakin).isLogical

end Tree
end SignalEvolution

import SignalEvolution.Proofs.Random.Partial
import SignalEvolution.Proofs.Tree.Size
import SignalEvolution.Variation.Operators

/-! # What the operators give

A random tree is drawn level by level. Each operator picks places in its trees and edits
them there, and its result is described by the places and the edit: what holds of the edit
holds of the operator.
-/
namespace SignalEvolution

open Draw (Always)
open PartialDraw (Unless)

variable {σ : Type} [WordSource σ] {s : EvolutionSettings} {g : Generator} {t u : Tree}

namespace Generator

/-- Constants can be drawn from the range of the generator. -/
abbrev Ready (g : Generator) : Prop := Draw.Drawable g.constantLow g.constantHigh

variable {P : Nat → Tree → Prop} {d : PartialDraw σ Tree} {budget : Nat} {off : Prop}

/-- The roll that settles the kind of a node with more than one level left. -/
theorem roll_unless {Q : Tree → Prop} (hd : d.Unless off Q)
    (hindicator : Always (g.indicator : Draw σ Tree) Q) (hterminal : Unless (g.terminal : PartialDraw σ Tree) off Q) :
    Unless (do
      let roll ← Draw.unit.sure
      if roll < functionShare then d
      else if roll < functionShare + indicatorShare then g.indicator.sure
      else g.terminal) off Q := by
  apply Unless.after
  intro roll
  apply Unless.ite
  · intro _
    exact hd
  · intro _
    apply Unless.ite
    · intro _
      exact .sure hindicator
    · intro _
      exact hterminal

omit [WordSource σ] in
theorem node_unless {k : Kind} (h : d.Unless off (P budget))
    (hnode : ∀ cs, cs.length = k.arity → (∀ c ∈ cs, P budget c) → P (budget + 1) (.node k cs)) :
    Unless (do return Tree.node k (← d.times k.arity)) off (P (budget + 1)) := by
  apply (h.times k.arity).bind
  rintro cs ⟨hlength, hcs⟩
  exact Unless.pure (hnode cs hlength hcs)

/-- What holds of the leaves and passes from children to a node with one level more holds of
every random tree. -/
theorem tree_unless (hterminal : ∀ budget, Unless (g.terminal : PartialDraw σ Tree) off (P budget))
    (hindicator : ∀ budget, Always (g.indicator : Draw σ Tree) (P budget))
    (hnode : ∀ n k cs, k ∈ functions → cs.length = k.arity → (∀ c ∈ cs, P (n + 1) c) →
      P (n + 2) (.node k cs))
    (budget : Nat) : Unless (g.tree budget : PartialDraw σ Tree) off (P budget) := by
  induction budget with
  | zero => exact hterminal 0
  | succ n ih =>
    cases n with
    | zero => exact hterminal 1
    | succ n =>
      apply roll_unless
      · apply Unless.draw (Always.index_lt (by decide))
        intro i hi
        have hmem : functions.getD i default ∈ functions := by
          rw [List.getD_eq_getElem?_getD, List.getElem?_eq_getElem hi]
          exact List.getElem_mem hi
        exact node_unless ih fun cs => hnode n _ cs hmem
      · exact hindicator _
      · exact hterminal _

theorem numeric_unless (hterminal : ∀ budget, Unless (g.terminal : PartialDraw σ Tree) off (P budget))
    (hindicator : ∀ budget, Always (g.indicator : Draw σ Tree) (P budget))
    (hnode : ∀ n op cs, op ∈ arithmetic → cs.length = op.arity → (∀ c ∈ cs, P (n + 1) c) →
      P (n + 2) (.node (.operator op) cs))
    (budget : Nat) : Unless (g.numeric budget : PartialDraw σ Tree) off (P budget) := by
  induction budget with
  | zero => exact hterminal 0
  | succ n ih =>
    cases n with
    | zero => exact hterminal 1
    | succ n =>
      apply roll_unless
      · apply Unless.draw (Always.choose?_mem arithmetic)
        intro op hop
        have hmem : op.getD .add ∈ arithmetic := by
          cases op with
          | none => decide
          | some op => exact hop op rfl
        exact node_unless (k := .operator (op.getD .add)) ih fun cs => hnode n _ cs hmem
      · exact hindicator _
      · exact hterminal _

theorem signal_unless {P : Tree → Prop} (htree : ∀ budget, Unless (g.tree budget : PartialDraw σ Tree) off P)
    (hnumeric : ∀ budget, Unless (g.numeric budget : PartialDraw σ Tree) off P)
    (hcompare : ∀ cmp left right, P left → P right → P (Tree.compare cmp left right)) :
    Unless (g.signal : PartialDraw σ Tree) off P := by
  apply Unless.ite
  · intro _
    exact htree g.maxDepth
  · intro _
    apply Unless.after
    intro cmp
    apply (hnumeric (g.maxDepth - 1)).bind
    intro left hleft
    apply (hnumeric (g.maxDepth - 1)).bind
    intro right hright
    exact Unless.pure (hcompare _ left right hleft hright)

/-- A terminal is a series, or a constant if constants can be drawn. -/
theorem terminal_unless {Q : Tree → Prop} (hseries : ∀ x, Q (Tree.series x))
    (hconstant : Unless (g.constant : PartialDraw σ Tree) off Q) :
    Unless (g.terminal : PartialDraw σ Tree) off Q := by
  apply Unless.after
  intro heads
  apply Unless.ite
  · intro _
    apply Unless.sure
    apply Always.after
    intro x
    exact Always.pure (hseries _)
  · intro _
    exact hconstant

theorem constant_unless {Q : Tree → Prop} (h : ∀ x, Q (Tree.constant x)) :
    Unless (g.constant : PartialDraw σ Tree) (¬ g.Ready) Q := by
  have hbelow : Unless (Draw.below g.constantLow g.constantHigh : PartialDraw σ Float) (¬ g.Ready) fun _ => True :=
    Unless.ite (fun _ => .sure (.trivial _)) fun hoff => .failure hoff
  apply hbelow.bind
  intro x _
  exact Unless.pure (h _)

end Generator

/-- Two kinds of the same sort, with as many children and with values of the same sort. -/
structure Kind.Akin (k l : Kind) : Prop where
  nodeType : l.nodeType = k.nodeType
  arity : l.arity = k.arity
  isLogical : l.isLogical = k.isLogical

namespace Kind

theorem akin_siblings {op other : Operator} (h : other ∈ op.siblings) :
    (operator op).Akin (operator other) := by
  have hsibling := (List.mem_filter.mp h).2
  simp only [decide_eq_true_eq] at hsibling
  obtain ⟨-, hfamily, harity⟩ := hsibling
  constructor
  · rfl
  · exact harity
  · rw [isLogical, isLogical, hfamily]

theorem akin_self (k : Kind) : k.Akin k := ⟨rfl, rfl, rfl⟩

end Kind

namespace Tree

theorem perturb_akin (i : Indicator) (name : String) (params : Table Float) :
    Always (perturb i params : Draw σ (Option Kind)) fun out => ∀ l ∈ out,
      (Kind.indicator name params).Akin l := by
  apply Always.after
  intro spec
  cases spec with
  | none => exact Always.nothing
  | some spec =>
    apply Always.after
    intro factor
    exact Always.pure (by rintro l ⟨⟩; exact ⟨rfl, rfl, rfl⟩)

theorem exchange_akin (i : Indicator) (name : String) (params : Table Float) :
    Always (exchange i params : Draw σ (Option Kind)) fun out => ∀ l ∈ out,
      (Kind.indicator name params).Akin l := by
  apply Always.after
  intro other
  cases other with
  | none => exact Always.nothing
  | some other => exact Always.pure (by rintro l ⟨⟩; exact ⟨rfl, rfl, rfl⟩)

/-- What holds of the indicator as it is, if it stays, and of whatever it is perturbed or exchanged to. -/
theorem mutateIndicator_result {P : Kind → Prop} {name : String} {params : Table Float}
    (hstays : P (.indicator name params))
    (hperturb : ∀ i, Indicator.find? name.toList = some i →
      Always (perturb i params : Draw σ (Option Kind)) fun out => ∀ l ∈ out, P l)
    (hexchange : ∀ i, Indicator.find? name.toList = some i →
      Always (exchange i params : Draw σ (Option Kind)) fun out => ∀ l ∈ out, P l) :
    Always (mutateIndicator name params : Draw σ Kind) P := by
  have hgetD : ∀ out : Option Kind, (∀ l ∈ out, P l) → P (out.getD (.indicator name params)) := by
    intro out hout
    cases out with
    | none => exact hstays
    | some l => exact hout l rfl
  unfold mutateIndicator
  split
  · exact Always.pure hstays
  · next i hfind =>
    apply Always.after
    intro perturbed
    refine Always.bind (P := fun out => ∀ l ∈ out, P l) ?_ fun out hout => Always.pure (hgetD out hout)
    cases perturbed with
    | true => exact hperturb i hfind
    | false => exact hexchange i hfind

/-- A kind is changed to one of the same sort; only indicators are drawn in more than one step. -/
theorem mutateKind_result {R : Kind → Kind → Prop} (hconstant : ∀ x y, R (.constant x) (.constant y))
    (hseries : ∀ x y, R (.series x) (.series y))
    (hoperator : ∀ op, ∀ other ∈ op :: op.siblings, R (.operator op) (.operator other))
    (hcomparator : ∀ cmp other, R (.comparator cmp) (.comparator other))
    (hindicator : ∀ name params,
      Always (mutateIndicator name params : Draw σ Kind) (R (.indicator name params)))
    (s : EvolutionSettings) (k : Kind) : Always (mutateKind s k : Draw σ Kind) (R k) := by
  cases k with
  | constant x =>
    apply Always.after
    intro delta
    exact Always.pure (hconstant _ _)
  | series x =>
    apply Always.after
    intro other
    exact Always.pure (hseries _ _)
  | indicator name params => exact hindicator name params
  | operator op =>
    apply (Always.choose?_mem op.siblings).bind
    intro other hother
    apply Always.pure
    cases other with
    | none => exact hoperator op op List.mem_cons_self
    | some other => exact hoperator op other (List.mem_cons_of_mem _ (hother other rfl))
  | comparator cmp =>
    apply Always.after
    intro other
    exact Always.pure (hcomparator _ _)

theorem mutateKind_akin (s : EvolutionSettings) (k : Kind) :
    Always (mutateKind s k : Draw σ Kind) fun l => k.Akin l := by
  apply mutateKind_result
  case hconstant => exact fun _ _ => ⟨rfl, rfl, rfl⟩
  case hseries => exact fun _ _ => ⟨rfl, rfl, rfl⟩
  case hcomparator => exact fun _ _ => ⟨rfl, rfl, rfl⟩
  case hoperator =>
    intro op other hother
    rcases List.mem_cons.mp hother with rfl | hother
    · exact Kind.akin_self _
    · exact Kind.akin_siblings hother
  case hindicator =>
    intro name params
    exact mutateIndicator_result (Kind.akin_self _) (fun i _ => perturb_akin i name params)
      fun i _ => exchange_akin i name params

theorem graft_nil (t new : Tree) : t.graft [] new = new := by
  cases t with
  | node k cs => rfl

theorem graft_cons {k : Kind} {cs : List Tree} {c old : Tree} {i : Nat} {p : Path}
    (hc : cs[i]? = some c) (hold : c.get? p = some old) (new : Tree) :
    (node k cs).graft (i :: p) new = node k (cs.set i (c.graft p new)) := by
  obtain ⟨out, hout, -⟩ := replaceAt?_of_get? hold new
  simp [graft, replaceAt?, hc, hout]

theorem graft_of_get?_none {p : Path} (h : t.get? p = none) (new : Tree) : t.graft p new = t := by
  simp [graft, replaceAt?_of_get?_none h]

/-- The new kind stands to the old one as every kind does to what it is changed to. -/
theorem pointMutation_result {R : Kind → Kind → Prop} (s : EvolutionSettings)
    (hkind : ∀ k, Always (mutateKind s k : Draw σ Kind) (R k)) (t : Tree) :
    Always (t.pointMutation s : Draw σ Tree) fun u => u = t ∨
      ∃ path ∈ t.paths, ∃ target, t.get? path = some target ∧
        ∃ kind, R target.kind kind ∧ u = t.graft path (.node kind target.children) := by
  apply (Always.choose?_mem t.paths).bind
  intro path hpath
  cases path with
  | none => exact Always.pure (.inl rfl)
  | some path =>
    dsimp only
    cases hget : t.get? path with
    | none => exact Always.pure (.inl rfl)
    | some target =>
      apply (hkind target.kind).bind
      intro kind hkind
      apply Always.pure
      exact .inr ⟨path, hpath path rfl, target, hget, kind, hkind, rfl⟩

/-- The levels that a path leaves to what is drawn at its end. -/
def budgetAt (s : EvolutionSettings) (path : Path) : Nat :=
  Nat.max (s.maxDepth + 1 - (path.length + 1)) 1

/-- The new subtree is drawn by the generator, so it has what the generator always gives. -/
theorem subtreeMutation_result {P : Nat → Tree → Prop} {off : Prop}
    (htree : ∀ budget, Unless (g.tree budget : PartialDraw σ Tree) off (P budget)) (s : EvolutionSettings)
    (t : Tree) :
    Unless (t.subtreeMutation s g : PartialDraw σ (Option Tree)) off fun out => ∀ u ∈ out,
      ∃ path ∈ t.innerPaths, ∃ new, P (budgetAt s path) new ∧ u = t.graft path new ∧
        u.nodeCount ≤ s.maxNodes := by
  apply Unless.draw (Always.choose?_mem t.innerPaths)
  intro path hpath
  cases path with
  | none => exact Unless.nothing
  | some path =>
    apply (htree (budgetAt s path)).bind
    intro new hnew
    apply Unless.pure
    intro u hu
    split at hu
    · simp at hu
    · next hfits =>
      obtain rfl : t.graft path new = u := by simpa using hu
      exact ⟨path, hpath path rfl, new, hnew, rfl, Nat.not_lt.mp hfits⟩

theorem crossover_result (s : EvolutionSettings) (a b : Tree) :
    Always (crossover s a b : Draw σ (Option (Tree × Tree))) fun out => ∀ pair ∈ out,
      ∃ pathA ∈ a.innerPaths, ∃ pathB ∈ b.innerPaths, ∃ subA subB,
        a.get? pathA = some subA ∧ b.get? pathB = some subB ∧
        pair = (a.graft pathA subB, b.graft pathB subA) ∧
        s.admits pair.1 = true ∧ s.admits pair.2 = true := by
  apply (Always.choose?_mem a.innerPaths).bind
  intro pathA hpathA
  cases pathA with
  | none => exact Always.nothing
  | some pathA =>
    apply (Always.choose?_mem b.innerPaths).bind
    intro pathB hpathB
    cases pathB with
    | none => exact Always.nothing
    | some pathB =>
      dsimp only
      split
      · next subA subB hA hB =>
        apply Always.guarded
        intro hadmit
        obtain ⟨hfirst, hsecond⟩ := Bool.and_eq_true_iff.mp hadmit
        exact ⟨pathA, hpathA pathA rfl, pathB, hpathB pathB rfl, subA, subB, hA, hB, rfl, hfirst,
          hsecond⟩
      · exact Always.nothing

theorem transposition_result (s : EvolutionSettings) (t : Tree) :
    Always (t.transposition s : Draw σ (Option Tree)) fun out => ∀ u ∈ out,
      ∃ path ∈ t.innerPaths, ∃ source, t.get? path = some source ∧
        ∃ slot ∈ t.slots path, u = t.graft slot source ∧ (u == t) = false ∧
          s.admits u = true := by
  apply (Always.choose?_mem t.innerPaths).bind
  intro path hpath
  cases path with
  | none => exact Always.nothing
  | some path =>
    dsimp only
    cases hget : t.get? path with
    | none => exact Always.nothing
    | some source =>
      apply (Always.choose?_mem (t.slots path)).bind
      intro slot hslot
      cases slot with
      | none => exact Always.nothing
      | some slot =>
        apply Always.guarded
        intro hadmit
        obtain ⟨hnew, hout⟩ := Bool.and_eq_true_iff.mp hadmit
        exact ⟨path, hpath path rfl, source, hget, slot, hslot slot rfl, rfl, by simpa using hnew,
          hout⟩

theorem rootTransposition_result (s : EvolutionSettings) (t : Tree) :
    Always (t.rootTransposition s : Draw σ (Option Tree)) fun out => ∀ u ∈ out,
      ∃ path ∈ t.innerPaths, ∃ lifted, t.get? path = some lifted ∧
        (u = t.both lifted ∨ u = t.either lifted) ∧ s.admits u = true := by
  apply (Always.choose?_mem t.innerPaths).bind
  intro path hpath
  cases path with
  | none => exact Always.nothing
  | some path =>
    dsimp only
    cases hget : t.get? path with
    | none => exact Always.nothing
    | some lifted =>
      apply Always.after
      intro heads
      apply Always.guarded
      intro hadmit
      refine ⟨path, hpath path rfl, lifted, hget, ?_, hadmit⟩
      cases heads with
      | true => exact .inl rfl
      | false => exact .inr rfl

theorem inversion_result (t : Tree) :
    Always (t.inversion : Draw σ (Option Tree)) fun out => ∀ u ∈ out,
      ∃ path ∈ t.paths, ∃ target, t.get? path = some target ∧ target.isReversible = true ∧
        u = t.graft path target.reversed ∧ (u == t) = false := by
  apply (Always.choose?_mem _).bind
  intro path hpath
  cases path with
  | none => exact Always.nothing
  | some path =>
    obtain ⟨hin, hreversible⟩ := List.mem_filter.mp (hpath path rfl)
    dsimp only
    cases hget : t.get? path with
    | none => exact Always.nothing
    | some target =>
      apply Always.pure
      intro u hu
      split at hu
      · simp at hu
      · next hnew =>
        obtain rfl : t.graft path target.reversed = u := by simpa using hu
        exact ⟨path, hin, target, hget, by simpa [hget] using hreversible, rfl, by simpa using hnew⟩

end Tree
end SignalEvolution

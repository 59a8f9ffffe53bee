import SignalEvolution.Proofs.Variation.Arity
import SignalEvolution.Proofs.Variation.Bounds
import SignalEvolution.Proofs.Variation.Edit

/-! # Variations at a single site

Transposition, inversion and subtree mutation each edit one subtree and leave the rest of the tree
alone. Where that subtree is and what takes its place is different for each of them. A tree of a
single node gives none of them a site.
-/
namespace SignalEvolution.Tree

open Draw (Always)
open PartialDraw (Unless)

variable {σ : Type} [WordSource σ] {s : EvolutionSettings} {g : Generator} {t u : Tree}
variable {slot source : Path}

/-- A slot is a child position of another node than the source, and not the source itself. -/
theorem exists_of_mem_slots (h : slot ∈ t.slots source) : slot ≠ source ∧
    ∃ parent i node, slot = parent ++ [i] ∧ parent ≠ source ∧ t.get? parent = some node ∧
      i < node.kind.arity := by
  obtain ⟨hposition, hslot⟩ := List.mem_filter.mp h
  obtain ⟨parent, hparent, hchild⟩ := List.mem_flatMap.mp hposition
  obtain ⟨hpath, hother⟩ := List.mem_filter.mp hparent
  obtain ⟨i, hi, rfl⟩ := List.mem_map.mp hchild
  obtain ⟨node, hnode⟩ := exists_get? hpath
  rw [hnode] at hi
  exact ⟨by simpa using hslot, parent, i, node, rfl, by simpa using hother, hnode, List.mem_range.mp hi⟩

/-- In a full tree there is a subtree at every slot. -/
theorem Full.exists_get?_slot (h : t.Full) (hslot : slot ∈ t.slots source) :
    ∃ old, t.get? slot = some old := by
  obtain ⟨-, parent, i, node, rfl, -, hnode, hi⟩ := exists_of_mem_slots hslot
  have hlength := (h.get? hnode).length_children
  obtain ⟨k, cs⟩ := node
  change cs.length = k.arity at hlength
  have hlt : i < cs.length := by
    rw [hlength]
    exact hi
  refine ⟨cs[i], ?_⟩
  rw [get?_append, hnode, Option.bind_some, get?_cons, List.getElem?_eq_getElem hlt, Option.bind_some,
    get?_nil]

theorem transposition_edit (h : t.Full) (s : EvolutionSettings) :
    Always (t.transposition s : Draw σ (Option Tree)) fun out => ∀ u ∈ out,
      ∃ q source old copy, q ≠ [] ∧ source ≠ [] ∧ q ≠ source ∧ q.dropLast ≠ source ∧
        t.get? source = some copy ∧ Edit t u q old copy ∧ (u == t) = false ∧ s.Within u := by
  apply (transposition_result s t).imp
  intro out hout u hu
  obtain ⟨source, hsource, copy, hcopy, slot, hslot, rfl, hnew, hadmit⟩ := hout u hu
  obtain ⟨old, hold⟩ := h.exists_get?_slot hslot
  obtain ⟨hother, parent, i, -, heq, hparent, -, -⟩ := exists_of_mem_slots hslot
  refine ⟨slot, source, old, copy, ?_, ne_nil_of_mem_innerPaths hsource, hother, ?_, hcopy,
    edit_graft hold copy, hnew, EvolutionSettings.admits_iff.mp hadmit⟩
  · rw [heq]
    exact List.append_ne_nil_of_right_ne_nil _ (List.cons_ne_nil _ _)
  · rwa [heq, List.dropLast_concat]

theorem Full.exists_operands (h : t.Full) (hreversible : t.isReversible = true) :
    ∃ op a b, t = node (.operator op) [a, b] := by
  obtain ⟨k, cs⟩ := t
  obtain ⟨htype, hlength⟩ := Bool.and_eq_true_iff.mp hreversible
  cases k with
  | operator op =>
    have hcount : cs.length = op.arity := (full_iff.mp h).1
    have htwo : 2 ≤ cs.length := of_decide_eq_true hlength
    have harity : op.arity ≤ 2 := by cases op <;> decide
    obtain ⟨a, b, rfl⟩ := List.length_eq_two.mp (by omega : cs.length = 2)
    exact ⟨op, a, b, rfl⟩
  | _ => exact absurd htype (by simp [nodeType, kind, Kind.nodeType])

theorem inversion_edit (h : t.Full) :
    Always (t.inversion : Draw σ (Option Tree)) fun out => ∀ u ∈ out,
      ∃ q op a b, Edit t u q (node (.operator op) [a, b]) (node (.operator op) [b, a]) ∧
        (u == t) = false := by
  apply (inversion_result t).imp
  intro out hout u hu
  obtain ⟨q, -, target, htarget, hreversible, rfl, hnew⟩ := hout u hu
  obtain ⟨op, a, b, rfl⟩ := (h.get? htarget).exists_operands hreversible
  exact ⟨q, op, a, b, edit_graft htarget _, hnew⟩

theorem subtreeMutation_edit (s : EvolutionSettings) (g : Generator) (t : Tree) :
    Unless (t.subtreeMutation s g : PartialDraw σ (Option Tree)) (¬ g.Ready) fun out => ∀ u ∈ out,
      ∃ q old new, q ≠ [] ∧ Edit t u q old new ∧
        new.depth ≤ max 1 (s.maxDepth + 1 - (q.length + 1)) := by
  apply (subtreeMutation_result (fun budget => Generator.tree_depth budget) s t).imp
  intro out hout u hu
  obtain ⟨q, hq, new, hdepth, rfl, -⟩ := hout u hu
  obtain ⟨old, hold⟩ := exists_get? (List.mem_of_mem_tail hq)
  refine ⟨q, old, new, ne_nil_of_mem_innerPaths hq, edit_graft hold new, ?_⟩
  have hbudget : budgetAt s q = max (s.maxDepth + 1 - (q.length + 1)) 1 := rfl
  omega

theorem transposition_single (h : t.nodeCount = 1) (s : EvolutionSettings) :
    (t.transposition s : Draw σ (Option Tree)) = pure none := by
  rw [transposition, innerPaths_eq_nil_iff.mpr h, Draw.choose?_nil]
  rfl

theorem subtreeMutation_single (h : t.nodeCount = 1) (s : EvolutionSettings) (g : Generator) :
    (t.subtreeMutation s g : PartialDraw σ (Option Tree)) = pure none := by
  rw [subtreeMutation, innerPaths_eq_nil_iff.mpr h, Draw.choose?_nil]
  rfl

theorem inversion_single (h : t.nodeCount = 1) : (t.inversion : Draw σ (Option Tree)) = pure none := by
  obtain ⟨k, cs⟩ := t
  obtain rfl : cs = [] := nodeCount_eq_one_iff.mp h
  have hnone : ((node k []).paths.filter fun p => ((node k []).get? p).any isReversible) = [] := by
    simp [paths, childPaths, get?_nil, isReversible, children]
  rw [inversion, hnone, Draw.choose?_nil]
  rfl

/-- Where one of the three gives a tree, it is the old one with a single subtree replaced.
Transposition puts a copy of a subtree below the root into another place below the root, which is
no child of that subtree's root, and the result is another tree within the bounds. Inversion
exchanges the two operands of an operator, which changes the tree. Subtree mutation puts a tree into
a place below the root that has no more levels than the place leaves to it, but may always have one.
None of them gives a tree for a single node. -/
theorem variations_at_single_site (h : t.Full) (s : EvolutionSettings) (g : Generator) (w : σ) :
    (∀ u, ((t.transposition s).run w).1 = some u →
      ∃ q source old copy, q ≠ [] ∧ source ≠ [] ∧ q ≠ source ∧ q.dropLast ≠ source ∧
        t.get? source = some copy ∧ Edit t u q old copy ∧ (u == t) = false ∧ s.Within u) ∧
    (∀ u, (t.inversion.run w).1 = some u →
      ∃ q op a b, Edit t u q (node (.operator op) [a, b]) (node (.operator op) [b, a]) ∧
        (u == t) = false) ∧
    (∀ u rest, (t.subtreeMutation s g).run w = some (some u, rest) →
      ∃ q old new, q ≠ [] ∧ Edit t u q old new ∧
        new.depth ≤ max 1 (s.maxDepth + 1 - (q.length + 1))) ∧
    (t.nodeCount = 1 → ((t.transposition s).run w).1 = none ∧ (t.inversion.run w).1 = none ∧
      (t.subtreeMutation s g).run w = some (none, w)) := by
  refine ⟨(transposition_edit h s).holds w, (inversion_edit h).holds w,
    fun u rest hrun => (subtreeMutation_edit s g t).of_run hrun u rfl, ?_⟩
  intro hsingle
  rw [transposition_single hsingle, inversion_single hsingle, subtreeMutation_single hsingle]
  exact ⟨rfl, rfl, rfl⟩

/-- Two clauses under AND, each of them a site, and a constant without one. -/
theorem variations_at_single_site_clauses :
    let t := Tree.both (.compare .greater (.series .close) (.constant 1)) (.negation (.series .high))
    let g := Generator.ofSettings .default
    let words : ListedWords := ⟨[0, 0], 0⟩
    t.Full ∧ (Tree.constant 1).Full ∧
    (∃ u q source old copy, ((t.transposition .default).run words).1 = some u ∧ q.dropLast ≠ source ∧
      t.get? source = some copy ∧ Edit t u q old copy) ∧
    (∃ u q op a b, (t.inversion.run words).1 = some u ∧
      Edit t u q (node (.operator op) [a, b]) (node (.operator op) [b, a])) ∧
    (∃ u rest q old new, (t.subtreeMutation .default g).run words = some (some u, rest) ∧ q ≠ [] ∧
      Edit t u q old new) ∧
    (((Tree.constant 1).inversion.run words).1 = none) := by
  intro t g words
  have hfull : t.Full := full_pair rfl (full_pair rfl (full_leaf rfl) (full_leaf rfl))
    (full_single rfl (full_leaf rfl))
  have hleaf : (Tree.constant 1).Full := full_leaf rfl
  obtain ⟨htransposition, hinversion, hsubtree, -⟩ := variations_at_single_site hfull .default g words
  obtain ⟨-, -, -, hsingle⟩ := variations_at_single_site hleaf .default g words
  have htransposed : ((t.transposition .default).run words).1.isSome = true := by decide +kernel
  have hinverted : (t.inversion.run words).1.isSome = true := by decide +kernel
  have hregrown : ((t.subtreeMutation .default g).run words).any (·.1.isSome) = true := by decide +kernel
  obtain ⟨u, hu⟩ := Option.isSome_iff_exists.mp htransposed
  obtain ⟨v, hv⟩ := Option.isSome_iff_exists.mp hinverted
  obtain ⟨⟨out, rest⟩, hx, hsome⟩ := (Option.any_eq_true _ _).mp hregrown
  obtain ⟨x, rfl⟩ := Option.isSome_iff_exists.mp hsome
  obtain ⟨q, source, old, copy, -, -, -, hparent, hcopy, hedit, -⟩ := htransposition u hu
  obtain ⟨p, op, a, b, hswap, -⟩ := hinversion v hv
  obtain ⟨r, before, new, hr, hnew, -⟩ := hsubtree x rest hx
  exact ⟨hfull, hleaf, ⟨u, q, source, old, copy, hu, hparent, hcopy, hedit⟩, ⟨v, p, op, a, b, hv, hswap⟩,
    ⟨x, rest, r, before, new, hx, hr, hnew⟩, (hsingle rfl).2.1⟩

end SignalEvolution.Tree

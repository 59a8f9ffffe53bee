import SignalEvolution.Proofs.Variation.Inheritance

/-! # Variation keeps all children and names

A random node draws as many children as its kind takes, and a random indicator has its name from the
catalogue. An operator takes complete trees to such trees: it exchanges whole subtrees, or it changes
a node for one with the same number of children.
-/
namespace SignalEvolution

open Draw (Always)
open PartialDraw (Unless)

variable {σ : Type} [WordSource σ] {s : EvolutionSettings} {g : Generator} {t u : Tree}

namespace Generator

theorem series_complete : Always (g.series : Draw σ Tree) Tree.Complete := by
  apply Always.after
  intro x
  exact Always.pure (Tree.complete_leaf rfl trivial)

theorem constant_complete : Unless (g.constant : PartialDraw σ Tree) (¬ g.Ready) Tree.Complete :=
  constant_unless fun _ => Tree.complete_leaf rfl trivial

theorem terminal_complete : Unless (g.terminal : PartialDraw σ Tree) (¬ g.Ready) Tree.Complete :=
  terminal_unless (fun _ => Tree.complete_leaf rfl trivial) constant_complete

theorem indicator_complete : Always (g.indicator : Draw σ Tree) Tree.Complete := by
  apply Always.after
  intro n
  apply Always.after
  intro params
  exact Always.pure (Tree.complete_leaf rfl ⟨_, rfl⟩)

theorem tree_complete (budget : Nat) :
    Unless (g.tree budget : PartialDraw σ Tree) (¬ g.Ready) Tree.Complete := by
  apply tree_unless (P := fun _ => Tree.Complete) (fun _ => terminal_complete) fun _ => indicator_complete
  intro _ k _ hk hlength hcs
  have hnamed : k.Named := by
    rcases List.mem_append.mp hk with hk | hk
    · obtain ⟨op, -, rfl⟩ := List.mem_map.mp hk
      trivial
    · obtain ⟨cmp, -, rfl⟩ := List.mem_map.mp hk
      trivial
  exact Tree.complete_iff.mpr ⟨hlength, hnamed, hcs⟩

theorem numeric_complete (budget : Nat) :
    Unless (g.numeric budget : PartialDraw σ Tree) (¬ g.Ready) Tree.Complete :=
  numeric_unless (P := fun _ => Tree.Complete) (fun _ => terminal_complete) (fun _ => indicator_complete)
    (fun _ _ _ _ hlength hcs => Tree.complete_iff.mpr ⟨hlength, trivial, hcs⟩) budget

theorem signal_complete : Unless (g.signal : PartialDraw σ Tree) (¬ g.Ready) Tree.Complete :=
  signal_unless tree_complete numeric_complete fun _ _ _ hleft hright =>
    Tree.complete_pair rfl trivial hleft hright

end Generator

namespace Tree

theorem perturb_named (i : Indicator) (params : Table Float) :
    Always (perturb i params : Draw σ (Option Kind)) fun out => ∀ l ∈ out, l.Named := by
  apply Always.after
  intro spec
  cases spec with
  | none => exact Always.nothing
  | some spec =>
    apply Always.after
    intro factor
    exact Always.pure (by rintro l ⟨⟩; exact ⟨i, rfl⟩)

theorem exchange_named (i : Indicator) (params : Table Float) :
    Always (exchange i params : Draw σ (Option Kind)) fun out => ∀ l ∈ out, l.Named := by
  apply Always.after
  intro other
  cases other with
  | none => exact Always.nothing
  | some other => exact Always.pure (by rintro l ⟨⟩; exact ⟨other, rfl⟩)

/-- A name that no indicator has would stay as it is. -/
theorem mutateKind_named (s : EvolutionSettings) (k : Kind) :
    Always (mutateKind s k : Draw σ Kind) fun l => k.Named → l.Named := by
  apply mutateKind_result (R := fun k l => k.Named → l.Named)
  case hindicator =>
    intro name params
    exact mutateIndicator_result id (fun i _ => (perturb_named i params).imp fun _ h l hl _ => h l hl)
      fun i _ => (exchange_named i params).imp fun _ h l hl _ => h l hl
  all_goals
    intros
    trivial

namespace Complete

theorem graft {new : Tree} (h : t.Complete) (hnew : new.Complete) (p : Path) : (t.graft p new).Complete := by
  unfold Tree.graft
  split
  · next hreplace => exact (h.replaceAt? hnew hreplace).1
  · exact h

theorem pointMutation (h : t.Complete) (s : EvolutionSettings) :
    Always (t.pointMutation s : Draw σ Tree) Complete := by
  have hkind : ∀ k, Always (mutateKind s k : Draw σ Kind) fun l => k.Akin l ∧ (k.Named → l.Named) :=
    fun k => (mutateKind_akin s k).and (mutateKind_named s k)
  apply (pointMutation_result s hkind t).imp
  rintro u (rfl | ⟨path, -, target, hget, kind, ⟨hakin, hnamed⟩, rfl⟩)
  · exact h
  · have htarget := h.get? hget
    exact h.graft (htarget.withKind hakin.arity (hnamed htarget.named.kind)) path

theorem subtreeMutation (h : t.Complete) (s : EvolutionSettings) (g : Generator) :
    Unless (t.subtreeMutation s g : PartialDraw σ (Option Tree)) (¬ g.Ready) fun out =>
      ∀ u ∈ out, u.Complete := by
  apply (subtreeMutation_result (fun budget => Generator.tree_complete budget) s t).imp
  intro out hout u hu
  obtain ⟨path, -, new, hnew, rfl, -⟩ := hout u hu
  exact h.graft hnew path

theorem crossover (h : t.Complete) (hu : u.Complete) (s : EvolutionSettings) :
    Always (Tree.crossover s t u : Draw σ (Option (Tree × Tree))) fun out =>
      ∀ pair ∈ out, pair.1.Complete ∧ pair.2.Complete := by
  apply (crossover_result s t u).imp
  intro out hout pair hpair
  obtain ⟨pathA, -, pathB, -, subA, subB, hA, hB, rfl, -⟩ := hout pair hpair
  exact ⟨h.graft (hu.get? hB) pathA, hu.graft (h.get? hA) pathB⟩

theorem transposition (h : t.Complete) (s : EvolutionSettings) :
    Always (t.transposition s : Draw σ (Option Tree)) fun out => ∀ u ∈ out, u.Complete := by
  apply (transposition_result s t).imp
  intro out hout u hu
  obtain ⟨path, -, source, hget, slot, -, rfl, -⟩ := hout u hu
  exact h.graft (h.get? hget) slot

theorem rootTransposition (h : t.Complete) (s : EvolutionSettings) :
    Always (t.rootTransposition s : Draw σ (Option Tree)) fun out => ∀ u ∈ out, u.Complete := by
  apply (rootTransposition_result s t).imp
  intro out hout u hu
  obtain ⟨path, -, lifted, hget, rfl | rfl, -⟩ := hout u hu
  · exact complete_pair rfl trivial h (h.get? hget)
  · exact complete_pair rfl trivial h (h.get? hget)

theorem inversion (h : t.Complete) :
    Always (t.inversion : Draw σ (Option Tree)) fun out => ∀ u ∈ out, u.Complete := by
  apply (inversion_result t).imp
  intro out hout u hu
  obtain ⟨path, -, target, hget, -, rfl, -⟩ := hout u hu
  exact h.graft (h.get? hget).reversed path

end Complete
end Tree
end SignalEvolution

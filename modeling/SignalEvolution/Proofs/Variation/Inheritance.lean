import SignalEvolution.Proofs.Tree.Arity
import SignalEvolution.Proofs.Variation.Results

/-! # What variation hands on

A property of trees that every operator keeps is kept by all variations of a gene in turn. A
property of kinds that the generator gives and point mutations keep holds of every node of
whatever the operators make.
-/
namespace SignalEvolution

open Draw (Always)
open PartialDraw (Unless)

variable {σ : Type} [WordSource σ] {s : EvolutionSettings} {g : Generator} {t u new : Tree}

/-- Every operator takes trees with a property to trees with it. -/
structure Variator.Keeps (σ : Type) [WordSource σ] (v : Variator) (Q : Tree → Prop) : Prop where
  pointMutation : ∀ t, Q t → Always (t.pointMutation v.settings : Draw σ Tree) Q
  subtreeMutation : ∀ t, Q t →
    Unless (t.subtreeMutation v.settings v.generator : PartialDraw σ (Option Tree)) (¬ v.generator.Ready)
      fun out => ∀ u ∈ out, Q u
  crossover : ∀ a b, Q a → Q b →
    Always (Tree.crossover v.settings a b : Draw σ (Option (Tree × Tree))) fun out =>
      ∀ pair ∈ out, Q pair.1 ∧ Q pair.2
  transposition : ∀ t, Q t →
    Always (t.transposition v.settings : Draw σ (Option Tree)) fun out => ∀ u ∈ out, Q u
  rootTransposition : ∀ t, Q t →
    Always (t.rootTransposition v.settings : Draw σ (Option Tree)) fun out => ∀ u ∈ out, Q u
  inversion : ∀ t, Q t → Always (t.inversion : Draw σ (Option Tree)) fun out => ∀ u ∈ out, Q u

namespace Variator

variable {v : Variator} {Q : Tree → Prop}

/-- What a variation keeps, an attempt at it keeps. -/
theorem attempt_keeps {rate : Float} {kind : Variation} {vary : Tree → PartialDraw σ (Option Tree)}
    {state : Tree × List Variation} {off : Prop} (h : Q state.1)
    (hvary : ∀ t, Q t → (vary t).Unless off fun out => ∀ u ∈ out, Q u) :
    (attempt rate kind vary state).Unless off fun out => Q out.1 := by
  apply Unless.after
  intro roll
  apply Unless.ite
  · intro _
    apply (hvary state.1 h).bind
    intro out hout
    cases out with
    | none => exact Unless.pure h
    | some u => exact Unless.pure (hout u rfl)
  · intro _
    exact Unless.pure h

theorem Keeps.visibleMutation (h : v.Keeps σ Q) (ht : Q t) :
    Always (visibleMutation v.settings t : Draw σ (Option Tree)) fun out => ∀ u ∈ out, Q u := by
  apply (h.pointMutation t ht).bind
  intro out hout
  apply Always.pure
  intro u hu
  split at hu
  · simp at hu
  · obtain rfl : out = u := by simpa using hu
    exact hout

theorem Keeps.mutate (h : v.Keeps σ Q) (ht : Q t) :
    Unless (v.mutate t : PartialDraw σ (Tree × List Variation)) (¬ v.generator.Ready) fun out => Q out.1 := by
  apply (attempt_keeps ht fun t ht => .sure (h.visibleMutation ht)).bind
  intro pointed hpointed
  apply (attempt_keeps hpointed h.subtreeMutation).bind
  intro grown hgrown
  apply (attempt_keeps hgrown fun t ht => .sure (h.transposition t ht)).bind
  intro transposed htransposed
  apply (attempt_keeps htransposed fun t ht => .sure (h.rootTransposition t ht)).bind
  intro joined hjoined
  exact attempt_keeps hjoined fun t ht => .sure (h.inversion t ht)

end Variator

namespace Gene

variable {Q : Tree → Prop} {a b : Gene} {generation : Nat}

theorem ofTree_root (t : Tree) : Always (ofTree t : Draw σ Gene) fun g => g.root = t := by
  apply Always.after
  intro id
  exact Always.pure rfl

theorem offspring_root (t : Tree) (parents : List Gene) (generation : Nat) :
    Always (offspring t parents generation : Draw σ Gene) fun g => g.root = t := by
  apply Always.after
  intro id
  exact Always.pure rfl

/-- Children of two trees, however they are marked. -/
theorem offspring_pair {parentsA parentsB : List Gene} {mark : Gene → Gene}
    (hmark : ∀ g, (mark g).root = g.root) (ht : Q t) (hu : Q u) :
    Always (do
      let childA ← offspring t parentsA generation
      let childB ← offspring u parentsB generation
      return (mark childA, mark childB) : Draw σ (Gene × Gene))
      fun pair => Q pair.1.root ∧ Q pair.2.root := by
  apply (offspring_root t parentsA generation).bind
  intro childA hA
  apply (offspring_root u parentsB generation).bind
  intro childB hB
  apply Always.pure
  rw [hmark, hmark, hA, hB]
  exact ⟨ht, hu⟩

end Gene

namespace Variator.Keeps

variable {v : Variator} {Q : Tree → Prop} {a b : Gene}

theorem cross (h : v.Keeps σ Q) (ha : Q a.root) (hb : Q b.root) (generation : Nat) :
    Always (Gene.cross v.settings a b generation : Draw σ (Gene × Gene)) fun pair =>
      Q pair.1.root ∧ Q pair.2.root := by
  apply (h.crossover a.root b.root ha hb).bind
  intro out hout
  cases out with
  | some trees =>
    obtain ⟨hfirst, hsecond⟩ := hout trees rfl
    exact Gene.offspring_pair (fun _ => rfl) hfirst hsecond
  | none => exact Gene.offspring_pair (fun _ => rfl) ha hb

theorem vary (h : v.Keeps σ Q) (ha : Q a.root) :
    Unless (a.vary v : PartialDraw σ Gene) (¬ v.generator.Ready) fun gene => Q gene.root := by
  apply (h.mutate ha).bind
  intro out hout
  exact Unless.pure hout

end Variator.Keeps

namespace Tree

variable {P : Kind → Prop} {k : Kind} {p : Path}

theorem every_leaf (hk : P k) : (node k []).Every P := every_iff.mpr ⟨hk, by simp⟩

theorem every_pair (hk : P k) (ht : t.Every P) (hu : u.Every P) : (node k [t, u]).Every P := by
  refine every_iff.mpr ⟨hk, ?_⟩
  simp [ht, hu]

theorem Every.kind (h : t.Every P) : P t.kind := by
  cases t with
  | node k cs => exact (every_iff.mp h).1

theorem Every.withKind (h : t.Every P) (hk : P k) : (node k t.children).Every P := by
  cases t with
  | node l cs => exact every_iff.mpr ⟨hk, (every_iff.mp h).2⟩

theorem Every.reversed (h : t.Every P) : t.reversed.Every P := by
  cases t with
  | node k cs =>
    obtain ⟨hk, hcs⟩ := every_iff.mp h
    exact every_iff.mpr ⟨hk, fun c hc => hcs c (List.mem_reverse.mp hc)⟩

theorem Every.get? (h : t.Every P) (hget : t.get? p = some u) : u.Every P :=
  of_get? (fun _ _ h => (every_iff.mp h).2) h hget

theorem Every.graft (h : t.Every P) (hnew : new.Every P) (p : Path) : (t.graft p new).Every P := by
  induction p generalizing t with
  | nil => rwa [graft_nil]
  | cons i p ih =>
    cases hget : t.get? (i :: p) with
    | none => rwa [graft_of_get?_none hget]
    | some old =>
      cases t with
      | node k cs =>
        obtain ⟨c, hc, hold⟩ := Option.bind_eq_some_iff.mp hget
        obtain ⟨hk, hcs⟩ := every_iff.mp h
        rw [graft_cons hc hold]
        refine every_iff.mpr ⟨hk, ?_⟩
        intro d hd
        rcases List.mem_or_eq_of_mem_set hd with hd | rfl
        · exact hcs d hd
        · exact ih (hcs c (List.mem_of_getElem? hc))

end Tree

/-- The generator draws kinds with a property only. -/
structure Generator.Draws (σ : Type) [WordSource σ] (g : Generator) (P : Kind → Prop) : Prop where
  operator : ∀ op, P (.operator op)
  comparator : ∀ cmp, P (.comparator cmp)
  series : ∀ x, P (.series x)
  constant : Unless (g.constant : PartialDraw σ Tree) (¬ g.Ready) (Tree.Every P)
  indicator : Always (g.indicator : Draw σ Tree) (Tree.Every P)

namespace Generator.Draws

variable {P : Kind → Prop} {k : Kind}

theorem function (h : g.Draws σ P) (hk : k ∈ functions) : P k := by
  rcases List.mem_append.mp hk with hk | hk
  · obtain ⟨op, -, rfl⟩ := List.mem_map.mp hk
    exact h.operator op
  · obtain ⟨cmp, -, rfl⟩ := List.mem_map.mp hk
    exact h.comparator cmp

theorem terminal (h : g.Draws σ P) : Unless (g.terminal : PartialDraw σ Tree) (¬ g.Ready) (Tree.Every P) :=
  terminal_unless (fun x => Tree.every_leaf (h.series x)) h.constant

theorem tree (h : g.Draws σ P) (budget : Nat) :
    Unless (g.tree budget : PartialDraw σ Tree) (¬ g.Ready) (Tree.Every P) :=
  tree_unless (P := fun _ => Tree.Every P) (fun _ => h.terminal) (fun _ => h.indicator)
    (fun _ _ _ hk _ hcs => Tree.every_iff.mpr ⟨h.function hk, hcs⟩) budget

theorem numeric (h : g.Draws σ P) (budget : Nat) :
    Unless (g.numeric budget : PartialDraw σ Tree) (¬ g.Ready) (Tree.Every P) :=
  numeric_unless (P := fun _ => Tree.Every P) (fun _ => h.terminal) (fun _ => h.indicator)
    (fun _ op _ _ _ hcs => Tree.every_iff.mpr ⟨h.operator op, hcs⟩) budget

theorem compare (h : g.Draws σ P) (cmp : Comparator) (ht : t.Every P) (hu : u.Every P) :
    (Tree.compare cmp t u).Every P :=
  Tree.every_pair (h.comparator cmp) ht hu

theorem signal (h : g.Draws σ P) : Unless (g.signal : PartialDraw σ Tree) (¬ g.Ready) (Tree.Every P) :=
  signal_unless h.tree h.numeric fun cmp _ _ ht hu => h.compare cmp ht hu

end Generator.Draws

/-- The operators exchange subtrees and draw new ones; only a point mutation makes a kind of an
old one. -/
theorem Variator.keeps_every {v : Variator} {P : Kind → Prop} (hdraws : v.generator.Draws σ P)
    (hmutate : ∀ k, Always (Tree.mutateKind v.settings k : Draw σ Kind) fun l => P k → P l) :
    v.Keeps σ (Tree.Every P) where
  pointMutation t ht := by
    apply (Tree.pointMutation_result v.settings hmutate t).imp
    rintro u (rfl | ⟨path, -, target, hget, kind, hkind, rfl⟩)
    · exact ht
    · have htarget := ht.get? hget
      exact ht.graft (htarget.withKind (hkind htarget.kind)) path
  subtreeMutation t ht := by
    apply (Tree.subtreeMutation_result hdraws.tree v.settings t).imp
    intro out hout u hu
    obtain ⟨path, -, new, hnew, rfl, -⟩ := hout u hu
    exact ht.graft hnew path
  crossover a b ha hb := by
    apply (Tree.crossover_result v.settings a b).imp
    intro out hout pair hpair
    obtain ⟨pathA, -, pathB, -, subA, subB, hA, hB, rfl, -⟩ := hout pair hpair
    exact ⟨ha.graft (hb.get? hB) pathA, hb.graft (ha.get? hA) pathB⟩
  transposition t ht := by
    apply (Tree.transposition_result v.settings t).imp
    intro out hout u hu
    obtain ⟨path, -, source, hget, slot, -, rfl, -⟩ := hout u hu
    exact ht.graft (ht.get? hget) slot
  rootTransposition t ht := by
    apply (Tree.rootTransposition_result v.settings t).imp
    intro out hout u hu
    obtain ⟨path, -, lifted, hget, rfl | rfl, -⟩ := hout u hu
    · exact Tree.every_pair (hdraws.operator .and) ht (ht.get? hget)
    · exact Tree.every_pair (hdraws.operator .or) ht (ht.get? hget)
  inversion t ht := by
    apply (Tree.inversion_result t).imp
    intro out hout u hu
    obtain ⟨path, -, target, hget, -, rfl, -⟩ := hout u hu
    exact ht.graft (ht.get? hget).reversed path

end SignalEvolution

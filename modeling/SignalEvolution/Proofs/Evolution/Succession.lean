import SignalEvolution.Proofs.Evolution.Inheritance
import SignalEvolution.Proofs.Evolution.Ranking
import SignalEvolution.Proofs.Evolution.Settings
import SignalEvolution.Proofs.Text.Hex

/-! # The next generation

A population is followed by its elites and by children of selected parents, in pairs as they
were bred. A child starts from a tree of its parents, or from one that they exchanged, and
its record names what it went through since, in the order in which variations are tried.
-/
namespace SignalEvolution

open Draw (Always)
open PartialDraw (Unless)

variable {σ : Type} [WordSource σ]

namespace Lineage

/-- How variations are recorded: their names joined by `+`, and nothing where there are none. -/
def recordOf (kinds : List Variation) : Option String :=
  if kinds = [] then none else some ("+".intercalate (kinds.map Variation.name))

theorem record_mutation {l : Lineage} {earlier : List Variation} (h : l.mutation = recordOf earlier)
    (kind : Variation) : (l.record kind.name).mutation = recordOf (earlier ++ [kind]) := by
  rw [record, h, recordOf, recordOf, if_neg (List.append_ne_nil_of_right_ne_nil _ (List.cons_ne_nil _ _))]
  by_cases hearlier : earlier = []
  · subst hearlier
    rfl
  · have hnames : earlier.map Variation.name ≠ [] := by simpa using hearlier
    rw [if_neg hearlier, List.map_append, List.map_singleton,
      String.intercalate_append_of_ne_nil hnames (List.cons_ne_nil _ _), String.intercalate_singleton]

theorem recordAll_mutation {l : Lineage} {earlier : List Variation} (h : l.mutation = recordOf earlier)
    (kinds : List Variation) : (l.recordAll kinds).mutation = recordOf (earlier ++ kinds) := by
  induction kinds generalizing l earlier with
  | nil => simpa [recordAll] using h
  | cons kind kinds ih => simpa [recordAll] using ih (record_mutation h kind)

theorem recordAll_parents (l : Lineage) (kinds : List Variation) : (l.recordAll kinds).parents = l.parents := by
  induction kinds generalizing l with
  | nil => rfl
  | cons kind kinds ih => exact ih (l.record kind.name)

end Lineage

namespace Variator

variable {rate : Float} {kind : Variation} {vary : Tree → PartialDraw σ (Option Tree)}
variable {state : Tree × List Variation} {earlier : List Variation}

/-- The variations of one tree, in the order in which they are tried. -/
def order : List Variation :=
  [.pointMutation, .subtreeMutation, .transposition, .rootTransposition, .inversion]

theorem attempt_kinds {off : Prop} (h : state.2.Sublist earlier)
    (hvary : ∀ t, (vary t).Unless off fun _ => True) :
    (attempt rate kind vary state).Unless off fun out => out.2.Sublist (earlier ++ [kind]) := by
  have hkept : state.2.Sublist (earlier ++ [kind]) := h.trans (List.sublist_append_left _ _)
  apply Unless.after
  intro roll
  apply Unless.ite
  · intro _
    apply (hvary state.1).bind
    intro out _
    cases out with
    | none => exact Unless.pure hkept
    | some u => exact Unless.pure (h.append_right [kind])
  · intro _
    exact Unless.pure hkept

theorem mutate_kinds (v : Variator) (t : Tree) :
    Unless (v.mutate t : PartialDraw σ (Tree × List Variation)) (¬ v.generator.Ready) fun out =>
      out.2.Sublist order := by
  have hsure : ∀ d : Draw σ (Option Tree), d.sure.Unless (¬ v.generator.Ready) fun _ => True :=
    fun d => .sure (.trivial d)
  have htrivial : v.settings.Hereditary σ v.generator (Tree.Every fun _ => True) :=
    EvolutionSettings.hereditary_trivial v.settings v.generator
  have hgrow : ∀ t : Tree, Unless (t.subtreeMutation v.settings v.generator : PartialDraw σ (Option Tree))
      (¬ v.generator.Ready) fun _ => True :=
    fun t => (htrivial.keeps.subtreeMutation t fun _ _ => trivial).imp fun _ _ => trivial
  apply (attempt_kinds (List.Sublist.refl []) fun t => hsure _).bind
  intro pointed hpointed
  apply (attempt_kinds hpointed hgrow).bind
  intro grown hgrown
  apply (attempt_kinds hgrown fun t => hsure _).bind
  intro transposed htransposed
  apply (attempt_kinds htransposed fun t => hsure _).bind
  intro joined hjoined
  exact attempt_kinds hjoined fun t => hsure _

end Variator

/-- What a child starts from: its parents, a tree, and what was done to make the tree. -/
structure Origin where
  parents : List Gene
  root : Tree
  kinds : List Variation

/-- A child with an identity and a generation of its own, before it varies. -/
structure Origin.Starts (o : Origin) (generation : Nat) (child : Gene) : Prop where
  root : child.root = o.root
  id : Gene.isValidId child.id = true
  generation : child.generation = generation
  parents : child.lineage.parents = o.parents.map Gene.id
  mutation : child.lineage.mutation = Lineage.recordOf o.kinds

/-- A child that has varied, and its record of all that was done. -/
structure Origin.Yields (σ : Type) [WordSource σ] (o : Origin) (v : Variator) (generation : Nat)
    (child : Gene) : Prop where
  id : Gene.isValidId child.id = true
  generation : child.generation = generation
  parents : child.lineage.parents = o.parents.map Gene.id
  varied : ∃ kinds, (v.mutate o.root : PartialDraw σ (Tree × List Variation)).Gives (child.root, kinds) ∧
    kinds.Sublist Variator.order ∧ child.lineage.mutation = Lineage.recordOf (o.kinds ++ kinds)

/-- What the children of two genes start from: each from one of them, or both from both, with
the subtrees that an exchange gives or with the parents' trees where it gives none. -/
inductive Mated (σ : Type) [WordSource σ] (s : EvolutionSettings) (a b : Gene) : Origin → Origin → Prop
  | apart {roll : Float} (hroll : (Draw.unit : Draw σ Float).Gives roll) (h : ¬ roll < s.crossoverRate) :
    Mated σ s a b ⟨[a], a.root, []⟩ ⟨[b], b.root, []⟩
  | refused {roll : Float} (hroll : (Draw.unit : Draw σ Float).Gives roll) (h : roll < s.crossoverRate)
      (hnone : (Tree.crossover s a.root b.root : Draw σ (Option (Tree × Tree))).Gives none) :
    Mated σ s a b ⟨[a, b], a.root, []⟩ ⟨[b, a], b.root, []⟩
  | crossed {roll : Float} {x y : Tree} (hroll : (Draw.unit : Draw σ Float).Gives roll)
      (h : roll < s.crossoverRate)
      (hsome : (Tree.crossover s a.root b.root : Draw σ (Option (Tree × Tree))).Gives (some (x, y))) :
    Mated σ s a b ⟨[a, b], x, [.crossover]⟩ ⟨[b, a], y, [.crossover]⟩

omit [WordSource σ] in
theorem Origin.Starts.marked {parents : List Gene} {root : Tree} {generation : Nat} {child : Gene}
    (h : Origin.Starts ⟨parents, root, []⟩ generation child) (kinds : List Variation) :
    Origin.Starts ⟨parents, root, kinds⟩ generation
      { child with lineage := child.lineage.recordAll kinds } :=
  ⟨h.root, h.id, h.generation, (Lineage.recordAll_parents _ _).trans h.parents,
    Lineage.recordAll_mutation h.mutation kinds⟩

namespace Gene

variable {o : Origin} {generation : Nat} {a b child : Gene}

theorem offspring_starts (root : Tree) (parents : List Gene) (generation : Nat) :
    Always (offspring root parents generation : Draw σ Gene) fun child =>
      Origin.Starts ⟨parents, root, []⟩ generation child := by
  have hid : Always (randomId : Draw σ String) fun id => isValidId id = true := by
    apply Always.after
    intro w
    exact Always.pure (isValidId_hexWord w)
  apply hid.bind
  intro id hid
  exact Always.pure ⟨rfl, hid, rfl, rfl, rfl⟩

theorem offspring_pair_starts {parentsA parentsB : List Gene} {rootA rootB : Tree} {mark : Gene → Gene}
    {kinds : List Variation} (hmark : ∀ parents root child,
      Origin.Starts ⟨parents, root, []⟩ generation child →
      Origin.Starts ⟨parents, root, kinds⟩ generation (mark child)) :
    Always (do
      let childA ← offspring rootA parentsA generation
      let childB ← offspring rootB parentsB generation
      return (mark childA, mark childB) : Draw σ (Gene × Gene))
      fun pair => Origin.Starts ⟨parentsA, rootA, kinds⟩ generation pair.1 ∧
        Origin.Starts ⟨parentsB, rootB, kinds⟩ generation pair.2 := by
  apply (offspring_starts rootA parentsA generation).bind
  intro childA hA
  apply (offspring_starts rootB parentsB generation).bind
  intro childB hB
  exact Always.pure ⟨hmark _ _ _ hA, hmark _ _ _ hB⟩

theorem vary_yields (h : o.Starts generation child) (v : Variator) :
    Unless (child.vary v : PartialDraw σ Gene) (¬ v.generator.Ready) fun out =>
      o.Yields σ v generation out := by
  have hkinds := Variator.mutate_kinds (σ := σ) v child.root
  apply (hkinds.and hkinds.gives).bind
  rintro ⟨root, kinds⟩ ⟨hkinds, hgives⟩
  apply Unless.pure
  rw [h.root] at hgives
  exact ⟨h.id, h.generation, (Lineage.recordAll_parents _ _).trans h.parents, kinds, hgives, hkinds,
    Lineage.recordAll_mutation h.mutation kinds⟩

end Gene

namespace EvolutionSettings

variable {s : EvolutionSettings} {g : Generator} {scored : List Scored} {generation : Nat}

theorem pair_mated (s : EvolutionSettings) (a b : Gene) (generation : Nat) :
    Always (s.pair a b generation : Draw σ (Gene × Gene)) fun children =>
      ∃ first second, Mated σ s a b first second ∧ first.Starts generation children.1 ∧
        second.Starts generation children.2 := by
  apply (Always.gives Draw.unit).bind
  intro roll hroll
  apply Always.ite
  · intro hcross
    apply (Always.gives (Tree.crossover s a.root b.root)).bind
    intro out hout
    cases out with
    | some trees =>
      apply (Gene.offspring_pair_starts fun _ _ _ h => h.marked [.crossover]).imp
      intro children hchildren
      exact ⟨_, _, .crossed hroll hcross hout, hchildren⟩
    | none =>
      apply (Gene.offspring_pair_starts fun _ _ _ h => h).imp
      intro children hchildren
      exact ⟨_, _, .refused hroll hcross hout, hchildren⟩
  · intro hapart
    apply (Gene.offspring_pair_starts fun _ _ _ h => h).imp
    intro children hchildren
    exact ⟨_, _, .apart hroll hapart, hchildren⟩

/-- Two members that may be selected as parents, and what their children start from. -/
structure Couple (σ : Type) [WordSource σ] (s : EvolutionSettings) (scored : List Scored) (p q : Scored)
    (first second : Origin) : Prop where
  mem : p ∈ scored ∧ q ∈ scored
  selected : (Scored.select s scored : Draw σ (Option Scored)).Gives (some p) ∧
    (Scored.select s scored : Draw σ (Option Scored)).Gives (some q)
  mated : Mated σ s p.gene q.gene first second

/-- The children of couples, two of each; the last couple may have one child only. -/
inductive Bred (σ : Type) [WordSource σ] (s : EvolutionSettings) (g : Generator) (scored : List Scored)
    (generation : Nat) : List Gene → Prop
  | nobody : Bred σ s g scored generation []
  | one {p q : Scored} {first second : Origin} {child : Gene} (h : Couple σ s scored p q first second)
      (hchild : first.Yields σ ⟨s, g⟩ generation child) : Bred σ s g scored generation [child]
  | two {p q : Scored} {first second : Origin} {childA childB : Gene} {rest : List Gene}
      (h : Couple σ s scored p q first second) (hA : first.Yields σ ⟨s, g⟩ generation childA)
      (hB : second.Yields σ ⟨s, g⟩ generation childB) (hrest : Bred σ s g scored generation rest) :
    Bred σ s g scored generation (childA :: childB :: rest)

theorem litter_couple (h : scored ≠ []) (generation : Nat) :
    Always (s.litter scored generation : Draw σ (Option (Gene × Gene))) fun out =>
      ∃ a b p q first second, out = some (a, b) ∧ Couple σ s scored p q first second ∧
        first.Starts generation a ∧ second.Starts generation b := by
  have hselect : Always (Scored.select s scored : Draw σ (Option Scored)) fun out =>
      (∃ p ∈ scored, out = some p) ∧ (Scored.select s scored : Draw σ (Option Scored)).Gives out :=
    (Scored.select_some s h).and (Always.gives _)
  apply hselect.bind
  rintro _ ⟨⟨p, hp, rfl⟩, hpgives⟩
  apply hselect.bind
  rintro _ ⟨⟨q, hq, rfl⟩, hqgives⟩
  apply (pair_mated s p.gene q.gene generation).bind
  rintro ⟨a, b⟩ ⟨first, second, hmated, ha, hb⟩
  exact Always.pure ⟨a, b, p, q, first, second, rfl, ⟨⟨hp, hq⟩, ⟨hpgives, hqgives⟩, hmated⟩, ha, hb⟩

theorem breed_bred (g : Generator) (h : scored ≠ []) (generation missing : Nat) :
    Unless (s.breed g scored generation missing : PartialDraw σ (List Gene)) (¬ g.Ready) fun children =>
      children.length = missing ∧ Bred σ s g scored generation children := by
  fun_induction breed with
  | case1 => exact Unless.pure ⟨rfl, .nobody⟩
  | case2 =>
    apply Unless.draw (litter_couple h generation)
    rintro _ ⟨a, b, p, q, first, second, rfl, hcouple, ha, -⟩
    apply (Gene.vary_yields ha ⟨s, g⟩).bind
    intro child hchild
    exact Unless.pure ⟨rfl, .one hcouple hchild⟩
  | case3 missing ih =>
    apply Unless.draw (litter_couple h generation)
    rintro _ ⟨a, b, p, q, first, second, rfl, hcouple, ha, hb⟩
    apply (Gene.vary_yields ha ⟨s, g⟩).bind
    intro childA hA
    apply (Gene.vary_yields hb ⟨s, g⟩).bind
    intro childB hB
    apply ih.bind
    rintro rest ⟨hlength, hrest⟩
    apply Unless.pure
    exact ⟨by rw [List.length_cons, List.length_cons, hlength], .two hcouple hA hB hrest⟩

theorem length_elites (scored : List Scored) (count : Nat) :
    (Scored.elites scored count).length = min count scored.length := by
  rw [Scored.elites, List.length_map, List.length_take, Scored.ranked, List.length_mergeSort]

theorem nextGeneration_bred (g : Generator) (h : scored ≠ []) (generation : Nat) :
    Unless (s.nextGeneration g scored generation : PartialDraw σ (List Gene)) (¬ g.Ready) fun genes =>
      ∃ children, genes = Scored.elites scored s.eliteCount ++ children ∧
        children.length = s.populationSize - min s.eliteCount scored.length ∧
        Bred σ s g scored generation children := by
  apply Unless.ite
  · intro hempty
    exact absurd (List.isEmpty_iff.mp hempty) h
  · intro _
    apply (breed_bred g h generation _).bind
    rintro children ⟨hlength, hbred⟩
    rw [length_elites] at hlength
    exact Unless.pure ⟨children, rfl, hlength, hbred⟩

theorem Valid.nextGeneration_length (hvalid : s.Valid) (g : Generator) (scored : List Scored)
    (generation : Nat) :
    Unless (s.nextGeneration g scored generation : PartialDraw σ (List Gene)) (¬ g.Ready) fun genes =>
      genes.length = s.populationSize := by
  have helite := hvalid.eliteCount
  by_cases h : scored = []
  · subst h
    exact (hereditary_trivial s g).population.imp fun _ hgenes => hgenes.1
  · apply (nextGeneration_bred g h generation).imp
    rintro genes ⟨children, rfl, hlength, -⟩
    rw [List.length_append, length_elites, hlength]
    omega

/-- Settings that pass their check give a full population after one that is not empty: the best of it,
best first and equals in their order, and then children of couples. There is one for all words unless
the generator has no range to draw a constant from. -/
theorem nextGeneration_succeeds (hcheck : s.check = .ok ()) (h : scored ≠ []) (g : Generator)
    (generation : Nat) :
    Unless (s.nextGeneration g scored generation : PartialDraw σ (List Gene)) (¬ g.Ready) fun genes =>
      genes.length = s.populationSize ∧
      ∃ ranked children, Ranks Scored.standing ranked scored ∧
        genes = (ranked.take (min s.eliteCount scored.length)).map Scored.gene ++ children ∧
        Bred σ s g scored generation children := by
  have hvalid := check_eq_ok_iff.mp hcheck
  apply ((hvalid.nextGeneration_length g scored generation).and (nextGeneration_bred g h generation)).imp
  rintro genes ⟨hlength, children, rfl, -, hbred⟩
  have hranks : Ranks Scored.standing (Scored.ranked scored) scored := Ranks.mergeSort _ _
  refine ⟨hlength, Scored.ranked scored, children, hranks, ?_, hbred⟩
  rw [Scored.elites, ← hranks.perm.length_eq, ← List.take_eq_take_min]

/-- The default settings, after a single comparison that scores no number. -/
theorem nextGeneration_succeeds_default :
    let s := default
    let gene : Gene := ⟨.compare .greater (.series .close) (.constant 1), "00000000000000ab", 0, {}⟩
    let scored : List Scored := [⟨gene, { score := GenerationStats.notANumber }⟩]
    (s.check = .ok () ∧ scored ≠ []) ∧
    Unless (s.nextGeneration (.ofSettings s) scored 1 : PartialDraw ListedWords (List Gene)) False fun genes =>
      genes.length = 50 ∧
      ∃ ranked children, Ranks Scored.standing ranked scored ∧
        genes = (ranked.take (min 2 1)).map Scored.gene ++ children ∧
        Bred ListedWords s (.ofSettings s) scored 1 children := by
  intro s gene scored
  have hcheck : default.check = .ok () := by rfl
  have hsome : scored ≠ [] := List.cons_ne_nil _ _
  have hready : (Generator.ofSettings default).Ready := by decide +kernel
  exact ⟨⟨hcheck, hsome⟩,
    (nextGeneration_succeeds hcheck hsome (.ofSettings default) 1).total (not_not_intro hready)⟩

/-- Settings that pass their check with a domain of constants without an upper end: there is no next
generation where a subtree mutation asks for a constant. -/
theorem nextGeneration_breaks_off :
    let s : EvolutionSettings :=
      { default with
        populationSize := 2, eliteCount := 0, tournamentSize := 1, crossoverRate := 0,
        subtreeMutationRate := 1, constantMin := 200, constantMax := 1 / 0 }
    let gene : Gene := ⟨.compare .greater (.series .close) (.series .opening), "00000000000000ab", 0, {}⟩
    let scored : List Scored := [⟨gene, { score := 1 }⟩]
    s.check = .ok () ∧ scored ≠ [] ∧
    ∃ words : ListedWords, (s.nextGeneration (.ofSettings s) scored 1).run words = none := by
  intro s gene scored
  have hvalid : s.Valid := by
    constructor
    case rates => decide +kernel
    case convergenceWindow => exact fun hstop => Bool.noConfusion hstop
    all_goals decide +kernel
  have hnone : ((s.nextGeneration (.ofSettings s) scored 1).run (⟨[], 7⟩ : ListedWords)).isNone = true := by
    decide +kernel
  exact ⟨check_eq_ok_iff.mpr hvalid, List.cons_ne_nil _ _, _, Option.isNone_iff_eq_none.mp hnone⟩

end EvolutionSettings
end SignalEvolution

import SignalEvolution.Proofs.Variation.Bounds
import SignalEvolution.Proofs.Variation.Edit

/-! # Exchanged subtrees

Crossover draws a place in each of two trees, neither of them the root, and exchanges what is
there. The settings have no part in the draw: they only refuse children that are too large. What
is exchanged is neither lost nor doubled, and exchanging it again gives the parents back.
-/
namespace SignalEvolution.Tree

open Draw (Always)

variable {σ : Type} [WordSource σ] {a b x y t : Tree} {pathA pathB p : Path}

/-- The trees `x` and `y` are `a` and `b` with the subtrees at two places below the roots exchanged. -/
structure Exchanged (a b : Tree) (pathA pathB : Path) (x y : Tree) : Prop where
  below : pathA ≠ [] ∧ pathB ≠ []
  swapped : ∃ subA subB, a.get? pathA = some subA ∧ b.get? pathB = some subB ∧
    a.replaceAt? pathA subB = some (x, subA) ∧ b.replaceAt? pathB subA = some (y, subB)

namespace Exchanged

variable (h : Exchanged a b pathA pathB x y)

include h

theorem back : Exchanged x y pathA pathB a b := by
  obtain ⟨hbelow, subA, subB, -, -, hx, hy⟩ := h
  have ha := replaceAt?_back hx
  have hb := replaceAt?_back hy
  exact ⟨hbelow, subB, subA, get?_of_replaceAt? ha, get?_of_replaceAt? hb, ha, hb⟩

/-- No node is lost and none is doubled. -/
theorem kinds_eq : x.kinds + y.kinds = a.kinds + b.kinds := by
  obtain ⟨-, subA, subB, -, -, hx, hy⟩ := h
  have hxa := kinds_replaceAt? hx
  have hyb := kinds_replaceAt? hy
  apply add_right_cancel (b := subA.kinds + subB.kinds)
  calc x.kinds + y.kinds + (subA.kinds + subB.kinds)
      = (x.kinds + subA.kinds) + (y.kinds + subB.kinds) := by abel
    _ = (a.kinds + subB.kinds) + (b.kinds + subA.kinds) := by rw [hxa, hyb]
    _ = a.kinds + b.kinds + (subA.kinds + subB.kinds) := by abel

theorem nodeCount_eq : x.nodeCount + y.nodeCount = a.nodeCount + b.nodeCount := by
  rw [← card_kinds, ← card_kinds, ← card_kinds, ← card_kinds, ← Multiset.card_add, h.kinds_eq,
    Multiset.card_add]

theorem kind_eq : x.kind = a.kind ∧ y.kind = b.kind := by
  obtain ⟨⟨hpathA, hpathB⟩, _, _, -, -, hx, hy⟩ := h
  exact ⟨kind_replaceAt? hx hpathA, kind_replaceAt? hy hpathB⟩

end Exchanged

/-- A place below the root of each tree, where there is one. -/
def exchangePlaces (a b : Tree) : Draw σ (Option (Path × Path)) := do
  match ← Draw.choose? a.innerPaths with
  | none => return none
  | some pathA =>
    match ← Draw.choose? b.innerPaths with
    | none => return none
    | some pathB => return some (pathA, pathB)

theorem exchangePlaces_cases (a b : Tree) :
    Always (exchangePlaces a b : Draw σ (Option (Path × Path))) fun places =>
      places = none ∧ (a.nodeCount = 1 ∨ b.nodeCount = 1) ∨
      ∃ pathA ∈ a.innerPaths, ∃ pathB ∈ b.innerPaths, places = some (pathA, pathB) := by
  apply (Always.choose?_cases a.innerPaths).bind
  rintro _ (⟨rfl, hempty⟩ | ⟨pathA, hpathA, rfl⟩)
  · exact Always.pure (.inl ⟨rfl, .inl (innerPaths_eq_nil_iff.mp hempty)⟩)
  · apply (Always.choose?_cases b.innerPaths).bind
    rintro _ (⟨rfl, hempty⟩ | ⟨pathB, hpathB, rfl⟩)
    · exact Always.pure (.inl ⟨rfl, .inr (innerPaths_eq_nil_iff.mp hempty)⟩)
    · exact Always.pure (.inr ⟨pathA, hpathA, pathB, hpathB, rfl⟩)

/-- Both trees after an exchange at these places. -/
def exchangeAt (a b : Tree) (pathA pathB : Path) : Option (Tree × Tree) :=
  match a.get? pathA, b.get? pathB with
  | some subA, some subB => some (a.graft pathA subB, b.graft pathB subA)
  | _, _ => none

theorem exists_exchangeAt (hpathA : pathA ∈ a.innerPaths) (hpathB : pathB ∈ b.innerPaths) :
    ∃ x y, exchangeAt a b pathA pathB = some (x, y) ∧ Exchanged a b pathA pathB x y := by
  obtain ⟨subA, hA⟩ := exists_get? (List.mem_of_mem_tail hpathA)
  obtain ⟨subB, hB⟩ := exists_get? (List.mem_of_mem_tail hpathB)
  obtain ⟨x, hx, -⟩ := replaceAt?_of_get? hA subB
  obtain ⟨y, hy, -⟩ := replaceAt?_of_get? hB subA
  have hexchange : exchangeAt a b pathA pathB = some (x, y) := by
    simp only [exchangeAt, hA, hB, graft, hx, hy]
  exact ⟨x, y, hexchange, ⟨⟨ne_nil_of_mem_innerPaths hpathA, ne_nil_of_mem_innerPaths hpathB⟩,
    subA, subB, hA, hB, hx, hy⟩⟩

/-- The settings only judge what the draw of the places has settled. -/
theorem run_crossover (s : EvolutionSettings) (a b : Tree) (w : σ) :
    ((crossover s a b).run w).1 = (((exchangePlaces a b).run w).1.bind fun places =>
      exchangeAt a b places.1 places.2).filter fun out => s.admits out.1 && s.admits out.2 := by
  have hcrossover : crossover s a b = (exchangePlaces a b : Draw σ (Option (Path × Path))) >>= fun places =>
      pure ((places.bind fun places => exchangeAt a b places.1 places.2).filter fun out =>
        s.admits out.1 && s.admits out.2) := by
    unfold crossover exchangePlaces
    rw [bind_assoc]
    refine bind_congr fun placeA => ?_
    cases placeA with
    | none => rfl
    | some pathA =>
      dsimp only
      rw [bind_assoc]
      refine bind_congr fun placeB => ?_
      cases placeB with
      | none => rfl
      | some pathB =>
        simp only [pure_bind, Option.bind_some, exchangeAt]
        cases a.get? pathA with
        | none => rfl
        | some subA =>
          cases b.get? pathB with
          | none => rfl
          | some subB => rw [Option.filter_some]
  rw [hcrossover]
  rfl

/-- A single node leaves no place; otherwise the places are settled before the settings judge. -/
theorem crossover_cases (a b : Tree) (w : σ) :
    ((a.nodeCount = 1 ∨ b.nodeCount = 1) ∧ ∀ s, ((crossover s a b).run w).1 = none) ∨
    (a.nodeCount ≠ 1 ∧ b.nodeCount ≠ 1) ∧ ∃ pathA pathB x y, Exchanged a b pathA pathB x y ∧
      ∀ s, ((crossover s a b).run w).1 = if s.admits x && s.admits y then some (x, y) else none := by
  rcases (exchangePlaces_cases a b).holds w with ⟨hnone, hsingle⟩ | ⟨pathA, hpathA, pathB, hpathB, hplaces⟩
  · refine .inl ⟨hsingle, ?_⟩
    intro s
    rw [run_crossover, hnone]
    rfl
  · have hnode : ∀ {t : Tree} {p : Path}, p ∈ t.innerPaths → t.nodeCount ≠ 1 := by
      intro t p hp hsingle
      rw [innerPaths_eq_nil_iff.mpr hsingle] at hp
      exact absurd hp List.not_mem_nil
    obtain ⟨x, y, hexchange, hexchanged⟩ := exists_exchangeAt hpathA hpathB
    refine .inr ⟨⟨hnode hpathA, hnode hpathB⟩, pathA, pathB, x, y, hexchanged, ?_⟩
    intro s
    rw [run_crossover, hplaces, Option.bind_some, hexchange, Option.filter_some]

/-- The children of a crossover, where there are any, are the parents with the subtrees at two
places below their roots exchanged: together they have the nodes of the parents, kind by kind,
each has the root of its parent, and the same exchange gives the parents back. There are none
from a single node. Otherwise the words settle the places and with them the children, for all
settings alike, and there are none just where one of them is not within the bounds. -/
theorem crossover_exchanges (a b : Tree) (w : σ) :
    (∀ s x y, ((crossover s a b).run w).1 = some (x, y) →
      ∃ pathA pathB, Exchanged a b pathA pathB x y ∧ Exchanged x y pathA pathB a b ∧
        x.kinds + y.kinds = a.kinds + b.kinds ∧
        x.nodeCount + y.nodeCount = a.nodeCount + b.nodeCount ∧
        x.kind = a.kind ∧ y.kind = b.kind) ∧
    (a.nodeCount = 1 ∨ b.nodeCount = 1 → ∀ s, ((crossover s a b).run w).1 = none) ∧
    (a.nodeCount ≠ 1 → b.nodeCount ≠ 1 → ∃ pathA pathB x y, Exchanged a b pathA pathB x y ∧
      ∀ s, (s.Within x ∧ s.Within y → ((crossover s a b).run w).1 = some (x, y)) ∧
        (¬ s.Within x ∨ ¬ s.Within y → ((crossover s a b).run w).1 = none)) := by
  rcases crossover_cases a b w with ⟨hsingle, hnone⟩ | ⟨⟨ha, hb⟩, pathA, pathB, x, y, hexchanged, hrun⟩
  · refine ⟨?_, fun _ => hnone, fun ha hb => absurd hsingle (not_or.mpr ⟨ha, hb⟩)⟩
    intro s x y h
    rw [hnone] at h
    cases h
  · refine ⟨?_, fun hsingle => absurd hsingle (not_or.mpr ⟨ha, hb⟩), ?_⟩
    · intro s x' y' h
      rw [hrun] at h
      split at h
      · obtain ⟨rfl, rfl⟩ := Prod.mk.inj (Option.some.inj h)
        exact ⟨pathA, pathB, hexchanged, hexchanged.back, hexchanged.kinds_eq, hexchanged.nodeCount_eq,
          hexchanged.kind_eq⟩
      · cases h
    · intro _ _
      refine ⟨pathA, pathB, x, y, hexchanged, ?_⟩
      intro s
      have hadmits : (s.admits x && s.admits y) = true ↔ s.Within x ∧ s.Within y := by
        rw [Bool.and_eq_true, EvolutionSettings.admits_iff, EvolutionSettings.admits_iff]
      rw [hrun]
      exact ⟨fun hwithin => if_pos (hadmits.mpr hwithin),
        fun hbeyond => if_neg (mt hadmits.mp (not_and_or.mpr hbeyond))⟩

/-- A comparison and a negated one, which differ in size. -/
theorem crossover_exchanges_comparisons :
    let a := Tree.compare .greater (.series .close) (.constant 1)
    let b := Tree.negation (.compare .less (.series .close) (.constant 2))
    let words : ListedWords := ⟨[0, 0], 0⟩
    (∃ x y pathA pathB, ((crossover .default a b).run words).1 = some (x, y) ∧
      Exchanged a b pathA pathB x y) ∧
    ((crossover .default (.constant 1) b).run words).1 = none ∧
    ∃ pathA pathB x y, Exchanged a b pathA pathB x y ∧ x.nodeCount + y.nodeCount = 7 := by
  intro a b words
  obtain ⟨hsome, -, hother⟩ := crossover_exchanges a b words
  obtain ⟨-, hnone, -⟩ := crossover_exchanges (.constant 1) b words
  have hgiven : ((crossover .default a b).run words).1.isSome = true := by decide +kernel
  obtain ⟨⟨x, y⟩, hrun⟩ := Option.isSome_iff_exists.mp hgiven
  obtain ⟨pathA, pathB, hexchanged, -⟩ := hsome .default x y hrun
  obtain ⟨otherA, otherB, x', y', hexchanged', -⟩ := hother (by decide) (by decide)
  exact ⟨⟨x, y, pathA, pathB, hrun, hexchanged⟩, hnone (.inl rfl) .default, otherA, otherB, x', y',
    hexchanged', hexchanged'.nodeCount_eq⟩

end SignalEvolution.Tree

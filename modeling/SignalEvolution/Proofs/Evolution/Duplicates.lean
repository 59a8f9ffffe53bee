import SignalEvolution.Proofs.Evolution.Hall
import SignalEvolution.Proofs.Formula.Unambiguity

/-! # Duplicates in the hall of fame

A hall recognises duplicates by their formulas. As a formula belongs to one tree only, zeros of
either sign being equal, it holds no two equal trees and takes every tree that it does not hold.
-/
namespace SignalEvolution

namespace Elite

def root (e : Elite) : Tree := e.scored.gene.root

/-- An entry under the formula of its tree, which says all that the tree is. -/
structure Proper (e : Elite) : Prop where
  canonical : e.canonical = e.root.formula
  root : Formula.Canonical e.root

theorem Proper.same_iff {a b : Elite} (ha : a.Proper) (hb : b.Proper) :
    a.canonical = b.canonical ↔ (a.root == b.root) = true := by
  rw [ha.canonical, hb.canonical]
  exact Formula.formula_eq_iff ha.root hb.root

end Elite

namespace Hall

variable {h : Hall} {e : Elite} {offered : List Elite}

theorem Indexed.offer (hi : h.Indexed) (e : Elite) : (h.offer e).1.Indexed := by
  unfold Hall.offer
  split
  · exact hi
  · next hnew =>
    have hnot : e.canonical ∉ h.signatures := by simpa using (not_or.mp hnew).2
    exact (hi.add hnot).trim

theorem mem_of_mem_offer {a : Elite} (ha : a ∈ (h.offer e).1.entries) : a ∈ h.entries ∨ a = e := by
  unfold Hall.offer at ha
  split at ha
  · exact .inl ha
  · have hmem := (ranks (h.entries ++ [e])).perm.mem_iff.mp (List.mem_of_mem_take ha)
    simpa using hmem

theorem offerEach_spec (capacity : Nat) (offered : List Elite) :
    (offerEach { capacity } offered).Indexed ∧
      ∀ a ∈ (offerEach { capacity } offered).entries, a ∈ offered := by
  induction offered using List.reverseRecOn with
  | nil => exact ⟨(holds_empty capacity).indexed, fun a ha => absurd ha List.not_mem_nil⟩
  | append_singleton offered e ih =>
    obtain ⟨hindexed, hmem⟩ := ih
    rw [offerEach, List.foldl_append]
    refine ⟨hindexed.offer e, ?_⟩
    intro a ha
    rcases mem_of_mem_offer ha with ha | rfl
    · exact List.mem_append_left _ (hmem a ha)
    · exact List.mem_concat_self

/-- A hall of proper entries knows the formulas of the trees that it holds. -/
theorem Indexed.known_iff (hi : h.Indexed) (hentries : ∀ a ∈ h.entries, a.Proper) (he : e.Proper) :
    e.canonical ∈ h.signatures ↔ ∃ a ∈ h.entries, (a.root == e.root) = true := by
  rw [hi.signatures, List.mem_map]
  constructor
  · rintro ⟨a, ha, heq⟩
    exact ⟨a, ha, ((hentries a ha).same_iff he).mp heq⟩
  · rintro ⟨a, ha, hsame⟩
    exact ⟨a, ha, ((hentries a ha).same_iff he).mpr hsame⟩

theorem Indexed.pairwise_different (hi : h.Indexed) (hentries : ∀ a ∈ h.entries, a.Proper) :
    h.entries.Pairwise fun a b => (a.root == b.root) = false := by
  apply (List.pairwise_map.mp hi.nodup).imp_of_mem
  intro a b ha hb hne
  rw [← Bool.not_eq_true]
  intro hsame
  exact hne (((hentries a ha).same_iff (hentries b hb)).mpr hsame)

/-- Two trees with all their children, with calls of exactly the declared parameters and without a
NaN have the same formula exactly when they are equal. So a hall holds no two equal trees, an
equal one is refused, and any other one is ranked among the entries. -/
theorem formulas_tell_trees_apart :
    (∀ t u, Formula.Canonical t → Formula.Canonical u → (t.formula = u.formula ↔ (t == u) = true)) ∧
    ∀ (capacity : Nat) (offerings : List Offering),
      (∀ e ∈ offerings.flatMap Offering.elites, e.Proper) →
      let hall := offerings.foldl receive { capacity }
      hall.entries.Pairwise (fun a b => (a.root == b.root) = false) ∧
      ∀ e : Elite, e.Proper →
        ((∃ a ∈ hall.entries, (a.root == e.root) = true) → hall.offer e = (hall, false)) ∧
        ((∀ a ∈ hall.entries, (a.root == e.root) = false) → 0 < capacity →
          (hall.offer e).2 = true ∧
          (hall.offer e).1.entries = (ranked (hall.entries ++ [e])).take capacity) := by
  refine ⟨fun t u ht hu => Formula.formula_eq_iff ht hu, ?_⟩
  intro capacity offerings hproper hall
  have hall_eq : hall = offerEach { capacity } (offerings.flatMap Offering.elites) :=
    foldl_receive_eq _ offerings
  have hcapacity : hall.capacity = capacity := by rw [hall_eq, capacity_offerEach]
  obtain ⟨hindexed, hmem⟩ := offerEach_spec capacity (offerings.flatMap Offering.elites)
  rw [← hall_eq] at hindexed hmem
  have hentries : ∀ a ∈ hall.entries, a.Proper := fun a ha => hproper a (hmem a ha)
  refine ⟨hindexed.pairwise_different hentries, ?_⟩
  intro e he
  have hknown := hindexed.known_iff hentries he
  constructor
  · intro hsame
    exact offer_of_mem (hknown.mpr hsame)
  · intro hdifferent hpos
    have hnew : e.canonical ∉ hall.signatures := by
      rw [hknown]
      rintro ⟨a, ha, hsame⟩
      rw [hdifferent a ha] at hsame
      cases hsame
    have htaken := offer_of_not_mem (hcapacity ▸ hpos) hnew
    rw [hcapacity] at htaken
    exact htaken

/-- A comparison with zero and the same with a minus before it, and then one of another series. -/
theorem formulas_tell_trees_apart_zero :
    let zero : Tree := Tree.compare .greater (.series .close) (.constant 0)
    let minus : Tree := Tree.compare .greater (.series .close) (.constant (-0))
    let volume : Tree := Tree.compare .greater (.series .volume) (.constant 0)
    let offer (t : Tree) : Elite := Elite.ofScored ⟨⟨t, "00000000000000aa", 0, {}⟩, { score := 0.5 }⟩ 0
    let hall := [Offering.entry (offer zero)].foldl receive { capacity := 2 }
    zero.formula = minus.formula ∧ hall.offer (offer minus) = (hall, false) ∧
    (hall.offer (offer volume)).2 = true := by
  intro zero minus volume offer hall
  have hcanonical : ∀ s x, x.isNaN = false →
      Formula.Canonical (Tree.compare .greater (.series s) (.constant x)) := by
    intro s x hx
    have hleft : Formula.Canonical (.series s) :=
      Formula.canonical_iff.mpr ⟨rfl, trivial, trivial, by simp⟩
    have hright : Formula.Canonical (.constant x) :=
      Formula.canonical_iff.mpr ⟨rfl, trivial, hx, by simp⟩
    refine Formula.canonical_iff.mpr ⟨rfl, trivial, trivial, ?_⟩
    intro c hc
    rcases List.mem_pair.mp hc with rfl | rfl
    · exact hleft
    · exact hright
  have hzero : Formula.Canonical zero := hcanonical .close 0 (by decide +kernel)
  have hminus : Formula.Canonical minus := hcanonical .close (-0) (by decide +kernel)
  have hvolume : Formula.Canonical volume := hcanonical .volume 0 (by decide +kernel)
  have hsame : (zero == minus) = true := by decide +kernel
  have hdifferent : (zero == volume) = false := by decide +kernel
  have hproper : ∀ t, Formula.Canonical t → (offer t).Proper := fun t ht => ⟨rfl, ht⟩
  have hentries : hall.entries = [offer zero] := by
    change ([offer zero].mergeSort _).take 2 = _
    rw [List.mergeSort_singleton]
    rfl
  obtain ⟨hformula, hhall⟩ := formulas_tell_trees_apart
  obtain ⟨-, hoffer⟩ := hhall 2 [.entry (offer zero)]
    (by simpa [Offering.elites] using hproper zero hzero)
  refine ⟨(hformula zero minus hzero hminus).mpr hsame, ?_, ?_⟩
  · apply (hoffer (offer minus) (hproper minus hminus)).1
    exact ⟨offer zero, hentries ▸ List.mem_singleton_self _, hsame⟩
  · apply ((hoffer (offer volume) (hproper volume hvolume)).2 _ (by decide)).1
    intro a ha
    obtain rfl := List.mem_singleton.mp (hentries ▸ ha)
    exact hdifferent

end Hall
end SignalEvolution

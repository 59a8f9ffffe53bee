import Mathlib
import SignalEvolution.Arithmetic.Exact
import SignalEvolution.Tree.Distance

/-! # Distances without rounding

The distance of two trees is a share of positions: it is nothing exactly where both have the same
node types in the same order. The diversity of a population adds the distance of every two of its
members once. Counted from both members that is the sum over all ordered pairs, in which the order
of the population has no part.
-/
namespace SignalEvolution

variable {xs ys : List NodeType} {sequences others : List (List NodeType)} {trees : List Tree}

theorem agreements_comm (xs ys : List NodeType) : agreements xs ys = agreements ys xs := by
  induction xs generalizing ys with
  | nil => cases ys <;> rfl
  | cons x xs ih =>
    cases ys with
    | nil => rfl
    | cons y ys => simp only [agreements, ih, eq_comm]

theorem agreements_le (xs ys : List NodeType) : agreements xs ys ≤ max xs.length ys.length := by
  induction xs generalizing ys with
  | nil => exact Nat.zero_le _
  | cons x xs ih =>
    cases ys with
    | nil => exact Nat.zero_le _
    | cons y ys =>
      have hrest := ih ys
      rw [agreements, List.length_cons, List.length_cons]
      split <;> omega

/-- Sequences agree at all positions of the longer one only if they are the same. -/
theorem agreements_eq_iff : agreements xs ys = max xs.length ys.length ↔ xs = ys := by
  induction xs generalizing ys with
  | nil => cases ys <;> simp [agreements]
  | cons x xs ih =>
    cases ys with
    | nil => simp [agreements]
    | cons y ys =>
      have hrest := agreements_le xs ys
      rw [agreements, List.length_cons, List.length_cons, List.cons.injEq, ← ih]
      split
      · next hxy =>
        simp only [hxy, true_and]
        omega
      · next hxy =>
        simp only [hxy, false_and, iff_false]
        omega

theorem sequenceDistance_eq (xs ys : List NodeType) : (sequenceDistance xs ys : ℚ) =
    if max xs.length ys.length = 0 then 0
    else 1 - (agreements xs ys : ℚ) / (max xs.length ys.length : ℕ) := rfl

theorem sequenceDistance_comm (xs ys : List NodeType) :
    (sequenceDistance xs ys : ℚ) = sequenceDistance ys xs := by
  rw [sequenceDistance_eq, sequenceDistance_eq, agreements_comm, max_comm]

theorem sequenceDistance_nonneg (xs ys : List NodeType) : (0 : ℚ) ≤ sequenceDistance xs ys := by
  rw [sequenceDistance_eq]
  split
  · exact le_refl 0
  · have hcount : (agreements xs ys : ℚ) ≤ (max xs.length ys.length : ℕ) := Nat.cast_le.mpr (agreements_le xs ys)
    exact sub_nonneg.mpr (div_le_one_of_le₀ hcount (Nat.cast_nonneg _))

theorem sequenceDistance_le_one (xs ys : List NodeType) : (sequenceDistance xs ys : ℚ) ≤ 1 := by
  rw [sequenceDistance_eq]
  split
  · exact zero_le_one
  · exact sub_le_self 1 (div_nonneg (Nat.cast_nonneg _) (Nat.cast_nonneg _))

theorem sequenceDistance_eq_zero_iff : (sequenceDistance xs ys : ℚ) = 0 ↔ xs = ys := by
  rw [sequenceDistance_eq, ← agreements_eq_iff]
  split
  · next hzero =>
    have hnone := agreements_le xs ys
    simp only [true_iff]
    omega
  · next hpos =>
    rw [sub_eq_zero, eq_comm, div_eq_one_iff_eq (Nat.cast_ne_zero.mpr hpos), Nat.cast_inj]

namespace Diversity

/-- The sum of the distances of all pairs, each counted at its earlier member. -/
def pairTotal : List (List NodeType) → ℚ
  | [] => 0
  | xs :: rest => (rest.map (sequenceDistance xs)).sum + pairTotal rest

theorem addPairs_eq (total : ℚ) (sequences : List (List NodeType)) :
    addPairs total sequences = total + pairTotal sequences := by
  induction sequences generalizing total with
  | nil => exact (add_zero total).symm
  | cons xs rest ih =>
    have hrow : ∀ total : ℚ, rest.foldl (fun sum ys => sum + sequenceDistance xs ys) total =
        total + (rest.map (sequenceDistance xs)).sum := by
      clear ih
      induction rest with
      | nil => exact fun total => (add_zero total).symm
      | cons ys rest ih =>
        intro total
        rw [List.foldl_cons, ih, List.map_cons, List.sum_cons, add_assoc]
    rw [addPairs, hrow, ih, pairTotal, add_assoc]

/-- Counted at both members, the pairs are those of every member with every member. -/
theorem two_mul_pairTotal (sequences : List (List NodeType)) : 2 * pairTotal sequences =
    (sequences.map fun xs => (sequences.map (sequenceDistance xs)).sum).sum := by
  induction sequences with
  | nil => simp [pairTotal]
  | cons xs rest ih =>
    have hself : (sequenceDistance xs xs : ℚ) = 0 := sequenceDistance_eq_zero_iff.mpr rfl
    have hcolumn : (rest.map fun ys => (sequenceDistance ys xs : ℚ)).sum =
        (rest.map (sequenceDistance xs)).sum := by
      simp only [sequenceDistance_comm _ xs]
    simp only [List.map_cons, List.sum_cons, List.sum_map_add, hself, hcolumn, ← ih, pairTotal]
    ring

theorem pairTotal_perm (h : sequences.Perm others) : pairTotal sequences = pairTotal others := by
  have hrow : ∀ xs, ((sequences.map (sequenceDistance xs)).sum : ℚ) = (others.map (sequenceDistance xs)).sum :=
    fun xs => (h.map _).sum_eq
  have hdouble : 2 * pairTotal sequences = 2 * pairTotal others := by
    rw [two_mul_pairTotal, two_mul_pairTotal]
    simp only [hrow]
    exact (h.map _).sum_eq
  linarith

theorem row_nonneg (xs : List NodeType) (sequences : List (List NodeType)) :
    (0 : ℚ) ≤ (sequences.map (sequenceDistance xs)).sum := by
  apply List.sum_nonneg
  rw [List.forall_mem_map]
  exact fun ys _ => sequenceDistance_nonneg xs ys

theorem row_eq_zero_iff {xs : List NodeType} :
    (sequences.map (sequenceDistance xs)).sum = (0 : ℚ) ↔ ∀ ys ∈ sequences, xs = ys := by
  constructor
  · intro h ys hys
    apply sequenceDistance_eq_zero_iff.mp
    apply List.all_zero_of_le_zero_le_of_sum_eq_zero _ h (List.mem_map_of_mem hys)
    rw [List.forall_mem_map]
    exact fun zs _ => sequenceDistance_nonneg xs zs
  · intro h
    apply List.sum_eq_zero
    rw [List.forall_mem_map]
    exact fun ys hys => sequenceDistance_eq_zero_iff.mpr (h ys hys)

theorem pairTotal_nonneg (sequences : List (List NodeType)) : 0 ≤ pairTotal sequences := by
  induction sequences with
  | nil => exact le_refl 0
  | cons xs rest ih => exact add_nonneg (row_nonneg xs rest) ih

/-- No total exceeds the number of pairs. -/
theorem pairTotal_le (sequences : List (List NodeType)) : pairTotal sequences ≤ (sequences.length.choose 2 : ℕ) := by
  induction sequences with
  | nil => exact le_refl 0
  | cons xs rest ih =>
    have hrow : (rest.map (sequenceDistance xs)).sum ≤ (rest.length : ℚ) := by
      have hone : ∀ d ∈ rest.map (sequenceDistance xs), d ≤ (1 : ℚ) :=
        List.forall_mem_map.mpr fun ys _ => sequenceDistance_le_one xs ys
      simpa using List.sum_le_card_nsmul _ _ hone
    rw [pairTotal, List.length_cons, Nat.choose_succ_succ, Nat.choose_one_right, Nat.cast_add]
    exact add_le_add hrow ih

theorem pairTotal_of_no_pairs (h : sequences.length.choose 2 = 0) : pairTotal sequences = 0 := by
  apply le_antisymm _ (pairTotal_nonneg sequences)
  have hbound := pairTotal_le sequences
  rwa [h] at hbound

theorem pairTotal_eq_zero_iff : pairTotal sequences = 0 ↔ ∀ xs ∈ sequences, ∀ ys ∈ sequences, xs = ys := by
  constructor
  · intro h xs hxs
    have hdouble := two_mul_pairTotal sequences
    rw [h, mul_zero] at hdouble
    apply row_eq_zero_iff.mp
    apply List.all_zero_of_le_zero_le_of_sum_eq_zero _ hdouble.symm (List.mem_map_of_mem hxs)
    rw [List.forall_mem_map]
    exact fun zs _ => row_nonneg zs sequences
  · intro h
    induction sequences with
    | nil => rfl
    | cons xs rest ih =>
      obtain ⟨hxs, hrest⟩ := List.forall_mem_cons.mp h
      have hrow : (rest.map (sequenceDistance xs)).sum = (0 : ℚ) :=
        row_eq_zero_iff.mpr fun ys hys => hxs ys (List.mem_cons_of_mem xs hys)
      rw [pairTotal, hrow, ih fun ys hys zs hzs => hrest ys hys zs (List.mem_cons_of_mem xs hzs), add_zero]

/-- The diversity is the mean over the pairs, and nothing where there are none. -/
theorem ofTrees_eq (trees : List Tree) : (ofTrees trees : ℚ) =
    pairTotal (trees.map Tree.typeSequence) / (trees.length.choose 2 : ℕ) := by
  have hcases : (ofTrees trees : ℚ) = if trees.length < 2 then 0
      else addPairs 0 (trees.map Tree.typeSequence) / ((trees.length * (trees.length - 1) / 2 : ℕ) : ℚ) := rfl
  rw [hcases]
  split
  · next hfew => rw [Nat.choose_eq_zero_of_lt hfew, Nat.cast_zero, div_zero]
  · rw [addPairs_eq, zero_add, Nat.choose_two_right]

/-- Every two members count once, so that over ordered pairs each distance counts twice. -/
theorem ofTrees_mul (trees : List Tree) : (ofTrees trees : ℚ) * (trees.length * (trees.length - 1)) =
    (trees.map fun s => (trees.map fun t => (s.distance t : ℚ)).sum).sum := by
  have hdouble := two_mul_pairTotal (trees.map Tree.typeSequence)
  simp only [List.map_map] at hdouble
  have hpairs : (trees.length : ℚ) * (trees.length - 1) = 2 * (trees.length.choose 2 : ℕ) := by
    rw [Nat.cast_choose_two]
    ring
  have htotal : (ofTrees trees : ℚ) * (trees.length.choose 2 : ℕ) = pairTotal (trees.map Tree.typeSequence) := by
    rw [ofTrees_eq]
    apply div_mul_cancel_of_imp
    intro hnone
    apply pairTotal_of_no_pairs
    rwa [List.length_map, ← Nat.cast_eq_zero (R := ℚ)]
  calc (ofTrees trees : ℚ) * (trees.length * (trees.length - 1))
    _ = 2 * ((ofTrees trees : ℚ) * (trees.length.choose 2 : ℕ)) := by rw [hpairs]; ring
    _ = 2 * pairTotal (trees.map Tree.typeSequence) := by rw [htotal]
    _ = _ := hdouble

theorem ofTrees_eq_zero_iff : (ofTrees trees : ℚ) = 0 ↔ pairTotal (trees.map Tree.typeSequence) = 0 := by
  rw [ofTrees_eq, div_eq_zero_iff, or_iff_left_of_imp]
  intro hnone
  apply pairTotal_of_no_pairs
  rwa [List.length_map, ← Nat.cast_eq_zero (R := ℚ)]

end Diversity

/-- Distances are symmetric shares, and nothing where both trees have the same sequence of node
types. Diversities are means of them over all pairs, whatever the order of the population, and
nothing where all members have the same sequence. -/
theorem distances_are_shares :
    (∀ s t : Tree, (s.distance t : ℚ) = t.distance s ∧ (0 : ℚ) ≤ s.distance t ∧ (s.distance t : ℚ) ≤ 1 ∧
      ((s.distance t : ℚ) = 0 ↔ s.typeSequence = t.typeSequence)) ∧
    ∀ trees : List Tree, (0 : ℚ) ≤ Diversity.ofTrees trees ∧ (Diversity.ofTrees trees : ℚ) ≤ 1 ∧
      (∀ others : List Tree, trees.Perm others →
        (Diversity.ofTrees trees : ℚ) = Diversity.ofTrees others) ∧
      (Diversity.ofTrees trees : ℚ) * (trees.length * (trees.length - 1)) =
        (trees.map fun s => (trees.map fun t => (s.distance t : ℚ)).sum).sum ∧
      ((Diversity.ofTrees trees : ℚ) = 0 ↔ ∀ s ∈ trees, ∀ t ∈ trees, s.typeSequence = t.typeSequence) := by
  constructor
  · intro s t
    exact ⟨sequenceDistance_comm _ _, sequenceDistance_nonneg _ _, sequenceDistance_le_one _ _,
      sequenceDistance_eq_zero_iff⟩
  · intro trees
    refine ⟨?_, ?_, ?_, Diversity.ofTrees_mul trees, ?_⟩
    · rw [Diversity.ofTrees_eq]
      exact div_nonneg (Diversity.pairTotal_nonneg _) (Nat.cast_nonneg _)
    · have hbound := Diversity.pairTotal_le (trees.map Tree.typeSequence)
      rw [List.length_map] at hbound
      rw [Diversity.ofTrees_eq]
      exact div_le_one_of_le₀ hbound (Nat.cast_nonneg _)
    · intro others h
      rw [Diversity.ofTrees_eq, Diversity.ofTrees_eq, h.length_eq, Diversity.pairTotal_perm (h.map _)]
    · rw [Diversity.ofTrees_eq_zero_iff, Diversity.pairTotal_eq_zero_iff]
      simp only [List.forall_mem_map]

end SignalEvolution

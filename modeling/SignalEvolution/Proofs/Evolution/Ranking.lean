import SignalEvolution.Evolution.Hall

/-! # Rankings

A ranking lists entries from best to worst and equals in the order in which they came. There
is one for all entries, and an entry that comes last is placed below its equals.
-/
namespace SignalEvolution

variable {α : Type} {standing : α → Int} {ranked other entries : List α} {e : α}

/-- The first list ranks the second one. -/
structure Ranks (standing : α → Int) (ranked entries : List α) : Prop where
  perm : ranked.Perm entries
  descending : ranked.Pairwise fun a b => standing b ≤ standing a
  stable : ∀ s, (ranked.filter fun a => standing a = s) = entries.filter fun a => standing a = s

namespace Ranks

theorem mergeSort (standing : α → Int) (entries : List α) :
    Ranks standing (entries.mergeSort fun a b => standing b ≤ standing a) entries := by
  have htrans : ∀ a b c : α, decide (standing b ≤ standing a) = true →
      decide (standing c ≤ standing b) = true → decide (standing c ≤ standing a) = true := by
    intro a b c hab hbc
    simp only [decide_eq_true_eq] at hab hbc ⊢
    omega
  have htotal : ∀ a b : α,
      (decide (standing b ≤ standing a) || decide (standing a ≤ standing b)) = true := by
    intro a b
    simp only [Bool.or_eq_true, decide_eq_true_eq]
    omega
  have hperm := List.mergeSort_perm entries fun a b => decide (standing b ≤ standing a)
  constructor
  · exact hperm
  · have hsorted := List.pairwise_mergeSort htrans htotal entries
    exact hsorted.imp of_decide_eq_true
  · intro s
    -- Equals are in order already, so they are found in the same order after sorting.
    have hequals : (entries.filter fun a => standing a = s).Pairwise
        fun a b => decide (standing b ≤ standing a) = true := by
      rw [List.pairwise_filter]
      apply List.pairwise_of_forall
      intro a b ha hb
      simp only [decide_eq_true_eq] at ha hb ⊢
      omega
    have hsub := List.sublist_mergeSort htrans htotal hequals List.filter_sublist
    have hfiltered := hsub.filter fun a => decide (standing a = s)
    rw [List.filter_filter] at hfiltered
    simp only [Bool.and_self] at hfiltered
    have hlength := (hperm.filter fun a => decide (standing a = s)).length_eq
    exact (hfiltered.eq_of_length hlength.symm).symm

/-- Lists in order with the same equals in the same order are the same. -/
theorem eq_of_descending (h : ranked.Pairwise fun a b => standing b ≤ standing a)
    (h' : other.Pairwise fun a b => standing b ≤ standing a)
    (heq : ∀ s, (ranked.filter fun a => standing a = s) = other.filter fun a => standing a = s) :
    ranked = other := by
  have hmem : ∀ {xs ys : List α}, (∀ s, (xs.filter fun a => decide (standing a = s)) =
      ys.filter fun a => decide (standing a = s)) → ∀ a ∈ xs, a ∈ ys := by
    intro xs ys heq a ha
    have hkept : a ∈ xs.filter fun b => decide (standing b = standing a) := by
      simpa [List.mem_filter] using ha
    rw [heq] at hkept
    exact (List.mem_filter.mp hkept).1
  induction ranked generalizing other with
  | nil =>
    symm
    rw [List.eq_nil_iff_forall_not_mem]
    intro b hb
    exact List.not_mem_nil (hmem (fun s => (heq s).symm) b hb)
  | cons a rest ih =>
    cases other with
    | nil => exact absurd (hmem heq a List.mem_cons_self) List.not_mem_nil
    | cons b others =>
      obtain ⟨ha, hrest⟩ := List.pairwise_cons.mp h
      obtain ⟨hb, hothers⟩ := List.pairwise_cons.mp h'
      have hab : standing a = standing b := by
        have hle : standing a ≤ standing b := by
          rcases List.mem_cons.mp (hmem heq a List.mem_cons_self) with rfl | hin
          · exact Int.le_refl _
          · exact hb a hin
        have hge : standing b ≤ standing a := by
          rcases List.mem_cons.mp (hmem (fun s => (heq s).symm) b List.mem_cons_self) with rfl | hin
          · exact Int.le_refl _
          · exact ha b hin
        omega
      obtain rfl : a = b := by
        have hfirst := heq (standing a)
        simp only [hab, decide_true, List.filter_cons_of_pos, List.cons.injEq] at hfirst
        exact hfirst.1
      rw [ih hrest hothers]
      intro s
      have hs := heq s
      by_cases hkept : standing a = s
      · simpa [List.filter_cons, hkept] using hs
      · simpa [List.filter_cons, hkept] using hs

theorem unique (h : Ranks standing ranked entries) (h' : Ranks standing other entries) :
    ranked = other := by
  apply eq_of_descending h.descending h'.descending
  intro s
  rw [h.stable, h'.stable]

end Ranks

/-- Puts an entry below its equals and above what is worse. -/
def place (standing : α → Int) (e : α) : List α → List α
  | [] => [e]
  | a :: rest => if standing e ≤ standing a then a :: place standing e rest else e :: a :: rest

theorem place_perm (standing : α → Int) (e : α) (ranked : List α) :
    (place standing e ranked).Perm (ranked ++ [e]) := by
  induction ranked with
  | nil => exact List.Perm.refl _
  | cons a rest ih =>
    rw [place]
    split
    · exact ih.cons a
    · exact (List.perm_append_singleton e (a :: rest)).symm

theorem place_descending (h : ranked.Pairwise fun a b => standing b ≤ standing a) (e : α) :
    (place standing e ranked).Pairwise fun a b => standing b ≤ standing a := by
  induction ranked with
  | nil => exact List.pairwise_singleton _ e
  | cons a rest ih =>
    obtain ⟨ha, hrest⟩ := List.pairwise_cons.mp h
    rw [place]
    split
    · next hle =>
      refine List.pairwise_cons.mpr ⟨?_, ih hrest⟩
      intro b hb
      rcases List.mem_append.mp ((place_perm standing e rest).mem_iff.mp hb) with hb | hb
      · exact ha b hb
      · rwa [List.mem_singleton.mp hb]
    · next hlt =>
      refine List.pairwise_cons.mpr ⟨?_, h⟩
      intro b hb
      rcases List.mem_cons.mp hb with rfl | hb
      · omega
      · have hbelow := ha b hb
        omega

theorem place_stable (h : ranked.Pairwise fun a b => standing b ≤ standing a) (e : α) (s : Int) :
    ((place standing e ranked).filter fun a => standing a = s) =
      (ranked ++ [e]).filter fun a => standing a = s := by
  induction ranked with
  | nil => rfl
  | cons a rest ih =>
    obtain ⟨ha, hrest⟩ := List.pairwise_cons.mp h
    rw [place]
    split
    · rw [List.cons_append, List.filter_cons, List.filter_cons, ih hrest]
    · next hlt =>
      by_cases hs : standing e = s
      · -- All entries from here on are worse than the new one.
        have hworse : ((a :: rest).filter fun b => decide (standing b = s)) = [] := by
          rw [List.filter_eq_nil_iff]
          intro b hb
          have hbelow : standing b ≤ standing a := by
            rcases List.mem_cons.mp hb with rfl | hb
            · exact Int.le_refl _
            · exact ha b hb
          simp only [decide_eq_true_eq]
          omega
        rw [List.filter_append, hworse, List.filter_cons, hworse]
        simp [hs]
      · rw [List.filter_append, List.filter_cons]
        simp [hs]

theorem Ranks.place (h : Ranks standing ranked entries) (e : α) :
    Ranks standing (place standing e ranked) (entries ++ [e]) := by
  constructor
  · exact (place_perm standing e ranked).trans (h.perm.append_right [e])
  · exact place_descending h.descending e
  · intro s
    rw [place_stable h.descending, List.filter_append, List.filter_append, h.stable]

theorem Ranks.self (h : ranked.Pairwise fun a b => standing b ≤ standing a) :
    Ranks standing ranked ranked := ⟨List.Perm.refl _, h, fun _ => rfl⟩

theorem place_last (h : ∀ a ∈ ranked, standing e ≤ standing a) :
    place standing e ranked = ranked ++ [e] := by
  induction ranked with
  | nil => rfl
  | cons a rest ih =>
    obtain ⟨ha, hrest⟩ := List.forall_mem_cons.mp h
    rw [place, if_pos ha, ih hrest, List.cons_append]

/-- The first few places are settled by the entries that held them. -/
theorem take_place_take (standing : α → Int) (e : α) (ranked : List α) (n : Nat) :
    (place standing e (ranked.take n)).take n = (place standing e ranked).take n := by
  induction ranked generalizing n with
  | nil => rw [List.take_nil]
  | cons a rest ih =>
    cases n with
    | zero => rw [List.take_zero, List.take_zero]
    | succ n =>
      rw [List.take_succ_cons, place, place]
      split
      · rw [List.take_succ_cons, List.take_succ_cons, ih]
      · change e :: ((a :: rest).take (n + 1)).take n = e :: (a :: rest).take n
        rw [List.take_take, Nat.min_eq_left (Nat.le_succ n)]

end SignalEvolution

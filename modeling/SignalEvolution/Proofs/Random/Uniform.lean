import Mathlib
import SignalEvolution.Proofs.Random.Always

/-! # Indices are drawn evenly

An index is the high half of a word times the number of indices, and a word whose low half is too
large is drawn again. What is left of the words settles every index equally often.
-/
namespace SignalEvolution.Draw

variable {σ : Type} {bits n w i fuel : Nat}

/-- The word is accepted, and scaled to this index. -/
def Settles (bits n w i : Nat) : Prop := w * n % 2 ^ bits ≤ zone bits n ∧ w * n / 2 ^ bits = i

instance (bits n w i : Nat) : Decidable (Settles bits n w i) := inferInstanceAs (Decidable (_ ∧ _))

/-- How many words settle an index. -/
def wordsPerIndex (bits n : Nat) : Nat := 2 ^ (bits - (n.log2 + 1))

theorem run_scaled_of_settles {word : Draw σ Nat} {words : σ} (h : Settles bits n (word.run words).1 i) :
    (scaled bits n word (fuel + 1)).run words = (i, (word.run words).2) := by
  obtain ⟨haccepted, rfl⟩ := h
  exact congrArg (fun d : Draw σ Nat => d.run (word.run words).2) (if_pos haccepted)

theorem run_scaled_of_not_settles {word : Draw σ Nat} {words : σ}
    (h : ∀ i, ¬ Settles bits n (word.run words).1 i) :
    (scaled bits n word (fuel + 1)).run words = (scaled bits n word fuel).run (word.run words).2 := by
  have hrefused : ¬ (word.run words).1 * n % 2 ^ bits ≤ zone bits n := fun haccepted =>
    h _ ⟨haccepted, rfl⟩
  exact congrArg (fun d : Draw σ Nat => d.run (word.run words).2) (if_neg hrefused)

section Stream

variable [WordSource σ] {words : σ} {k : Nat}

/-- What is left of a source when some long words have been taken. -/
def sourceAfter (words : σ) : Nat → σ
  | 0 => words
  | k + 1 => sourceAfter (WordSource.word64 words).2 k

/-- The long word that comes after some others. -/
def wordAt (words : σ) (k : Nat) : Nat := (WordSource.word64 (sourceAfter words k)).1.toNat

theorem run_scaled_of_first (hk : k < fuel) (hearlier : ∀ j < k, ∀ i, ¬ Settles 64 n (wordAt words j) i)
    (h : Settles 64 n (wordAt words k) i) :
    ((scaled 64 n (do return (← word64).toNat) fuel).run words).1 = i := by
  induction k generalizing words fuel with
  | zero =>
    obtain ⟨fuel, rfl⟩ := Nat.exists_eq_add_one_of_ne_zero hk.ne'
    rw [run_scaled_of_settles h]
  | succ k ih =>
    obtain ⟨fuel, rfl⟩ := Nat.exists_eq_add_one_of_ne_zero (Nat.ne_zero_of_lt hk)
    rw [run_scaled_of_not_settles (hearlier 0 k.succ_pos)]
    exact ih (Nat.lt_of_succ_lt_succ hk) (fun j hj => hearlier (j + 1) (Nat.succ_lt_succ hj)) h

theorem run_index_of_first (hk : k < patience) (hearlier : ∀ j < k, ∀ i, ¬ Settles 64 n (wordAt words j) i)
    (h : Settles 64 n (wordAt words k) i) : ((index n : Draw σ Nat).run words).1 = i :=
  run_scaled_of_first hk hearlier h

end Stream

theorem mul_wordsPerIndex_le (hlt : n < 2 ^ bits) : n * wordsPerIndex bits n ≤ 2 ^ bits := by
  rcases Nat.eq_zero_or_pos n with rfl | hn
  · simp
  · have hlog : n.log2 < bits := (Nat.log2_lt hn.ne').mpr hlt
    calc n * 2 ^ (bits - (n.log2 + 1)) ≤ 2 ^ (n.log2 + 1) * 2 ^ (bits - (n.log2 + 1)) :=
          Nat.mul_le_mul_right _ Nat.lt_log2_self.le
      _ = 2 ^ bits := by rw [← pow_add, Nat.add_sub_cancel' hlog]

/-- The words that settle an index are those whose products lie in a range of their own. -/
theorem settles_iff (hn : 0 < n) (hlt : n < 2 ^ bits) :
    Settles bits n w i ↔ i * 2 ^ bits ≤ w * n ∧ w * n < i * 2 ^ bits + n * wordsPerIndex bits n := by
  have hpos : 0 < n * wordsPerIndex bits n := Nat.mul_pos hn (Nat.two_pow_pos _)
  have hzone : zone bits n = n * wordsPerIndex bits n - 1 := rfl
  have hfit := mul_wordsPerIndex_le hlt
  have hsplit := Nat.div_add_mod' (w * n) (2 ^ bits)
  rw [Settles, hzone]
  constructor
  · rintro ⟨haccepted, rfl⟩
    omega
  · rintro ⟨hlow, hhigh⟩
    have hindex : w * n / 2 ^ bits = i := by
      apply Nat.div_eq_of_lt_le hlow
      rw [Nat.succ_mul]
      omega
    rw [hindex] at hsplit
    omega

/-- The least word whose product reaches the range of an index. -/
def leastWord (bits n i : Nat) : Nat := (i * 2 ^ bits) ⌈/⌉ n

theorem leastWord_le_iff (hn : 0 < n) : leastWord bits n i ≤ w ↔ i * 2 ^ bits ≤ w * n := by
  rw [leastWord, ceilDiv_le_iff_le_mul hn, Nat.mul_comm n w]

/-- These words follow one another. -/
theorem settles_iff_mem_Ico (hn : 0 < n) (hlt : n < 2 ^ bits) :
    Settles bits n w i ↔ w ∈ Finset.Ico (leastWord bits n i) (leastWord bits n i + wordsPerIndex bits n) := by
  rw [settles_iff hn hlt, Finset.mem_Ico, leastWord_le_iff hn]
  apply and_congr_right
  intro _
  rcases le_or_gt (wordsPerIndex bits n) w with hmany | hfew
  · obtain ⟨v, rfl⟩ := Nat.exists_eq_add_of_le' hmany
    have hleast : v < leastWord bits n i ↔ v * n < i * 2 ^ bits :=
      lt_iff_lt_of_le_iff_le (leastWord_le_iff hn)
    rw [Nat.add_lt_add_iff_right, hleast, Nat.add_mul, Nat.mul_comm n, Nat.add_lt_add_iff_right]
  · have hbelow := Nat.mul_lt_mul_of_pos_right hfew hn
    rw [Nat.mul_comm n]
    omega

/-- Every index below `n` is settled by the same number of words. -/
theorem card_settles (hn : 0 < n) (hlt : n < 2 ^ bits) (hi : i < n) :
    ((Finset.range (2 ^ bits)).filter fun w => Settles bits n w i).card = wordsPerIndex bits n := by
  have hwords : (Finset.range (2 ^ bits)).filter (fun w => Settles bits n w i) =
      Finset.Ico (leastWord bits n i) (leastWord bits n i + wordsPerIndex bits n) := by
    ext w
    rw [Finset.mem_filter, Finset.mem_range, ← settles_iff_mem_Ico hn hlt, and_iff_right_iff_imp]
    intro hsettles
    have hhigh := ((settles_iff hn hlt).mp hsettles).2
    have hfit := mul_wordsPerIndex_le hlt
    have hnext : (i + 1) * 2 ^ bits ≤ n * 2 ^ bits := Nat.mul_le_mul_right _ hi
    rw [Nat.succ_mul] at hnext
    apply Nat.lt_of_mul_lt_mul_right (a := n)
    rw [Nat.mul_comm (2 ^ bits)]
    omega
  rw [hwords, Nat.card_Ico, Nat.add_sub_cancel_left]

end SignalEvolution.Draw

import SignalEvolution.Random.Draw

/-! # What a draw always gives

A property of all results of a draw, whatever words its source hands out. It holds of a
longer draw when it holds of the last part after every result of the parts before.
-/
namespace SignalEvolution.Draw

/-- Every result of the draw has the property. -/
structure Always {σ α : Type} (d : Draw σ α) (P : α → Prop) : Prop where
  holds : ∀ w, P (d.run w).1

/-- Some words make the draw give this. -/
def Gives {σ α : Type} (d : Draw σ α) (x : α) : Prop := ∃ w, (d.run w).1 = x

variable {σ α β : Type} {P Q : α → Prop} {R : β → Prop}

theorem choose?_nil [WordSource σ] : (choose? ([] : List α) : Draw σ (Option α)) = pure none := rfl

namespace Always

theorem trivial (d : Draw σ α) : d.Always fun _ => True := ⟨fun _ => True.intro⟩

theorem imp {d : Draw σ α} (h : d.Always P) (hpq : ∀ x, P x → Q x) : d.Always Q := by
  constructor
  intro w
  apply hpq
  exact h.holds w

theorem pure {x : α} (h : P x) : Always (Pure.pure x : Draw σ α) P := ⟨fun _ => h⟩

theorem bind {d : Draw σ α} {f : α → Draw σ β} (hd : d.Always P)
    (hf : ∀ x, P x → (f x).Always R) : Always (d >>= f) R := by
  constructor
  intro w
  have hx := hd.holds w
  exact (hf _ hx).holds (d.run w).2

/-- After a draw of which nothing is known. -/
theorem after {d : Draw σ α} {f : α → Draw σ β} (hf : ∀ x, (f x).Always R) :
    Always (d >>= f) R := by
  apply bind (trivial d)
  intro x _
  exact hf x

theorem ite {c : Prop} [Decidable c] {d e : Draw σ α} (hd : c → d.Always P)
    (he : ¬ c → e.Always P) : Always (if c then d else e) P := by
  split
  · exact hd ‹_›
  · exact he ‹_›

theorem nothing : Always (Pure.pure none : Draw σ (Option α)) fun o => ∀ x ∈ o, P x := by
  apply pure
  simp

/-- A result that is checked before it is given. -/
theorem guarded {c : Prop} [Decidable c] {x : α} (h : c → P x) :
    Always (Pure.pure (if c then some x else none) : Draw σ (Option α)) fun o => ∀ x ∈ o, P x := by
  apply pure
  intro y hy
  split at hy
  · obtain rfl : x = y := by simpa using hy
    exact h ‹c›
  · simp at hy

theorem and {d : Draw σ α} (hp : d.Always P) (hq : d.Always Q) : d.Always fun x => P x ∧ Q x :=
  ⟨fun w => ⟨hp.holds w, hq.holds w⟩⟩

theorem gives (d : Draw σ α) : d.Always d.Gives := ⟨fun w => ⟨w, rfl⟩⟩

theorem scaled_lt {bits n : Nat} {word : Draw σ Nat} (hn : 0 < n)
    (hword : word.Always fun w => w < Nat.pow 2 bits) (fuel : Nat) :
    (scaled bits n word fuel).Always fun i => i < n := by
  induction fuel with
  | zero => exact pure hn
  | succ fuel ih =>
    apply hword.bind
    intro w hw
    apply ite
    · intro _
      apply pure
      apply (Nat.div_lt_iff_lt_mul (Nat.two_pow_pos bits)).mpr
      rw [Nat.mul_comm]
      exact Nat.mul_lt_mul_of_pos_left hw hn
    · intro _
      exact ih

theorem index_lt [WordSource σ] {n : Nat} (hn : 0 < n) : (index n : Draw σ Nat).Always fun i => i < n := by
  apply scaled_lt hn
  apply after
  intro w
  apply pure
  exact w.toNat_lt

theorem shortIndex_lt [WordSource σ] {n : Nat} (hn : 0 < n) :
    (shortIndex n : Draw σ Nat).Always fun i => i < n := by
  apply scaled_lt hn
  apply after
  intro w
  apply pure
  exact w.toNat_lt

/-- One of the entries is chosen, and nothing only of an empty list. -/
theorem choose?_cases [WordSource σ] (xs : List α) :
    (choose? xs : Draw σ (Option α)).Always fun o => o = none ∧ xs = [] ∨ ∃ x ∈ xs, o = some x := by
  apply ite
  · intro hempty
    exact pure (.inl ⟨rfl, List.isEmpty_iff.mp hempty⟩)
  · intro hne
    have hpos : 0 < xs.length := List.length_pos_iff.mpr (mt List.isEmpty_iff.mpr hne)
    apply (shortIndex_lt hpos).bind
    intro i hi
    exact pure (.inr ⟨xs[i], List.getElem_mem hi, List.getElem?_eq_getElem hi⟩)

theorem choose?_mem [WordSource σ] (xs : List α) :
    (choose? xs : Draw σ (Option α)).Always fun o => ∀ x ∈ o, x ∈ xs := by
  apply (choose?_cases xs).imp
  rintro _ (⟨rfl, -⟩ | ⟨x, hx, rfl⟩)
  · simp
  · simpa using hx

end Always

end SignalEvolution.Draw

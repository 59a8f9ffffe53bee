import SignalEvolution.Proofs.Random.Always

/-! # What a draw gives unless it breaks off

Two things are said of a draw that may break off: what all of its results have, and on what condition
it may come to none. A longer draw has its results from the last part and breaks off where any part
does.
-/
namespace SignalEvolution.PartialDraw

/-- Every result of the draw has the property, and there is one, whatever the words, unless `off`. -/
structure Unless {σ α : Type} (d : PartialDraw σ α) (off : Prop) (P : α → Prop) : Prop where
  holds : ∀ w, (d.run w).elim off fun r => P r.1

/-- Some words make the draw give this. -/
def Gives {σ α : Type} (d : PartialDraw σ α) (x : α) : Prop := ∃ w v, d.run w = some (x, v)

variable {σ α β : Type} {off : Prop} {P Q : α → Prop} {R : β → Prop} {w v : σ}

namespace Unless

theorem of_run {d : PartialDraw σ α} {x : α} (h : d.Unless off P) (hrun : d.run w = some (x, v)) : P x := by
  have hw := h.holds w
  rwa [hrun] at hw

theorem exists_run {d : PartialDraw σ α} (h : d.Unless off P) (hoff : ¬ off) (w : σ) :
    ∃ x v, d.run w = some (x, v) ∧ P x := by
  have hw := h.holds w
  cases hrun : d.run w with
  | none =>
    rw [hrun] at hw
    exact absurd hw hoff
  | some r =>
    rw [hrun] at hw
    exact ⟨r.1, r.2, rfl, hw⟩

theorem whatever {d : PartialDraw σ α} : d.Unless True fun _ => True := by
  constructor
  intro w
  cases d.run w with
  | none => exact True.intro
  | some r => exact True.intro

/-- A draw that comes to a result, since what would break it off is not so. -/
theorem total {d : PartialDraw σ α} (h : d.Unless off P) (hoff : ¬ off) : d.Unless False P := by
  constructor
  intro w
  obtain ⟨x, v, hrun, hx⟩ := h.exists_run hoff w
  rw [hrun]
  exact hx

theorem imp {d : PartialDraw σ α} (h : d.Unless off P) (hpq : ∀ x, P x → Q x) : d.Unless off Q := by
  constructor
  intro w
  have hw := h.holds w
  cases hrun : d.run w with
  | none => rwa [hrun] at hw
  | some r =>
    rw [hrun] at hw
    exact hpq r.1 hw

theorem sure {d : Draw σ α} (h : d.Always P) : d.sure.Unless off P := ⟨h.holds⟩

theorem pure {x : α} (h : P x) : Unless (Pure.pure x : PartialDraw σ α) off P := ⟨fun _ => h⟩

theorem failure (h : off) : Unless (Alternative.failure : PartialDraw σ α) off P := ⟨fun _ => h⟩

theorem bind {d : PartialDraw σ α} {f : α → PartialDraw σ β} (hd : d.Unless off P)
    (hf : ∀ x, P x → (f x).Unless off R) : Unless (d >>= f) off R := by
  constructor
  intro w
  have hw := hd.holds w
  rw [StateT.run_bind]
  cases hrun : d.run w with
  | none => rwa [hrun] at hw
  | some r =>
    rw [hrun] at hw
    exact (hf r.1 hw).holds r.2

/-- After a part that does not break off. -/
theorem draw {d : Draw σ α} {f : α → PartialDraw σ β} (hd : d.Always P)
    (hf : ∀ x, P x → (f x).Unless off R) : Unless (d.sure >>= f) off R := (sure hd).bind hf

theorem after {d : Draw σ α} {f : α → PartialDraw σ β} (hf : ∀ x, (f x).Unless off R) :
    Unless (d.sure >>= f) off R := by
  apply draw (Draw.Always.trivial d)
  intro x _
  exact hf x

theorem ite {c : Prop} [Decidable c] {d e : PartialDraw σ α} (hd : c → d.Unless off P)
    (he : ¬ c → e.Unless off P) : Unless (if c then d else e) off P := by
  split
  · exact hd ‹_›
  · exact he ‹_›

theorem nothing : Unless (Pure.pure none : PartialDraw σ (Option α)) off fun o => ∀ x ∈ o, P x := by
  apply pure
  simp

theorem and {d : PartialDraw σ α} (hp : d.Unless off P) (hq : d.Unless off Q) :
    d.Unless off fun x => P x ∧ Q x := by
  constructor
  intro w
  have hpw := hp.holds w
  have hqw := hq.holds w
  cases hrun : d.run w with
  | none => rwa [hrun] at hpw
  | some r =>
    rw [hrun] at hpw hqw
    exact ⟨hpw, hqw⟩

theorem times {d : PartialDraw σ α} (h : d.Unless off P) (n : Nat) :
    (d.times n).Unless off fun xs => xs.length = n ∧ ∀ x ∈ xs, P x := by
  induction n with
  | zero =>
    apply pure
    simp
  | succ n ih =>
    apply h.bind
    intro x hx
    apply ih.bind
    rintro xs ⟨hlength, hxs⟩
    apply pure
    simpa [hlength] using ⟨hx, hxs⟩

theorem gives {d : PartialDraw σ α} (h : d.Unless off P) : d.Unless off d.Gives := by
  constructor
  intro w
  have hw := h.holds w
  cases hrun : d.run w with
  | none => rwa [hrun] at hw
  | some r => exact ⟨w, r.2, hrun⟩

end Unless

end SignalEvolution.PartialDraw

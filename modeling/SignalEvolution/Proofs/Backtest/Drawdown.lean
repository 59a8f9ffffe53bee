import Mathlib
import SignalEvolution.Arithmetic.Exact
import SignalEvolution.Backtest.Metrics

/-! # The largest loss of an equity curve

The largest loss is found in one pass that keeps the highest value so far. Without rounding it
is the largest of the losses between any two entries in their order: a loss counts for more
from a higher value, so the highest one before an entry stands for all others.
-/
namespace SignalEvolution.Metrics

variable {equity seen : List ℚ} {state : ℚ × ℚ} {d p q x peak worst c : ℚ}

/-- What falls from one value to another, in percent of the first. -/
def loss (p x : ℚ) : ℚ := (p - x) / p * 100

/-- A loss from a positive entry of the curve to itself or to a later entry. -/
def IsDrawdown (equity : List ℚ) (d : ℚ) : Prop :=
  ∃ i j : ℕ, ∃ p x : ℚ, i ≤ j ∧ equity[i]? = some p ∧ equity[j]? = some x ∧ 0 < p ∧ d = loss p x

theorem loss_self (p : ℚ) : loss p p = 0 := by simp [loss]

theorem loss_scaled (hc : 0 < c) (p x : ℚ) : loss (c * p) (c * x) = loss p x := by
  rw [loss, loss, ← mul_sub, mul_div_mul_left _ _ hc.ne']

theorem loss_le_hundred (hp : 0 < p) (hx : 0 ≤ x) : loss p x ≤ 100 := by
  have hshare : (p - x) / p ≤ 1 := (div_le_one hp).mpr (sub_le_self p hx)
  unfold loss
  linarith

/-- From a higher value the loss is larger. -/
theorem loss_mono (hp : 0 < p) (hpq : p ≤ q) (hx : 0 ≤ x) : loss p x ≤ loss q x := by
  have hq : 0 < q := hp.trans_le hpq
  have hrest : x / q ≤ x / p := div_le_div_of_nonneg_left hx hp hpq
  have hshare : ∀ {y : ℚ}, 0 < y → (y - x) / y = 1 - x / y := fun hy => by
    rw [sub_div, div_self hy.ne']
  rw [loss, loss, hshare hp, hshare hq]
  linarith

/-- The losses that one more entry brings all end there. -/
theorem isDrawdown_concat : IsDrawdown (seen ++ [x]) d ↔
    IsDrawdown seen d ∨ ∃ p ∈ seen ++ [x], 0 < p ∧ d = loss p x := by
  constructor
  · rintro ⟨i, j, p, y, hij, hp, hy, hpos, rfl⟩
    by_cases hj : j < seen.length
    · rw [List.getElem?_append_left hj] at hy
      rw [List.getElem?_append_left (hij.trans_lt hj)] at hp
      exact .inl ⟨i, j, p, y, hij, hp, hy, hpos, rfl⟩
    · have hlast : y = x := by
        rw [List.getElem?_append_right (not_lt.mp hj)] at hy
        exact List.mem_singleton.mp (List.mem_of_getElem? hy)
      exact .inr ⟨p, List.mem_of_getElem? hp, hpos, by rw [hlast]⟩
  · rintro (⟨i, j, p, y, hij, hp, hy, hpos, rfl⟩ | ⟨p, hp, hpos, rfl⟩)
    · refine ⟨i, j, p, y, hij, ?_, ?_, hpos, rfl⟩
      · exact List.getElem?_append_left (List.getElem?_eq_some_iff.mp hp).1 ▸ hp
      · exact List.getElem?_append_left (List.getElem?_eq_some_iff.mp hy).1 ▸ hy
    · obtain ⟨i, hi, hpi⟩ := List.mem_iff_getElem.mp hp
      refine ⟨i, seen.length, p, x, ?_, ?_, List.getElem?_concat_length, hpos, rfl⟩
      · simpa [Nat.lt_succ_iff] using hi
      · rw [List.getElem?_eq_getElem hi, hpi]

theorem isDrawdown_zero (hp : p ∈ equity) (hpos : 0 < p) : IsDrawdown equity 0 := by
  obtain ⟨i, hi⟩ := List.mem_iff_getElem?.mp hp
  exact ⟨i, i, p, p, le_rfl, hi, hi, hpos, (loss_self p).symm⟩

theorem IsDrawdown.le_hundred (h : IsDrawdown equity d) (hnonneg : ∀ x ∈ equity, 0 ≤ x) : d ≤ 100 := by
  obtain ⟨i, j, p, x, -, -, hx, hpos, rfl⟩ := h
  exact loss_le_hundred hpos (hnonneg x (List.mem_of_getElem? hx))

theorem drawdownStep_eq (peak worst x : ℚ) : drawdownStep (peak, worst) x =
    (max peak x, if 0 < max peak x then max worst (loss (max peak x) x) else worst) := by
  have hpeak : (if peak < x then x else peak) = max peak x := (max_def_lt peak x).symm
  have hworst := (max_def_lt worst (loss (max peak x) x)).symm
  simp only [drawdownStep, hpeak]
  by_cases hpos : 0 < max peak x
  · rw [if_pos hpos, if_pos hpos, ← hworst]
    rfl
  · rw [if_neg hpos, if_neg hpos]

/-- The state after a part of the curve: its highest value, and the largest loss in it or none. -/
structure Tracks (seen : List ℚ) (state : ℚ × ℚ) : Prop where
  peak_mem : state.1 ∈ seen
  le_peak : ∀ x ∈ seen, x ≤ state.1
  worst_cases : IsDrawdown seen state.2 ∨ state.2 = 0
  le_worst : ∀ d, IsDrawdown seen d → d ≤ state.2
  worst_nonneg : 0 ≤ state.2

theorem worst_le_drawdownStep (state : ℚ × ℚ) (x : ℚ) : state.2 ≤ (drawdownStep state x).2 := by
  rw [drawdownStep_eq]
  split
  · exact le_max_left _ _
  · exact le_rfl

theorem drawdownStep_scaled (hc : 0 < c) (peak worst x : ℚ) :
    drawdownStep (c * peak, worst) (c * x) =
      (c * (drawdownStep (peak, worst) x).1, (drawdownStep (peak, worst) x).2) := by
  have hpeak : max (c * peak) (c * x) = c * max peak x := (mul_max_of_nonneg peak x hc.le).symm
  simp only [drawdownStep_eq, hpeak, loss_scaled hc, mul_pos_iff_of_pos_left hc]

theorem tracks_first (first : ℚ) : Tracks [first] (drawdownStep (first, 0) first) := by
  have hworst : (drawdownStep (first, 0) first).2 = 0 := by
    simp [drawdownStep_eq, loss_self]
  have hpeak : (drawdownStep (first, 0) first).1 = first := by
    simp [drawdownStep_eq]
  constructor
  case peak_mem => simp [hpeak]
  case le_peak => simp [hpeak]
  case worst_cases => exact .inr hworst
  case le_worst =>
    intro d hd
    rw [← List.nil_append [first], isDrawdown_concat] at hd
    rcases hd with ⟨i, j, p, x, -, hp, -⟩ | ⟨p, hp, -, rfl⟩
    · simp at hp
    · obtain rfl : p = first := by simpa using hp
      rw [hworst, loss_self]
  case worst_nonneg => exact hworst.ge

theorem Tracks.step (h : Tracks seen state) (hx : 0 ≤ x) : Tracks (seen ++ [x]) (drawdownStep state x) := by
  obtain ⟨peak, worst⟩ := state
  have hmem : max peak x ∈ seen ++ [x] := by
    rcases max_choice peak x with heq | heq
    · rw [heq]
      exact List.mem_append_left _ h.peak_mem
    · rw [heq]
      exact List.mem_concat_self
  have hle : ∀ y ∈ seen ++ [x], y ≤ max peak x := by
    intro y hy
    rcases List.mem_append.mp hy with hy | hy
    · exact (h.le_peak y hy).trans (le_max_left _ _)
    · exact List.mem_singleton.mp hy ▸ le_max_right _ _
  have hworst := worst_le_drawdownStep (peak, worst) x
  constructor
  case peak_mem => simpa [drawdownStep_eq] using hmem
  case le_peak => simpa [drawdownStep_eq] using hle
  case worst_cases =>
    have hbefore : IsDrawdown (seen ++ [x]) worst ∨ worst = 0 :=
      h.worst_cases.imp_left fun hd => isDrawdown_concat.mpr (.inl hd)
    rw [drawdownStep_eq]
    dsimp only
    split
    · next hpos =>
      rcases max_choice worst (loss (max peak x) x) with heq | heq
      · rwa [heq]
      · rw [heq]
        exact .inl (isDrawdown_concat.mpr (.inr ⟨_, hmem, hpos, rfl⟩))
    · exact hbefore
  case le_worst =>
    intro d hd
    rcases isDrawdown_concat.mp hd with hd | ⟨p, hp, hpos, rfl⟩
    · exact (h.le_worst d hd).trans hworst
    · -- The highest value gives the largest of the losses that end here.
      have hpeak := hle p hp
      rw [drawdownStep_eq, if_pos (hpos.trans_le hpeak)]
      exact (loss_mono hpos hpeak hx).trans (le_max_right _ _)
  case worst_nonneg => exact h.worst_nonneg.trans hworst

theorem Tracks.run (h : Tracks seen state) {later : List ℚ} (hnonneg : ∀ x ∈ later, 0 ≤ x) :
    Tracks (seen ++ later) (later.foldl drawdownStep state) := by
  induction later generalizing seen state with
  | nil => simpa using h
  | cons x rest ih =>
    obtain ⟨hx, hrest⟩ := List.forall_mem_cons.mp hnonneg
    simpa using ih (h.step hx) hrest

theorem worst_le_foldl (state : ℚ × ℚ) (later : List ℚ) :
    state.2 ≤ (later.foldl drawdownStep state).2 := by
  induction later generalizing state with
  | nil => exact le_rfl
  | cons x rest ih => exact (worst_le_drawdownStep state x).trans (ih _)

theorem foldl_drawdownStep_scaled (hc : 0 < c) (peak worst : ℚ) (equity : List ℚ) :
    (equity.map (c * ·)).foldl drawdownStep (c * peak, worst) =
      (c * (equity.foldl drawdownStep (peak, worst)).1, (equity.foldl drawdownStep (peak, worst)).2) := by
  induction equity generalizing peak worst with
  | nil => rfl
  | cons x rest ih =>
    rw [List.map_cons, List.foldl_cons, drawdownStep_scaled hc, ih, List.foldl_cons]

theorem maxDrawdown_cons (first : ℚ) (rest : List ℚ) :
    maxDrawdown (first :: rest) = (rest.foldl drawdownStep (drawdownStep (first, 0) first)).2 := rfl

theorem maxDrawdown_scaled (hc : 0 < c) (equity : List ℚ) :
    maxDrawdown (equity.map (c * ·)) = maxDrawdown equity := by
  cases equity with
  | nil => rfl
  | cons first rest =>
    have hworst := congrArg Prod.snd (foldl_drawdownStep_scaled hc first 0 (first :: rest))
    exact hworst

theorem maxDrawdown_le_append (equity later : List ℚ) :
    maxDrawdown equity ≤ maxDrawdown (equity ++ later) := by
  cases equity with
  | nil =>
    cases later with
    | nil => exact le_rfl
    | cons first rest => exact worst_le_foldl (first, 0) (first :: rest)
  | cons first rest =>
    rw [List.cons_append, maxDrawdown_cons, maxDrawdown_cons, List.foldl_append]
    exact worst_le_foldl _ later

/-- The loss that one pass finds is the largest of all losses in the curve, or none. -/
theorem maxDrawdown_spec (hnonneg : ∀ x ∈ equity, 0 ≤ x) :
    (IsDrawdown equity (maxDrawdown equity) ∨ maxDrawdown equity = 0) ∧ 0 ≤ maxDrawdown equity ∧
      ∀ d, IsDrawdown equity d → d ≤ maxDrawdown equity := by
  cases equity with
  | nil =>
    refine ⟨.inr rfl, le_rfl, ?_⟩
    rintro d ⟨i, j, p, x, -, hp, -⟩
    simp at hp
  | cons first rest =>
    have htracks := (tracks_first first).run (List.forall_mem_cons.mp hnonneg).2
    exact ⟨htracks.worst_cases, htracks.worst_nonneg, htracks.le_worst⟩

/-- Over a curve that is never negative, the largest loss is the greatest of the losses from any
positive entry to itself or to a later one, and 0 where no entry is positive. It is at most 100
percent, the same for a curve in another unit, and never smaller for a longer curve. -/
theorem maxDrawdown_greatest (equity : List ℚ) (hnonneg : ∀ x ∈ equity, 0 ≤ x) :
    ((∃ d, IsDrawdown equity d) → IsGreatest {d | IsDrawdown equity d} (maxDrawdown equity)) ∧
    ((¬ ∃ d, IsDrawdown equity d) → maxDrawdown equity = 0) ∧
    (0 ≤ maxDrawdown equity ∧ maxDrawdown equity ≤ 100) ∧
    (∀ c, 0 < c → maxDrawdown (equity.map (c * ·)) = maxDrawdown equity) ∧
    ∀ later, maxDrawdown equity ≤ maxDrawdown (equity ++ later) := by
  obtain ⟨hcases, hlow, hgreatest⟩ := maxDrawdown_spec hnonneg
  refine ⟨?_, ?_, ⟨hlow, ?_⟩, fun c hc => maxDrawdown_scaled hc equity, maxDrawdown_le_append equity⟩
  · rintro ⟨d, i, j, p, x, -, hp, -, hpos, -⟩
    refine ⟨?_, hgreatest⟩
    rcases hcases with hd | hzero
    · exact hd
    · rw [hzero]
      exact isDrawdown_zero (List.mem_of_getElem? hp) hpos
  · intro hnone
    exact hcases.resolve_left fun hd => hnone ⟨_, hd⟩
  · rcases hcases with hd | hzero
    · exact hd.le_hundred hnonneg
    · rw [hzero]
      norm_num

/-- A curve that starts at nothing, and falls by a quarter before it rises again. -/
theorem maxDrawdown_greatest_fall :
    let equity : List ℚ := [0, 100, 120, 90, 130]
    (∀ x ∈ equity, 0 ≤ x) ∧ (∃ d, IsDrawdown equity d) ∧
      IsGreatest {d | IsDrawdown equity d} (maxDrawdown equity) ∧ maxDrawdown equity = 25 ∧
      maxDrawdown (equity.map (3 * ·)) = maxDrawdown equity ∧
      maxDrawdown equity ≤ maxDrawdown (equity ++ [13]) := by
  intro equity
  have hnonneg : ∀ x ∈ equity, 0 ≤ x := by decide +kernel
  have hloss : ∃ d, IsDrawdown equity d :=
    ⟨0, isDrawdown_zero (p := 100) (by decide +kernel) (by norm_num)⟩
  obtain ⟨hgreatest, -, -, hscaled, hlonger⟩ := maxDrawdown_greatest equity hnonneg
  exact ⟨hnonneg, hloss, hgreatest hloss, by decide +kernel, hscaled 3 (by norm_num), hlonger [13]⟩

end SignalEvolution.Metrics

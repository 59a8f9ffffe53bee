import SignalEvolution.Indicator.Reading

/-! # Readings by slices and indices

A reading takes slices of the bars, splits them and looks up single entries. Each of these can
be out of range, and that is kept apart from a reading that there is not: no bars and no
parameters lead out of range, and what is calculated is the reading.
-/
namespace SignalEvolution.Indicator

variable {α β γ δ : Type} {n start stop : Nat} {xs : List β}

/-- The difference of two lengths. -/
def difference? (m n : Nat) : Option Nat := if n ≤ m then some (m - n) else none

/-- The entries from one position up to another. -/
def slice? (start stop : Nat) (xs : List β) : Option (List β) :=
  if start ≤ stop ∧ stop ≤ xs.length then some ((xs.take stop).drop start) else none

/-- The entries before a position and those from it on. -/
def split? (n : Nat) (xs : List β) : Option (List β × List β) :=
  if n ≤ xs.length then some (xs.take n, xs.drop n) else none

def last? (xs : List β) : Option β := do
  let n ← difference? xs.length 1
  xs[n]?

/-- Every entry with the one after it. -/
def pairs : List β → List (List β)
  | x :: y :: rest => [x, y] :: pairs (y :: rest)
  | _ => []

/-- A function of the two entries of a pair. -/
def onPair? (f : β → β → γ) (pair : List β) : Option γ := do
  return f (← pair[0]?) (← pair[1]?)

/-- The last entries, none where there are too few. -/
def tail? (n : Nat) (xs : List β) : Option (Option (List β)) :=
  if n = 0 ∨ xs.length < n then some none
  else do
    let start ← difference? xs.length n
    return some (← slice? start xs.length xs)

/-- A calculation on the last entries. -/
def onTail? (n : Nat) (xs : List β) (f : List β → Option γ) : Option (Option γ) := do
  match ← tail? n xs with
  | none => return none
  | some window => return some (← f window)

section
variable [Scalar α]

def averageOf? (n : Nat) (values : List α) : Option (Option α) :=
  if n = 0 ∨ values.length < n then some none
  else do
    let weight : α := 2 / (Scalar.ofNat n + 1)
    let seed ← slice? 0 n values
    let rest ← slice? n values.length values
    return some (rest.foldl (fun average x => weight * x + (1 - weight) * average) (Scalar.mean seed))

/-- Both averages of the changes, in one pass. -/
def strength? (n : Nat) (bars : List (Bar α)) : Option (Option α) :=
  if (closes bars).length < n + 1 then some none
  else do
    let changes ← (pairs (closes bars)).mapM (onPair? fun previous close => close - previous)
    let (seed, rest) ← split? n changes
    let size : α := Scalar.ofNat n
    let (gain, loss) := rest.foldl (fun (s : α × α) d =>
        (smooth size s.1 (Scalar.max d 0), smooth size s.2 (Scalar.max (-d) 0)))
      (Scalar.mean (seed.map fun d => Scalar.max d 0), Scalar.mean (seed.map fun d => Scalar.max (-d) 0))
    return some (if loss == 0 then (if gain == 0 then Scalar.ofNat 50 else Scalar.ofNat 100)
      else Scalar.ofNat 100 - Scalar.ofNat 100 / (1 + gain / loss))

def rangeAverage? (n : Nat) (bars : List (Bar α)) : Option (Option α) :=
  if bars.length < n + 1 then some none
  else do
    let ranges ← (pairs bars).mapM (onPair? trueRange)
    let (seed, rest) ← split? n ranges
    return some (rest.foldl (fun average range => smooth (Scalar.ofNat n) average range) (Scalar.mean seed))

/-- A total with the volume of the second bar of a pair. -/
def addVolume? (total : α) (pair : List (Bar α)) : Option α := do
  if (← pair[0]?).close < (← pair[1]?).close then return total + (← pair[1]?).volume
  else if (← pair[1]?).close < (← pair[0]?).close then return total - (← pair[1]?).volume
  else return total

def balance? (bars : List (Bar α)) : Option (Option α) :=
  if bars.length < 2 then some none
  else do return some (← (pairs bars).foldlM addVolume? 0)

def channel? (window : List (Bar α)) : Option α :=
  let typical := window.map fun b => (b.high + b.low + b.close) / 3
  let average := Scalar.mean typical
  let spread := Scalar.mean (typical.map fun x => Scalar.abs (x - average))
  if spread == 0 then some 0
  else do return ((← last? typical) - average) / (Scalar.ofNat 15 / Scalar.ofNat 1000 * spread)

/-- The reading by slices and indices; nothing at all where one of them is out of range. -/
def calculation? (i : Indicator) (params : Table α) (bars : List (Bar α)) : Option (Option α) :=
  let n := i.periodSpec.bars params
  match i with
  | simpleAverage => onTail? n bars fun w => return Scalar.mean (closes w)
  | exponentialAverage => averageOf? n (closes bars)
  | weightedAverage => onTail? n bars fun w => return weightedMean (closes w)
  | averageDivergence => do
    match ← averageOf? (Scalar.toNat (fastSpec.value params)) (closes bars) with
    | none => return none
    | some fast =>
      match ← averageOf? (Scalar.toNat (slowSpec.value params)) (closes bars) with
      | none => return none
      | some slow => return some (fast - slow)
  | relativeStrength => strength? n bars
  | momentum => onTail? (n + 1) bars fun w => return (← last? w).close - (← w[0]?).close
  | rateOfChange => onTail? (n + 1) bars fun w => do
    let base := (← w[0]?).close
    if base == 0 then return 0
    else return ((← last? w).close / base - 1) * Scalar.ofNat 100
  | williamsRange => onTail? n bars fun w => return williams w (← last? w).close
  | stochastic => onTail? n bars fun w => return position w (← last? w).close
  | commodityChannel => onTail? n bars channel?
  | averageTrueRange => rangeAverage? n bars
  | standardDeviation => onTail? n bars fun w => return Scalar.deviation (closes w)
  | upperBand => onTail? n bars fun w =>
    return Scalar.mean (closes w) + widthSpec.value params * Scalar.deviation (closes w)
  | lowerBand => onTail? n bars fun w =>
    return Scalar.mean (closes w) - widthSpec.value params * Scalar.deviation (closes w)
  | balanceVolume => balance? bars
  | volumeAverage => onTail? n bars fun w => return Scalar.mean (w.map Bar.volume)

end

theorem difference?_eq {m : Nat} (h : n ≤ m) : difference? m n = some (m - n) := if_pos h

theorem slice?_eq (hstart : start ≤ stop) (hstop : stop ≤ xs.length) :
    slice? start stop xs = some ((xs.take stop).drop start) := if_pos ⟨hstart, hstop⟩

theorem last?_eq (hne : xs ≠ []) : last? xs = xs.getLast? := by
  have hpos := List.length_pos_iff.mpr hne
  rw [last?, difference?_eq hpos, List.getLast?_eq_getElem?]
  rfl

theorem tail?_eq (n : Nat) (xs : List β) : tail? n xs = some (window? n xs) := by
  rw [tail?, window?]
  split
  · rfl
  · next h =>
    have hle : n ≤ xs.length := by omega
    rw [difference?_eq hle, Option.bind_eq_bind, Option.bind_some,
      slice?_eq (Nat.sub_le ..) (Nat.le_refl _), List.take_length]
    rfl

theorem window?_ne_nil {w : List β} (h : window? n xs = some w) : w ≠ [] := by
  rw [window?] at h
  split at h
  · cases h
  · obtain rfl := Option.some.inj h
    rw [ne_eq, List.drop_eq_nil_iff]
    omega

/-- A calculation that is within range on every window is within range on the last one. -/
theorem onTail?_eq {f g : List β → Option γ} (h : ∀ w, w ≠ [] → ∃ x, f w = some x ∧ g w = some x)
    (n : Nat) (xs : List β) : onTail? n xs f = some ((window? n xs).bind g) := by
  rw [onTail?, tail?_eq, Option.bind_eq_bind, Option.bind_some]
  cases hw : window? n xs with
  | none => rfl
  | some w =>
    obtain ⟨x, hf, hg⟩ := h w (window?_ne_nil hw)
    rw [Option.bind_some, hg]
    change (f w).bind _ = _
    rw [hf]
    rfl

theorem onTail?_map (g : List β → γ) (n : Nat) (xs : List β) :
    onTail? n xs (fun w => some (g w)) = some ((window? n xs).map g) := by
  rw [onTail?_eq (g := fun w => some (g w)) (fun w _ => ⟨g w, rfl, rfl⟩), Option.map_eq_bind]
  rfl

theorem exists_ends (hne : xs ≠ []) :
    ∃ first last, xs[0]? = some first ∧ xs.head? = some first ∧ last? xs = some last ∧ xs.getLast? = some last := by
  refine ⟨xs.head hne, xs.getLast hne, ?_, List.head?_eq_some_head hne, ?_, List.getLast?_eq_some_getLast hne⟩
  · rw [← List.head?_eq_getElem?, List.head?_eq_some_head hne]
  · rw [last?_eq hne, List.getLast?_eq_some_getLast hne]

theorem mapM_onPair? (f : β → β → γ) : ∀ xs : List β, (pairs xs).mapM (onPair? f) = some (pairwise f xs)
  | [] => rfl
  | [_] => rfl
  | x :: y :: rest => by
    rw [pairs, List.mapM_cons, mapM_onPair? f (y :: rest), pairwise]
    rfl

theorem length_pairwise (f : β → β → γ) : ∀ xs : List β, (pairwise f xs).length = xs.length - 1
  | [] => rfl
  | [_] => rfl
  | x :: y :: rest => by
    rw [pairwise, List.length_cons, length_pairwise f (y :: rest)]
    rfl

theorem pairwise_map (f : γ → γ → δ) (g : β → γ) :
    ∀ xs : List β, pairwise f (xs.map g) = pairwise (fun x y => f (g x) (g y)) xs
  | [] => rfl
  | [_] => rfl
  | x :: y :: rest => by
    rw [pairwise, ← pairwise_map f g (y :: rest)]
    rfl

theorem window?_map (f : β → γ) (n : Nat) (xs : List β) :
    window? n (xs.map f) = (window? n xs).map (List.map f) := by
  rw [window?, window?, List.length_map]
  split
  · rfl
  · rw [← List.map_drop]
    rfl

section
variable [Scalar α]

/-- One pass for both averages is one for each. -/
theorem foldl_smooth (size : α) (f g : β → α) (xs : List β) (a b : α) :
    xs.foldl (fun (s : α × α) x => (smooth size s.1 (f x), smooth size s.2 (g x))) (a, b) =
      (xs.foldl (fun average x => smooth size average (f x)) a,
        xs.foldl (fun average x => smooth size average (g x)) b) := by
  induction xs generalizing a b with
  | nil => rfl
  | cons x xs ih => exact ih (smooth size a (f x)) (smooth size b (g x))

theorem averageOf?_eq (n : Nat) (f : β → α) (xs : List β) :
    averageOf? n (xs.map f) = some (exponential? n f xs) := by
  rw [averageOf?, exponential?, List.length_map]
  split
  · rfl
  · next h =>
    have hle : n ≤ (xs.map f).length := by rw [List.length_map]; omega
    have hseed : slice? 0 n (xs.map f) = some ((xs.take n).map f) := by
      rw [slice?_eq (Nat.zero_le n) hle, List.drop_zero, List.map_take]
    have hrest : slice? n xs.length (xs.map f) = some ((xs.drop n).map f) := by
      rw [← List.length_map f, slice?_eq hle (Nat.le_refl _), List.take_length, List.map_drop]
    simp only [hseed, hrest, Option.bind_eq_bind, Option.bind_some, List.foldl_map]
    rfl

theorem strength?_eq (n : Nat) (bars : List (Bar α)) :
    strength? n bars = some (if bars.length < n + 1 then none else some (strength n bars)) := by
  rw [strength?, closes, List.length_map]
  split
  · rfl
  · next h =>
    have hle : n ≤ (pairwise (fun previous bar => bar.close - previous.close) bars).length := by
      rw [length_pairwise]
      omega
    rw [mapM_onPair?, pairwise_map]
    simp only [Option.bind_eq_bind, Option.bind_some, split?, if_pos hle, foldl_smooth]
    rfl

theorem rangeAverage?_eq (n : Nat) (bars : List (Bar α)) :
    rangeAverage? n bars = some (if bars.length < n + 1 then none
      else some (smoothed n id (pairwise trueRange bars))) := by
  rw [rangeAverage?]
  split
  · rfl
  · next h =>
    have hle : n ≤ (pairwise trueRange bars).length := by
      rw [length_pairwise]
      omega
    rw [mapM_onPair?, smoothed, List.map_id]
    simp only [Option.bind_eq_bind, Option.bind_some, split?, if_pos hle]
    rfl

theorem foldlM_addVolume? (total : α) : ∀ bars : List (Bar α),
    (pairs bars).foldlM addVolume? total = some (signedVolume total bars)
  | [] => rfl
  | [_] => rfl
  | previous :: bar :: rest => by
    have hstep : addVolume? total [previous, bar] = some (if previous.close < bar.close then total + bar.volume
        else if bar.close < previous.close then total - bar.volume else total) := by
      rw [addVolume?]
      simp only [List.getElem?_cons_zero, List.getElem?_cons_succ, Option.bind_eq_bind, Option.bind_some]
      split
      · rfl
      · split <;> rfl
    rw [pairs, List.foldlM_cons, hstep, Option.bind_eq_bind, Option.bind_some, foldlM_addVolume?,
      signedVolume]
    split
    · rfl
    · split <;> rfl

theorem balance?_eq (bars : List (Bar α)) :
    balance? bars = some (if bars.length < 2 then none else some (signedVolume 0 bars)) := by
  rw [balance?]
  split
  · rfl
  · rw [foldlM_addVolume?]
    rfl

theorem channel?_eq {w : List (Bar α)} (hne : w ≠ []) : ∃ x, channel? w = some x ∧ channel w = some x := by
  have htypical : w.map (fun b => (b.high + b.low + b.close) / 3) ≠ [] := by
    rwa [ne_eq, List.map_eq_nil_iff]
  obtain ⟨-, last, -, -, hlast, hlast'⟩ := exists_ends htypical
  unfold channel? channel
  simp only [hlast, hlast']
  split
  · exact ⟨_, rfl, rfl⟩
  · exact ⟨_, rfl, rfl⟩

/-- Nothing is out of range, and what is calculated is the reading. -/
theorem calculation?_eq (i : Indicator) (params : Table α) (bars : List (Bar α)) :
    i.calculation? params bars = some (i.reading? params bars) := by
  cases i with
  | simpleAverage => exact onTail?_map _ _ bars
  | exponentialAverage => exact averageOf?_eq _ Bar.close bars
  | weightedAverage => exact onTail?_map _ _ bars
  | averageDivergence =>
    simp only [calculation?, reading?, closes, averageOf?_eq, Option.bind_eq_bind, Option.bind_some]
    cases exponential? (Scalar.toNat (fastSpec.value params)) Bar.close bars with
    | none => rfl
    | some fast => cases exponential? (Scalar.toNat (slowSpec.value params)) Bar.close bars <;> rfl
  | relativeStrength => exact strength?_eq _ bars
  | momentum =>
    apply onTail?_eq
    intro w hne
    obtain ⟨first, last, hfirst, hhead, hlast, hlast'⟩ := exists_ends hne
    simp [hfirst, hhead, hlast, hlast']
  | rateOfChange =>
    apply onTail?_eq
    intro w hne
    obtain ⟨first, last, hfirst, hhead, hlast, hlast'⟩ := exists_ends hne
    by_cases hbase : (first.close == 0) = true <;> simp [hfirst, hhead, hlast, hlast', hbase]
  | williamsRange =>
    apply onTail?_eq
    intro w hne
    obtain ⟨-, last, -, -, hlast, hlast'⟩ := exists_ends hne
    simp [hlast, hlast']
  | stochastic =>
    apply onTail?_eq
    intro w hne
    obtain ⟨-, last, -, -, hlast, hlast'⟩ := exists_ends hne
    simp [hlast, hlast']
  | commodityChannel => exact onTail?_eq (fun w hne => channel?_eq hne) _ bars
  | averageTrueRange => exact rangeAverage?_eq _ bars
  | standardDeviation => exact onTail?_map _ _ bars
  | upperBand =>
    rw [reading?, band?, closes, window?_map, Option.map_map, Option.map_map]
    exact onTail?_map _ _ bars
  | lowerBand =>
    rw [reading?, band?, closes, window?_map, Option.map_map, Option.map_map]
    exact onTail?_map _ _ bars
  | balanceVolume => exact balance?_eq bars
  | volumeAverage => exact onTail?_map _ _ bars

end

end SignalEvolution.Indicator

import SignalEvolution.Proofs.Indicator.Lookback
import SignalEvolution.Proofs.Market.Window
import SignalEvolution.Proofs.Tree.Structure

/-! # Signals and capacity

An indicator that sees only a window has the same reading whatever bars come before it. Contexts
of different capacities show the same last bars, so the signals of a tree of such indicators are
the same for all capacities that cover its longest lookback.
-/
namespace SignalEvolution

variable {c d : Context} {seen : List (Bar Float)}

namespace Indicator

variable {α β : Type} {n k : Nat} {i : Indicator}

theorem window?_append (older xs : List β) (h : n ≤ xs.length) : window? n (older ++ xs) = window? n xs := by
  rw [window?, window?, List.length_append]
  by_cases hn : n = 0
  · rw [if_pos (.inl hn), if_pos (.inl hn)]
  · have hstart : older.length + xs.length - n - older.length = xs.length - n := by omega
    rw [if_neg (by omega), if_neg (by omega), List.drop_append, List.drop_eq_nil_of_le (by omega),
      List.nil_append, hstart]

/-- What came before the window has no part in the reading. -/
theorem reading?_append [Scalar α] (hi : i ∈ windowed) (params : Table α) (older : List (Bar α))
    {bars : List (Bar α)} (h : i.lookback params ≤ bars.length) :
    i.reading? params (older ++ bars) = i.reading? params bars := by
  obtain ⟨g, -, hreading⟩ := ofWindow_of_mem hi params
  rw [hreading, hreading, window?_append older bars h]

/-- A context that covers the lookback has the reading of all bars that it has seen. -/
theorem readingIn_of_shows (hi : i ∈ windowed) {params : Table Float} (hc : c.Shows seen)
    (hfeed : c.feed = Table.empty) (hcover : i.lookback params ≤ c.capacity + 1) :
    i.readingIn params c = (i.reading? params seen).getD c.current.close := by
  have hsupplied : c.supplied? (i.key params) = none := by
    rw [Context.supplied?, hfeed]
    rfl
  have hbars : i.readingIn params c = (i.reading? params c.bars).getD c.current.close := by
    obtain ⟨g, -, hreading⟩ := ofWindow_of_mem hi params
    rw [readingIn_eq, hsupplied, Option.getD_none]
    split
    · next hfew =>
      rw [hreading, window?, if_pos (.inr hfew)]
      rfl
    · rfl
  have hseen : seen = seen.take (seen.length - 1 - c.capacity) ++ c.bars := by
    rw [hc.bars, List.take_append_drop]
  have hlength := hc.length_bars
  rw [hbars]
  -- Either no bar has left the window yet, or it is full and so covers the lookback.
  by_cases hall : seen.length ≤ c.capacity + 1
  · have hnone : seen.length - 1 - c.capacity = 0 := by omega
    rw [hc.bars, hnone, List.drop_zero]
  · conv_rhs => rw [hseen, reading?_append hi params _ (by omega)]

end Indicator

/-- An indicator that sees only a window, or no indicator. -/
def Kind.Windowed : Kind → Prop
  | .indicator name _ => ∃ i ∈ Indicator.windowed, i.mnemonic = name
  | _ => True

instance (k : Kind) : Decidable k.Windowed :=
  match k with
  | .indicator name _ => inferInstanceAs (Decidable (∃ i ∈ Indicator.windowed, i.mnemonic = name))
  | .operator _ | .comparator _ | .constant _ | .series _ => isTrue trivial

/-- The number of bars that a node needs, none where no indicator has the name. -/
def Kind.lookback : Kind → Nat
  | .indicator name params =>
    match Indicator.find? name.toList with
    | some i => i.lookback params
    | none => 0
  | _ => 0

theorem Kind.lookback_indicator (i : Indicator) (params : Table Float) :
    (Kind.indicator i.mnemonic params).lookback = i.lookback params := by
  rw [Kind.lookback, Indicator.find?_mnemonic]

namespace Tree

variable {t : Tree} {n : Nat}

/-- The largest number of bars that an indicator of the tree needs. -/
def lookback (t : Tree) : Nat := (t.preorder.map fun u => u.kind.lookback).foldr Nat.max 0

theorem lookback_le_iff : t.lookback ≤ n ↔ t.Every fun k => k.lookback ≤ n := by
  unfold lookback Every
  induction t.preorder with
  | nil => simp
  | cons u us ih => rw [List.map_cons, List.foldr_cons, Nat.max_le, ih, List.forall_mem_cons]

theorem values_eq_map (c : Context) (cs : List Tree) : values c cs = cs.map (value c) := by
  induction cs with
  | nil => rfl
  | cons t ts ih => rw [values, ih, List.map_cons]

theorem value_eq_of_shows (hw : t.Every Kind.Windowed) (hc : c.Shows seen) (hd : d.Shows seen)
    (hcfeed : c.feed = Table.empty) (hdfeed : d.feed = Table.empty)
    (hccover : t.lookback ≤ c.capacity + 1) (hdcover : t.lookback ≤ d.capacity + 1) :
    t.value c = t.value d := by
  have hcurrent : c.current = d.current := Option.some.inj (hc.getLast?.symm.trans hd.getLast?)
  rw [lookback_le_iff] at hccover hdcover
  induction t using Tree.induction with
  | node k cs ih =>
    rw [every_iff] at hw hccover hdcover
    have hvalues : values c cs = values d cs := by
      rw [values_eq_map, values_eq_map]
      exact List.map_congr_left fun u hu => ih u hu (hw.2 u hu) (hccover.2 u hu) (hdcover.2 u hu)
    rw [value_node, value_node, hvalues]
    cases k with
    | operator op => rfl
    | comparator cmp => rfl
    | constant x => rfl
    | series s =>
      rw [Kind.value, Kind.value, hcurrent]
    | indicator name params =>
      obtain ⟨i, hi, rfl⟩ := hw.1
      rw [Kind.lookback_indicator] at hccover hdcover
      change Value.number (i.readingIn params c) = Value.number (i.readingIn params d)
      rw [Indicator.readingIn_of_shows hi hc hcfeed hccover.1,
        Indicator.readingIn_of_shows hi hd hdfeed hdcover.1, hcurrent]

theorem signalsFrom_eq_of_shows (hw : t.Every Kind.Windowed) (hc : c.Shows seen) (hd : d.Shows seen)
    (hccover : t.lookback ≤ c.capacity + 1) (hdcover : t.lookback ≤ d.capacity + 1)
    (bars : List (Bar Float)) : t.signalsFrom c bars = t.signalsFrom d bars := by
  induction bars generalizing c d seen with
  | nil => rfl
  | cons bar bars ih =>
    rw [signalsFrom, signalsFrom]
    rw [value_eq_of_shows hw (hc.push bar) (hd.push bar) rfl rfl hccover hdcover,
      ih (hc.push bar) (hd.push bar) hccover hdcover]

theorem signals_eq_of_cover (hw : t.Every Kind.Windowed) {m n : Nat} (hm : t.lookback ≤ m + 1)
    (hn : t.lookback ≤ n + 1) (bars : List (Bar Float)) : t.signals m bars = t.signals n bars := by
  cases bars with
  | nil => rfl
  | cons bar bars =>
    have hc := Context.shows_start bar m
    have hd := Context.shows_start bar n
    rw [signals, signals]
    rw [value_eq_of_shows hw hc hd rfl rfl hm hn, signalsFrom_eq_of_shows hw hc hd hm hn]

/-- The longest lookback is that of a period of 200 bars and the bar before it. -/
theorem lookback_le_of_windowed (hw : t.Every Kind.Windowed) : t.lookback ≤ 201 := by
  rw [lookback_le_iff]
  refine hw.imp fun k hk => ?_
  cases k with
  | indicator name params =>
    obtain ⟨i, hi, rfl⟩ := hk
    rw [Kind.lookback_indicator]
    exact (Indicator.lookback_bounds hi params).2
  | _ => exact Nat.zero_le _

/-- An indicator over a window depends on the last bars only, as many as its lookback. So the
signals of a tree of such indicators are the same for any two capacities that cover the longest
lookback in the tree, and from 200 earlier bars on they are those at the default capacity. -/
theorem signals_of_capacity :
    (∀ i ∈ Indicator.windowed, ∀ (params : Table Float) (older bars : List (Bar Float)),
      i.lookback params ≤ bars.length → i.reading? params (older ++ bars) = i.reading? params bars) ∧
    ∀ t : Tree, t.Every Kind.Windowed →
      (∀ m n, t.lookback ≤ m + 1 → t.lookback ≤ n + 1 →
        ∀ bars, t.signals m bars = t.signals n bars) ∧
      ∀ n, 200 ≤ n → ∀ bars, t.signals n bars = t.signals Context.defaultCapacity bars := by
  constructor
  · intro i hi params older bars h
    exact Indicator.reading?_append hi params older h
  · intro t hw
    refine ⟨fun m n hm hn => signals_eq_of_cover hw hm hn, ?_⟩
    intro n hn
    have hlongest := lookback_le_of_windowed hw
    have hdefault : Context.defaultCapacity = 256 := rfl
    exact signals_eq_of_cover hw (by omega) (by omega)

/-- Whether the close is above its average over two bars needs one earlier bar. -/
theorem signals_of_capacity_average :
    let t := Tree.compare .greater (.indicator .simpleAverage (Table.ofList [("period", 2)])) (.series .close)
    let bars := [10, 12, 11, 13].map fun price => Bar.flat price 1
    t.Every Kind.Windowed ∧ t.lookback ≤ 1 + 1 ∧ t.signals 1 bars = t.signals 5 bars ∧
      Indicator.simpleAverage.reading? (Table.ofList [("period", 2)]) ([Bar.flat 10 1] ++ bars) =
        Indicator.simpleAverage.reading? (Table.ofList [("period", 2)]) bars := by
  intro t bars
  obtain ⟨hreading, hsignals⟩ := signals_of_capacity
  have hw : t.Every Kind.Windowed := by decide +kernel
  have hone : t.lookback ≤ 1 + 1 := by decide +kernel
  have hfive : t.lookback ≤ 5 + 1 := by decide +kernel
  exact ⟨hw, hone, (hsignals t hw).1 1 5 hone hfive bars,
    hreading .simpleAverage (by decide) _ _ bars (by decide +kernel)⟩

end Tree
end SignalEvolution

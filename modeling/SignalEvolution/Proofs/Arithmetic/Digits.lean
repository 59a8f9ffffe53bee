import SignalEvolution.Arithmetic.Decimal
import SignalEvolution.Proofs.Text.Case

/-! # Decimal digits

The digits of a number in decimal notation give the number back, with a point among
them or with zeros at either end.
-/
namespace SignalEvolution.Decimal
open Shortest

variable {cs ds whole places : List Char} {c : Char} {n d : Nat} {e point : Int}

theorem digitCount_pos (n : Nat) : 0 < digitCount n := Nat.length_toDigits_pos

theorem lt_pow_digitCount (n : Nat) : n < 10 ^ digitCount n :=
  (Nat.length_toDigits_le_iff (by decide) (digitCount_pos n)).mp (Nat.le_refl _)

theorem pow_digitCount_le (hn : 0 < n) : 10 ^ (digitCount n - 1) ≤ n := by
  by_cases h1 : digitCount n = 1
  · rw [h1]
    exact hn
  · have hpos := digitCount_pos n
    rw [← Nat.not_lt, ← Nat.length_toDigits_le_iff (by decide) (by omega)]
    change ¬ digitCount n ≤ digitCount n - 1
    omega

theorem digitsValue_eq (cs : List Char) : digitsValue cs = Nat.ofDigitChars 10 cs 0 := rfl

theorem digitsValue_toDigits (n : Nat) : digitsValue (Nat.toDigits 10 n) = n :=
  Nat.ofDigitChars_ten_toDigits

theorem digitsValue_append_zeros (cs : List Char) (n : Nat) :
    digitsValue (cs ++ zeros n) = digitsValue cs * 10 ^ n := by
  rw [digitsValue_eq, Nat.ofDigitChars_append, zeros, Nat.ofDigitChars_replicate_zero, digitsValue_eq,
    Nat.mul_comm]

theorem digitsValue_zeros_append (n : Nat) (cs : List Char) :
    digitsValue (zeros n ++ cs) = digitsValue cs := by
  rw [digitsValue_eq, Nat.ofDigitChars_append, zeros, Nat.ofDigitChars_replicate_zero, Nat.mul_zero]
  rfl

/-- Digits and nothing else. -/
def IsDigits (cs : List Char) : Prop := ∀ c ∈ cs, c.isDigit = true

theorem isDigits_toDigits (n : Nat) : IsDigits (Nat.toDigits 10 n) :=
  fun _ hc => Nat.isDigit_of_mem_toDigits (by decide) (by decide) hc

theorem isDigits_zeros (n : Nat) : IsDigits (zeros n) := by
  intro c hc
  rw [List.eq_of_mem_replicate hc]
  decide

theorem IsDigits.append (hc : IsDigits cs) (hd : IsDigits ds) : IsDigits (cs ++ ds) := by
  intro c h
  rcases List.mem_append.mp h with h | h
  · exact hc c h
  · exact hd c h

theorem IsDigits.takeWhile (h : IsDigits cs) : cs.takeWhile Char.isDigit = cs :=
  List.takeWhile_eq_self_iff.mpr h

theorem IsDigits.dropWhile (h : IsDigits cs) : cs.dropWhile Char.isDigit = [] :=
  List.dropWhile_eq_nil_iff.mpr h

theorem unsigned?_digits (h : IsDigits cs) (hne : cs ≠ []) :
    unsigned? cs = some (nearest (digitsValue cs) 0) := by
  simp [unsigned?, h.takeWhile, h.dropWhile, hne]

theorem unsigned?_point (hw : IsDigits whole) (hp : IsDigits places) (hne : whole ≠ []) :
    unsigned? (whole ++ '.' :: places) =
      some (nearest (digitsValue (whole ++ places)) (-(places.length : Int))) := by
  have hpoint : Char.isDigit '.' = false := by decide
  have htake : (whole ++ '.' :: places).takeWhile Char.isDigit = whole := by
    rw [List.takeWhile_append_of_pos hw]
    simp [hpoint]
  have hdrop : (whole ++ '.' :: places).dropWhile Char.isDigit = '.' :: places := by
    rw [List.dropWhile_append_of_pos hw]
    simp [hpoint]
  simp [unsigned?, htake, hdrop, hp.takeWhile, hp.dropWhile, hne]

/-- Digits in plain notation are read back with their value, the point being where it was put. -/
theorem unsigned?_positional (d : Nat) (e : Int) :
    ∃ n k, unsigned? (positional (Nat.toDigits 10 d) (e + (Nat.toDigits 10 d).length) false) =
        some (nearest n k) ∧ (n : ℚ) * 10 ^ k = d * 10 ^ e := by
  have hdigits := isDigits_toDigits d
  have hvalue := digitsValue_toDigits d
  have hne : Nat.toDigits 10 d ≠ [] := Nat.toDigits_ne_nil
  generalize hds : Nat.toDigits 10 d = ds at hdigits hvalue hne
  unfold positional
  split
  · next hpoint =>
    have hzero : IsDigits ['0'] := isDigits_zeros 1
    have hread := unsigned?_point hzero ((isDigits_zeros (e + ds.length).natAbs).append hdigits) (by simp)
    refine ⟨_, _, hread, ?_⟩
    have hall : digitsValue (['0'] ++ (zeros (e + ds.length).natAbs ++ ds)) = d := by
      have hjoin : ['0'] = zeros 1 := rfl
      rw [hjoin, digitsValue_zeros_append, digitsValue_zeros_append, hvalue]
    have hlen : -((zeros (e + ds.length).natAbs ++ ds).length : Int) = e := by
      rw [List.length_append, zeros, List.length_replicate]
      omega
    rw [hall, hlen]
  · next hpoint =>
    split
    · next hlong =>
      have hread := unsigned?_digits (hdigits.append (isDigits_zeros ((e + ds.length).natAbs - ds.length)))
        (by simp [hne])
      rw [if_neg (by simp), List.append_nil]
      refine ⟨_, _, hread, ?_⟩
      have hexp : e = ((e + ds.length).natAbs - ds.length : Nat) := by omega
      have hten : (10 : ℚ) ^ ((e + ds.length).natAbs - ds.length) = 10 ^ e := by
        rw [← zpow_natCast, ← hexp]
      rw [digitsValue_append_zeros, hvalue]
      push_cast
      rw [mul_one, hten]
    · next hlong =>
      have hsplit := List.take_append_drop (e + ds.length).natAbs ds
      have hwhole : IsDigits (ds.take (e + ds.length).natAbs) := fun c hc => hdigits c (List.mem_of_mem_take hc)
      have hplaces : IsDigits (ds.drop (e + ds.length).natAbs) := fun c hc => hdigits c (List.mem_of_mem_drop hc)
      have hnone : ds.take (e + ds.length).natAbs ≠ [] := by
        rw [Ne, List.take_eq_nil_iff]
        rintro (h | h)
        · omega
        · exact hne h
      refine ⟨_, _, unsigned?_point hwhole hplaces hnone, ?_⟩
      have hlen : -((ds.drop (e + ds.length).natAbs).length : Int) = e := by
        rw [List.length_drop]
        omega
      rw [hsplit, hvalue, hlen]

/-- A text that begins with a digit is none of the words for infinity and NaN. -/
theorem not_word (hc : c.isDigit = true) (d : Char) (ds : List Char) (hd : d.isDigit = false) :
    (c :: cs).map Char.toLower ≠ d :: ds := by
  intro h
  have hhead : c.toLower = d := (List.cons.inj h).1
  rw [← hhead, Text.isDigit_toLower, hc] at hd
  cases hd

theorem read?_digits (hc : c.isDigit = true) : read? (c :: cs) = unsigned? (c :: cs) := by
  have hsign : splitSign (c :: cs) = (false, c :: cs) := by
    unfold splitSign
    split
    · next he =>
      obtain ⟨rfl, _⟩ := List.cons.inj he
      exact absurd hc (by decide)
    · next he =>
      obtain ⟨rfl, _⟩ := List.cons.inj he
      exact absurd hc (by decide)
    · rfl
  rw [read?, hsign]
  simp [not_word hc, -List.map_cons]

theorem read?_minus (hc : c.isDigit = true) :
    read? ('-' :: c :: cs) = (unsigned? (c :: cs)).map fun x => -x := by
  have hsign : splitSign ('-' :: c :: cs) = (true, c :: cs) := rfl
  rw [read?, hsign]
  simp [not_word hc, -List.map_cons]

end SignalEvolution.Decimal

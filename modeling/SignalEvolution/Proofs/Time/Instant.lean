import SignalEvolution.Proofs.Arithmetic.Digits
import SignalEvolution.Proofs.Problem
import SignalEvolution.Proofs.Text.Trim
import SignalEvolution.Time.Instant

/-! # Instants read back from their text

Every number of an instant is written with enough digits for its reader and before a mark
that ends it, so the text of an instant is read as that instant.
-/
namespace SignalEvolution.Instant
open Decimal Text

variable {width n : Nat} {cs rest : List Char}

theorem isDigits_padded (width n : Nat) : IsDigits (padded width n) :=
  (isDigits_zeros _).append (isDigits_toDigits n)

theorem digitsValue_padded (width n : Nat) : digitsValue (padded width n) = n :=
  (digitsValue_zeros_append _ _).trans (digitsValue_toDigits n)

theorem length_padded (hw : 0 < width) (hn : n < 10 ^ width) : (padded width n).length = width := by
  have hlength : (Nat.toDigits 10 n).length ≤ width := (Nat.length_toDigits_le_iff (by decide) hw).mpr hn
  simp only [padded, List.length_append, List.length_replicate]
  omega

theorem padded_ne_nil (width n : Nat) : padded width n ≠ [] := by
  have hpos : 0 < (Nat.toDigits 10 n).length := Nat.length_toDigits_pos
  intro h
  rw [padded, List.append_eq_nil_iff] at h
  rw [h.2] at hpos
  exact absurd hpos (by decide)

/-- Digits are read to their end. -/
theorem digits?_append (hcs : IsDigits cs) (hne : cs ≠ []) (hw : cs.length ≤ width)
    (hrest : ∀ c ∈ rest.head?, c.isDigit = false) :
    digits? width (cs ++ rest) = some (digitsValue cs, rest) := by
  have htake : (cs ++ rest).takeWhile Char.isDigit = cs := by
    rw [List.takeWhile_append_of_pos hcs]
    cases rest with
    | nil => simp
    | cons c rest => simp [hrest c rfl]
  simp only [digits?, htake, List.take_of_length_le hw, List.drop_left]
  rw [if_neg (by simpa using hne)]

theorem isBlank_of_isDigit {c : Char} (h : c.isDigit = true) : isBlank c = false := by
  have hlow : 48 ≤ c.toNat := UInt32.le_iff_toNat_le.mp (of_decide_eq_true (Bool.and_eq_true_iff.mp h).1)
  have hhigh : c.toNat ≤ 57 := UInt32.le_iff_toNat_le.mp (of_decide_eq_true (Bool.and_eq_true_iff.mp h).2)
  simp only [isBlank, Bool.or_eq_false_iff, Bool.and_eq_false_iff, decide_eq_false_iff_not, beq_eq_false_iff_ne]
  omega

theorem padded_cons (width n : Nat) : ∃ c cs, padded width n = c :: cs ∧ c.isDigit = true := by
  obtain ⟨c, cs, h⟩ := List.exists_cons_of_ne_nil (padded_ne_nil width n)
  exact ⟨c, cs, h, isDigits_padded width n c (h ▸ List.mem_cons_self)⟩

theorem trimStart_padded (width n : Nat) (rest : List Char) :
    trimStart (padded width n ++ rest) = padded width n ++ rest := by
  apply trimStart_eq_self
  intro c hc
  obtain ⟨d, ds, h, hd⟩ := padded_cons width n
  rw [h] at hc
  obtain rfl := Option.some.inj hc
  exact isBlank_of_isDigit hd

theorem number?_padded (hn : n < 100) (hrest : ∀ c ∈ rest.head?, c.isDigit = false) :
    number? (padded 2 n ++ rest) = some (n, rest) := by
  rw [number?, trimStart_padded, digits?_append (isDigits_padded 2 n) (padded_ne_nil 2 n) _ hrest,
    digitsValue_padded]
  exact Nat.le_of_eq (length_padded (by decide) hn)

theorem mark?_cons {c : Char} (hc : isBlank c = false) (rest : List Char) :
    mark? c (c :: rest) = some rest := by
  rw [mark?, trimStart_eq_self]
  · exact if_pos rfl
  · intro d hd
    obtain rfl := Option.some.inj hd
    exact hc

theorem year?_digit {c : Char} (hc : c.isDigit = true) (cs : List Char) :
    year? (c :: cs) = (digits? 4 (c :: cs)).map fun (n, rest) => ((n : Int), rest) := by
  have hstart : trimStart (c :: cs) = c :: cs := by
    apply trimStart_eq_self
    intro d hd
    obtain rfl := Option.some.inj hd
    exact isBlank_of_isDigit hc
  rw [year?, hstart]
  split
  · next heq =>
    obtain ⟨rfl, -⟩ := List.cons.inj heq
    cases hc
  · next heq =>
    obtain ⟨rfl, -⟩ := List.cons.inj heq
    cases hc
  · rfl

theorem year?_yearText (year : Int) (hrest : ∀ c ∈ rest.head?, c.isDigit = false) :
    year? (yearText year ++ rest) = some (year, rest) := by
  have hread : ∀ width, (padded 4 year.natAbs).length ≤ width →
      digits? width (padded 4 year.natAbs ++ rest) = some (year.natAbs, rest) := by
    intro width hlength
    rw [digits?_append (isDigits_padded _ _) (padded_ne_nil _ _) hlength hrest, digitsValue_padded]
  have hwhole := hread (padded 4 year.natAbs ++ rest).length (by simp)
  unfold yearText
  split
  · next hshort =>
    have hvalue : (year.natAbs : Int) = year := Int.natAbs_of_nonneg hshort.1
    have hfour := hread 4 (Nat.le_of_eq (length_padded (by decide) (by omega)))
    obtain ⟨c, cs, hcons, hc⟩ := padded_cons 4 year.natAbs
    rw [hcons, List.cons_append] at hfour ⊢
    rw [year?_digit hc, hfour]
    exact congrArg (fun y => some (y, rest)) hvalue
  · -- Any other year has a sign, and its digits are all read.
    split
    · next hneg =>
      have hvalue : -(year.natAbs : Int) = year := by omega
      change (digits? (padded 4 year.natAbs ++ rest).length (padded 4 year.natAbs ++ rest)).map _ = _
      rw [hwhole]
      exact congrArg (fun y => some (y, rest)) hvalue
    · next hneg =>
      have hvalue : (year.natAbs : Int) = year := Int.natAbs_of_nonneg (Int.not_lt.mp hneg)
      change (digits? (padded 4 year.natAbs ++ rest).length (padded 4 year.natAbs ++ rest)).map _ = _
      rw [hwhole]
      exact congrArg (fun y => some (y, rest)) hvalue

theorem fraction?_padded (hw : 0 < width) (hw9 : width ≤ 9) (hn : n < 10 ^ width)
    (hrest : ∀ c ∈ rest.head?, c.isDigit = false) :
    fraction? ('.' :: (padded width n ++ rest)) = some (n * 10 ^ (9 - width), rest) := by
  have hlength := length_padded hw hn
  have hdrop : rest.dropWhile Char.isDigit = rest := by
    cases rest with
    | nil => rfl
    | cons c rest => simp [hrest c rfl]
  have hcount : (padded width n ++ rest).length - rest.length = width := by
    rw [List.length_append, hlength, Nat.add_sub_cancel]
  rw [fraction?, digits?_append (isDigits_padded _ _) (padded_ne_nil _ _) (by omega) hrest,
    digitsValue_padded]
  change some (n * 10 ^ (9 - ((padded width n ++ rest).length - rest.length)), rest.dropWhile Char.isDigit) = _
  rw [hcount, hdrop]

theorem fraction?_fractionText (hn : n < 1000000000) :
    fraction? (fractionText n ++ ['Z']) = some (n, ['Z']) := by
  have hrest : ∀ c ∈ ['Z'].head?, c.isDigit = false := by decide
  unfold fractionText
  split
  · next h =>
    rw [h]
    rfl
  · split
    · next h =>
      have hvalue : n / 1000000 * 10 ^ (9 - 3) = n := Nat.div_mul_cancel (Nat.dvd_of_mod_eq_zero h)
      rw [List.cons_append, fraction?_padded (by decide) (by decide) (by omega) hrest, hvalue]
    · split
      · next h =>
        have hvalue : n / 1000 * 10 ^ (9 - 6) = n := Nat.div_mul_cancel (Nat.dvd_of_mod_eq_zero h)
        rw [List.cons_append, fraction?_padded (by decide) (by decide) (by omega) hrest, hvalue]
      · rw [List.cons_append, fraction?_padded (by decide) (by decide) (by omega) hrest, Nat.sub_self,
          Nat.pow_zero, Nat.mul_one]

theorem earlier?_zero (t : Instant) : t.earlier? 0 = some t := by
  have hday := t.time.inDay
  have hmoved : ((t.time.hour : Int) * 60 + t.time.minute - 0) % 1440 =
      (t.time.hour * 60 + t.time.minute : Nat) := by
    omega
  have hhour : (t.time.hour * 60 + t.time.minute) / 60 = t.time.hour := by omega
  have hminute : (t.time.hour * 60 + t.time.minute) % 60 = t.time.minute := by omega
  unfold earlier?
  simp only [hmoved, Int.toNat_natCast, hhour, hminute, TimeOfDay.ofNumbers?_self]
  rw [if_neg (by omega), if_neg (by omega)]
  rfl

theorem ofNumbers?_self (t : Instant) :
    ofNumbers? t.date.year t.date.month t.date.day t.time.hour t.time.minute t.time.second
      t.time.nanosecond = some t := by
  rw [ofNumbers?, Date.ofNumbers?_self, TimeOfDay.ofNumbers?_self]
  rfl

theorem head_fractionText (n : Nat) : ∀ c ∈ (fractionText n ++ ['Z']).head?, c.isDigit = false := by
  intro c hc
  have hmark : c = '.' ∨ c = 'Z' := by
    unfold fractionText at hc
    split at hc
    · exact .inr (Option.some.inj hc).symm
    · split at hc
      · exact .inl (Option.some.inj hc).symm
      · split at hc <;> exact .inl (Option.some.inj hc).symm
  rcases hmark with rfl | rfl <;> decide

theorem day_lt (d : Date) : d.day < 100 := by
  have hdays : Calendar.daysIn d.year d.month ≤ 31 := by
    unfold Calendar.daysIn
    split
    · split <;> decide
    all_goals decide
  exact Nat.lt_of_le_of_lt (Nat.le_trans d.inDays.2 hdays) (by decide)

/-- The text of an instant is read as that instant. -/
theorem ofText?_text (t : Instant) : ofText? t.text = some t := by
  have hmonth : t.date.month < 100 := Nat.lt_of_le_of_lt t.date.inMonths.2 (by decide)
  obtain ⟨hhour, hminute, hsecond, hnano⟩ := t.time.inDay
  have hdash : isBlank '-' = false := by decide
  have hcolon : isBlank ':' = false := by decide
  have hmark {d : Char} {cs : List Char} (hd : d.isDigit = false) :
      ∀ c ∈ (d :: cs).head?, c.isDigit = false := by
    intro c hc
    obtain rfl := Option.some.inj hc
    exact hd
  rw [ofText?, text, String.toList_ofList]
  simp only [List.append_assoc, List.cons_append]
  refine bind_of_some (year?_yearText _ (hmark rfl)) ?_
  refine bind_of_some (mark?_cons hdash _) (bind_of_some (number?_padded hmonth (hmark rfl)) ?_)
  refine bind_of_some (mark?_cons hdash _) (bind_of_some (number?_padded (day_lt t.date) (hmark rfl)) ?_)
  refine bind_of_some rfl (bind_of_some (number?_padded (by omega) (hmark rfl)) ?_)
  refine bind_of_some (mark?_cons hcolon _) (bind_of_some (number?_padded (by omega) (hmark rfl)) ?_)
  refine bind_of_some (mark?_cons hcolon _) (bind_of_some (number?_padded (by omega) (head_fractionText _)) ?_)
  refine bind_of_some (fraction?_fractionText hnano) ?_
  have hoffset : offset? (trimStart ['Z']) = some (0, []) := rfl
  refine bind_of_some hoffset ?_
  exact bind_of_some (ofNumbers?_self t) (earlier?_zero t)

end SignalEvolution.Instant

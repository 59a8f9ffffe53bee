import Mathlib.Data.List.TakeWhile
import Mathlib.Tactic.IntervalCases
import SignalEvolution.Formula.Reader

/-! # Texts that are read as finite numbers

The words for infinities and for NaN are read, but not as finite numbers; every
other number is spelled with digits, a point, signs and the letter of an exponent.
-/
namespace SignalEvolution.Decimal

/-- The characters of finite numbers. -/
def numerals : List Char :=
  ['0', '1', '2', '3', '4', '5', '6', '7', '8', '9', '.', 'e', 'E', '+', '-']

variable {cs body : List Char} {x : Float}

theorem mem_numerals_of_isDigit {c : Char} (h : c.isDigit = true) : c ∈ numerals := by
  simp only [Char.isDigit, Bool.and_eq_true, decide_eq_true_eq, ge_iff_le,
    UInt32.le_iff_toNat_le] at h
  obtain ⟨hlow, hhigh⟩ : 48 ≤ c.toNat ∧ c.toNat ≤ 57 := h
  have hc : Char.ofNat c.toNat = c := Char.ofNat_toNat c
  generalize c.toNat = n at hlow hhigh hc
  subst hc
  interval_cases n <;> decide

theorem takeWhile_subset_numerals (cs : List Char) : cs.takeWhile Char.isDigit ⊆ numerals :=
  fun _ hc => mem_numerals_of_isDigit (List.mem_takeWhile_imp hc)

theorem splitSign_spec (cs : List Char) : ∃ sign, sign ⊆ numerals ∧ cs = sign ++ (splitSign cs).2 := by
  unfold splitSign
  split
  · exact ⟨['-'], by decide, rfl⟩
  · exact ⟨['+'], by decide, rfl⟩
  · exact ⟨[], by simp, rfl⟩

theorem exponent?_subset {e : Int} (h : exponent? cs = some e) : cs ⊆ numerals := by
  obtain ⟨sign, hsign, hcs⟩ := splitSign_spec cs
  cases hs : splitSign cs with
  | mk negative digits =>
    simp only [exponent?, hs] at h
    split at h
    · cases h
    · next hdigits =>
      have hall : ∀ c ∈ digits, c.isDigit = true := by
        simp only [Bool.or_eq_true, Bool.not_eq_true', not_or, Bool.not_eq_false] at hdigits
        exact List.all_eq_true.mp hdigits.2
      rw [hcs, hs]
      exact List.append_subset.mpr ⟨hsign, fun c hc => mem_numerals_of_isDigit (hall c hc)⟩

/-- The digits after a point, and what follows them. -/
def fraction : List Char → List Char × List Char
  | '.' :: rest => (rest.takeWhile Char.isDigit, rest.dropWhile Char.isDigit)
  | rest => ([], rest)

/-- The number of some digits with some places after the point, and an exponent or nothing after them. -/
def scaled? (digits places : Nat) : List Char → Option Float
  | [] => some (nearest digits (-(places : Int)))
  | c :: rest =>
    if c = 'e' || c = 'E' then (exponent? rest).map fun e => nearest digits (e - places) else none

theorem unsigned?_eq (cs : List Char) : unsigned? cs =
    let whole := cs.takeWhile Char.isDigit
    let (places, rest) := fraction (cs.dropWhile Char.isDigit)
    if whole.isEmpty && places.isEmpty then none
    else scaled? (digitsValue (whole ++ places)) places.length rest := rfl

theorem fraction_cons (c : Char) (cs : List Char) : fraction (c :: cs) =
    if c = '.' then (cs.takeWhile Char.isDigit, cs.dropWhile Char.isDigit) else ([], c :: cs) := by
  split_ifs with hpoint
  · rw [hpoint, fraction]
  · rw [fraction]
    simpa using hpoint

theorem fraction_subset (h : (fraction cs).2 ⊆ numerals) : cs ⊆ numerals := by
  cases cs with
  | nil => simp
  | cons c cs =>
    rw [fraction_cons] at h
    split at h
    · next hpoint =>
      have hcs : cs = cs.takeWhile Char.isDigit ++ cs.dropWhile Char.isDigit :=
        List.takeWhile_append_dropWhile.symm
      rw [hpoint, hcs]
      exact List.cons_subset.mpr ⟨by decide, List.append_subset.mpr ⟨takeWhile_subset_numerals cs, h⟩⟩
    · exact h

/-- What follows the digits is nothing or an exponent. -/
theorem scaled?_subset {digits places : Nat} (h : scaled? digits places cs = some x) : cs ⊆ numerals := by
  cases cs with
  | nil => simp
  | cons c r =>
    rw [scaled?] at h
    split at h
    · next hc =>
      obtain ⟨e, he, _⟩ := Option.map_eq_some_iff.mp h
      have hmem : c ∈ numerals := by
        rcases (by simpa using hc : c = 'e' ∨ c = 'E') with rfl | rfl <;> decide
      exact List.cons_subset.mpr ⟨hmem, exponent?_subset he⟩
    · cases h

theorem unsigned?_subset (h : unsigned? body = some x) : body ≠ [] ∧ body ⊆ numerals := by
  have hbody : body = body.takeWhile Char.isDigit ++ body.dropWhile Char.isDigit :=
    List.takeWhile_append_dropWhile.symm
  rw [unsigned?_eq] at h
  dsimp only at h
  split at h
  · cases h
  · next hne =>
    refine ⟨by rintro rfl; simp [fraction] at hne, ?_⟩
    rw [hbody]
    exact List.append_subset.mpr ⟨takeWhile_subset_numerals body, fraction_subset (scaled?_subset h)⟩

end SignalEvolution.Decimal

namespace SignalEvolution.Formula
open Decimal

variable {cs : List Char} {x : Float}

/-- A text that is read as a finite number consists of digits, points, signs and exponent letters. -/
theorem finite?_subset (h : finite? cs = some x) : cs ≠ [] ∧ cs ⊆ numerals := by
  obtain ⟨hread, hfinite⟩ := Option.filter_eq_some_iff.mp h
  obtain ⟨sign, hsign, hcs⟩ := splitSign_spec cs
  cases hs : splitSign cs with
  | mk negative body =>
    simp only [read?, hs] at hread
    obtain ⟨y, hy, hx⟩ := Option.map_eq_some_iff.mp hread
    split at hy
    · -- The words for infinity are not read as finite numbers.
      obtain rfl := Option.some.inj hy
      subst hx
      exact absurd hfinite (by cases negative <;> decide)
    · split at hy
      · obtain rfl := Option.some.inj hy
        subst hx
        exact absurd hfinite (by cases negative <;> decide)
      · obtain ⟨hne, hbody⟩ := unsigned?_subset hy
        rw [hcs, hs]
        exact ⟨by simp [hne], List.append_subset.mpr ⟨hsign, hbody⟩⟩

theorem isFinite_of_finite? (h : finite? cs = some x) : x.isFinite = true :=
  (Option.filter_eq_some_iff.mp h).2

end SignalEvolution.Formula

import Mathlib
import SignalEvolution.Text.Blank

/-! # ASCII case

The two cases of a letter are thirty-two code points apart. Changing case never
makes a letter of another character, and the last change decides. White space and the
separators of a text are no letters, so that it is cut at the same places in either case.
-/
namespace SignalEvolution.Text

variable {cs : List Char}

theorem toNat_toUpper (c : Char) :
    c.toUpper.toNat = if 97 ≤ c.toNat ∧ c.toNat ≤ 122 then c.toNat - 32 else c.toNat := by
  have hval : ('a'.val ≤ c.val ∧ c.val ≤ 'z'.val) ↔ (97 ≤ c.toNat ∧ c.toNat ≤ 122) := by
    rw [UInt32.le_iff_toNat_le, UInt32.le_iff_toNat_le]
    rfl
  by_cases h : 97 ≤ c.toNat ∧ c.toNat ≤ 122
  · rw [if_pos h, Char.toUpper, dif_pos (hval.mpr h)]
    change (c.val + _).toNat = _
    rw [UInt32.toNat_add, Char.toNat_val]
    change (c.toNat + 4294967264) % 4294967296 = _
    omega
  · rw [if_neg h, Char.toUpper, dif_neg (mt hval.mp h)]

theorem toNat_toLower (c : Char) :
    c.toLower.toNat = if 65 ≤ c.toNat ∧ c.toNat ≤ 90 then c.toNat + 32 else c.toNat := by
  have hval : (c.val ≥ 'A'.val ∧ c.val ≤ 'Z'.val) ↔ (65 ≤ c.toNat ∧ c.toNat ≤ 90) := by
    rw [ge_iff_le, UInt32.le_iff_toNat_le, UInt32.le_iff_toNat_le]
    rfl
  by_cases h : 65 ≤ c.toNat ∧ c.toNat ≤ 90
  · rw [if_pos h, Char.toLower, dif_pos (hval.mpr h)]
    change (c.val + 32).toNat = _
    rw [UInt32.toNat_add, Char.toNat_val]
    change (c.toNat + 32) % 4294967296 = _
    omega
  · rw [if_neg h, Char.toLower, dif_neg (mt hval.mp h)]

theorem lower_cons (c : Char) (cs : List Char) : lower (c :: cs) = c.toLower :: lower cs := rfl

theorem lower_upper (cs : List Char) : lower (upper cs) = lower cs := by
  simp [lower, upper]

theorem upper_lower (cs : List Char) : upper (lower cs) = upper cs := by
  simp [lower, upper]

theorem lower_lower (cs : List Char) : lower (lower cs) = lower cs := by
  simp [lower]

/-- Only a letter has another case. -/
theorem toLower_eq_iff {c d : Char} (hd : d.toNat < 65 ∨ 122 < d.toNat) : c.toLower = d ↔ c = d := by
  rw [← Char.toNat_inj, ← Char.toNat_inj, toNat_toLower]
  split_ifs <;> omega

theorem map_toLower_eq_some_iff {o : Option Char} {d : Char} (hd : d.toNat < 65 ∨ 122 < d.toNat) :
    o.map Char.toLower = some d ↔ o = some d := by
  cases o <;> simp [toLower_eq_iff hd]

theorem isBlank_toLower (c : Char) : isBlank c.toLower = isBlank c := by
  rw [Bool.eq_iff_iff]
  simp only [isBlank, Bool.or_eq_true, Bool.and_eq_true, decide_eq_true_eq, beq_iff_eq, toNat_toLower]
  split_ifs <;> omega

theorem isDigit_toLower (c : Char) : c.toLower.isDigit = c.isDigit := by
  rw [Bool.eq_iff_iff]
  simp only [Char.isDigit, Bool.and_eq_true, decide_eq_true_eq, ge_iff_le,
    UInt32.le_iff_toNat_le, Char.toNat_val, Char.reduceToNat, toNat_toLower]
  split_ifs <;> omega

theorem lower_of_isDigit (h : ∀ c ∈ cs, c.isDigit = true) : lower cs = cs := by
  have hsame : ∀ c ∈ cs, c.toLower = id c := by
    intro c hc
    have hdigit := h c hc
    simp only [Char.isDigit, Bool.and_eq_true, decide_eq_true_eq, ge_iff_le,
      UInt32.le_iff_toNat_le, Char.toNat_val, Char.reduceToNat] at hdigit
    rw [id, ← Char.toNat_inj, toNat_toLower, if_neg (by omega)]
  rw [lower, List.map_congr_left hsame, List.map_id]

theorem isEmpty_lower (cs : List Char) : (lower cs).isEmpty = cs.isEmpty := List.isEmpty_map

theorem head?_lower (cs : List Char) : (lower cs).head? = cs.head?.map Char.toLower := List.head?_map

theorem getLast?_lower (cs : List Char) : (lower cs).getLast? = cs.getLast?.map Char.toLower :=
  List.getLast?_map

theorem dropLast_lower (cs : List Char) : (lower cs).dropLast = lower cs.dropLast := List.map_dropLast.symm

theorem all_lower {p : Char → Bool} (hp : ∀ c, p c.toLower = p c) (cs : List Char) :
    (lower cs).all p = cs.all p := by
  rw [lower, List.all_map]
  exact congrArg cs.all (funext hp)

theorem trimStart_lower (cs : List Char) : trimStart (lower cs) = lower (trimStart cs) := by
  have hblank : isBlank ∘ Char.toLower = isBlank := funext isBlank_toLower
  rw [trimStart, lower, List.dropWhile_map, hblank]
  rfl

theorem trimEnd_lower (cs : List Char) : trimEnd (lower cs) = lower (trimEnd cs) := by
  have hreverse : (lower cs).reverse = lower cs.reverse := List.map_reverse.symm
  rw [trimEnd, hreverse, trimStart_lower, lower, ← List.map_reverse]
  rfl

theorem trim_lower (cs : List Char) : trim (lower cs) = lower (trim cs) := by
  rw [trim, trimStart_lower, trimEnd_lower, trim]

theorem splitFirst?_lower {separator : Char} (hs : separator.toNat < 65 ∨ 122 < separator.toNat)
    (cs : List Char) :
    splitFirst? separator (lower cs) = (splitFirst? separator cs).map (Prod.map lower lower) := by
  induction cs with
  | nil => rfl
  | cons c cs ih =>
    rw [lower_cons, splitFirst?, splitFirst?]
    simp only [toLower_eq_iff hs]
    split
    · rfl
    · rw [ih, Option.map_map, Option.map_map]
      rfl

theorem splitOn_lower {separator : Char} (hs : separator.toNat < 65 ∨ 122 < separator.toNat)
    (cs : List Char) : splitOn separator (lower cs) = (splitOn separator cs).map lower := by
  induction cs with
  | nil => rfl
  | cons c cs ih =>
    rw [lower_cons, splitOn, splitOn, ih]
    simp only [toLower_eq_iff hs]
    split
    · rfl
    · cases splitOn separator cs <;> rfl

end SignalEvolution.Text

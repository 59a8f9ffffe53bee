import SignalEvolution.Digest.Sha256
import SignalEvolution.Gene

/-! # Hexadecimal identities

A number that fits its width is written with exactly that many digits, so that random words
and digests are valid identities.
-/
namespace SignalEvolution

variable {width n : Nat}

namespace Text

theorem isHexChar_of_mem_toDigits {c : Char} (h : c ∈ Nat.toDigits 16 n) : Gene.isHexChar c = true := by
  have hdigit : ∀ d < 16, Gene.isHexChar (Nat.digitChar d) = true := by decide
  induction n using Nat.strongRecOn with
  | ind n ih =>
    rw [Nat.toDigits_eq_if (by decide)] at h
    split at h
    · next hn =>
      rw [List.mem_singleton.mp h]
      exact hdigit n hn
    · next hn =>
      rcases List.mem_append.mp h with h | h
      · exact ih (n / 16) (by omega) h
      · rw [List.mem_singleton.mp h]
        exact hdigit (n % 16) (Nat.mod_lt n (by decide))

theorem isHexChar_of_mem_hex {c : Char} (h : c ∈ hex width n) : Gene.isHexChar c = true := by
  rcases List.mem_append.mp h with h | h
  · rw [List.eq_of_mem_replicate h]
    rfl
  · exact isHexChar_of_mem_toDigits h

theorem length_hex (hwidth : 0 < width) (h : n < Nat.pow 16 width) : (hex width n).length = width := by
  have hle := (Nat.length_toDigits_le_iff (b := 16) (by decide) hwidth).mpr h
  simp only [hex, List.length_append, List.length_replicate]
  omega

end Text

namespace Gene

theorem isValidId_iff {id : String} : isValidId id = true ↔ id.toList.length = 16 ∧
    ∀ c ∈ id.toList, ('0' ≤ c ∧ c ≤ '9') ∨ ('a' ≤ c ∧ c ≤ 'f') := by
  have hchar : ∀ c, isHexChar c = true ↔ ('0' ≤ c ∧ c ≤ '9') ∨ ('a' ≤ c ∧ c ≤ 'f') := by
    intro c
    simp only [isHexChar, Char.isDigit, Bool.or_eq_true, Bool.and_eq_true, decide_eq_true_eq]
    -- what is left compares characters by their code points on both sides
    exact Iff.rfl
  simp only [isValidId, Bool.and_eq_true, beq_iff_eq, List.all_eq_true, hchar]

theorem isValidId_ofList {cs : List Char} (hlength : cs.length = 16) (hcs : ∀ c ∈ cs, isHexChar c = true) :
    isValidId (String.ofList cs) = true := by
  rw [isValidId, String.toList_ofList, hlength]
  exact List.all_eq_true.mpr hcs

theorem isValidId_hexWord (w : UInt64) : isValidId (Text.hexWord w) = true :=
  isValidId_ofList (Text.length_hex (by decide) w.toNat_lt) fun _ hc => Text.isHexChar_of_mem_hex hc

theorem isValidId_shortDigest (s : String) : isValidId (Sha256.shortDigest s) = true := by
  apply isValidId_ofList
  · rw [List.length_append, Text.length_hex (by decide) (UInt32.toNat_lt _),
      Text.length_hex (by decide) (UInt32.toNat_lt _)]
  · intro c hc
    rcases List.mem_append.mp hc with hc | hc
    · exact Text.isHexChar_of_mem_hex hc
    · exact Text.isHexChar_of_mem_hex hc

end Gene
end SignalEvolution

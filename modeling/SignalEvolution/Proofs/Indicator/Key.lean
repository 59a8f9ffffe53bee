import SignalEvolution.Proofs.Formula.Unambiguity
import SignalEvolution.Proofs.Indicator.Names
import SignalEvolution.Proofs.Indicator.Parameters

/-! # Keys of readings

A key shows the values that a reading uses and then all other stored parameters, whose names
may be any text. No number has a comma in its text, so the values in front are found again, and
a feed that supplies a reading under its key supplies it for every table that would give it.
-/
namespace SignalEvolution.Indicator
open Formula

variable {name : String} {i : Indicator} {p q : Table Float}

section
variable {α : Type} [Scalar α] {p q : Table α}

theorem lookback_congr (h : ∀ spec ∈ i.specs, spec.value p = spec.value q) :
    i.lookback p = i.lookback q := by
  cases i <;> simp_all [specs, lookback, ParamSpec.bars]

theorem reading?_congr (h : ∀ spec ∈ i.specs, spec.value p = spec.value q) (bars : List (Bar α)) :
    i.reading? p bars = i.reading? q bars := by
  cases i <;> simp_all [specs, reading?, band?, ParamSpec.bars]

end

theorem value_eq_of_readingKey (h : readingKey name p = readingKey name q) :
    ∀ spec ∈ specsOf name, spec.value p = spec.value q := by
  intro spec hspec
  have hsound : spec.Sound := by
    rw [specsOf] at hspec
    split at hspec
    · exact specs_sound hspec
    · cases hspec
  exact hsound.value_eq_of_text (numberText_of_callText h spec hspec)

/-- The key of a reading determines it: tables with the same key, whatever values and names they
hold, have the same reading in every context, whether it is supplied or computed. They need
equally many bars and have the same readings of all bars. -/
theorem reading_of_key (p q : Table Float) :
    (∀ name, readingKey name p = readingKey name q →
      ∀ c, readingNamed name p c = readingNamed name q c) ∧
    (∀ i : Indicator, i.key p = i.key q →
      (∀ c, i.readingIn p c = i.readingIn q c) ∧ i.lookback p = i.lookback q ∧
        ∀ bars, i.reading? p bars = i.reading? q bars) := by
  have hnamed : ∀ name, readingKey name p = readingKey name q →
      ∀ c, readingNamed name p c = readingNamed name q c := by
    intro name hkey c
    rw [readingNamed, readingNamed, suppliedIn?_eq, suppliedIn?_eq, hkey]
    cases c.supplied? (readingKey name q) with
    | some x => rfl
    | none =>
      cases hfind : find? name.toList with
      | none => rfl
      | some i =>
        have hvalues := value_eq_of_readingKey hkey
        rw [specsOf, hfind] at hvalues
        simp only [lookback_congr hvalues, reading?_congr hvalues]
  refine ⟨hnamed, ?_⟩
  intro i hkey
  rw [← readingKey_mnemonic, ← readingKey_mnemonic] at hkey
  have hvalues := value_eq_of_readingKey hkey
  rw [specsOf_mnemonic] at hvalues
  exact ⟨hnamed i.mnemonic hkey, lookback_congr hvalues, reading?_congr hvalues⟩

/-- An average over 500 bars is one over 200. -/
theorem reading_of_key_clamped :
    (readingKey "sma" (Table.ofList [("period", 500), ("a,b", 1)]) =
      readingKey "sma" (Table.ofList [("period", 200.4), ("a,b", 1)]) ∧
    ∀ c, readingNamed "sma" (Table.ofList [("period", 500), ("a,b", 1)]) c =
      readingNamed "sma" (Table.ofList [("period", 200.4), ("a,b", 1)]) c) ∧
    simpleAverage.key (Table.ofList [("period", 500), ("a,b", 1)]) =
      simpleAverage.key (Table.ofList [("period", 200.4), ("a,b", 1)]) ∧
    ∀ c, simpleAverage.readingIn (Table.ofList [("period", 500), ("a,b", 1)]) c =
      simpleAverage.readingIn (Table.ofList [("period", 200.4), ("a,b", 1)]) c := by
  obtain ⟨hnamed, hreading⟩ := reading_of_key (Table.ofList [("period", 500), ("a,b", 1)])
    (Table.ofList [("period", 200.4), ("a,b", 1)])
  have hname : readingKey "sma" (Table.ofList [("period", 500), ("a,b", 1)]) =
      readingKey "sma" (Table.ofList [("period", 200.4), ("a,b", 1)]) := by
    decide +kernel
  have hkey : simpleAverage.key (Table.ofList [("period", 500), ("a,b", 1)]) =
      simpleAverage.key (Table.ofList [("period", 200.4), ("a,b", 1)]) := by
    decide +kernel
  exact ⟨⟨hname, hnamed "sma" hname⟩, hkey, (hreading simpleAverage hkey).1⟩

end SignalEvolution.Indicator

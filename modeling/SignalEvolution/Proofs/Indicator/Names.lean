import SignalEvolution.Tree.Evaluation

/-! # Names of indicators

A kind stores an indicator by name. Under the name that the catalogue has for it an indicator is
found again, and checked construction leaves no other name.
-/
namespace SignalEvolution
namespace Indicator

variable {i j : Indicator} {params : Table Float}

theorem find?_mnemonic (i : Indicator) : find? i.mnemonic.toList = some i := by
  cases i <;> decide

theorem mnemonic_inj (h : i.mnemonic = j.mnemonic) : i = j := by
  have hi := find?_mnemonic i
  rw [h, find?_mnemonic] at hi
  exact (Option.some.inj hi).symm

theorem specsOf_mnemonic (i : Indicator) : specsOf i.mnemonic = i.specs := by
  rw [specsOf, find?_mnemonic]

theorem readingKey_mnemonic (i : Indicator) (params : Table Float) :
    readingKey i.mnemonic params = i.key params := by
  rw [readingKey, specsOf_mnemonic, key]

theorem formulaCall_mnemonic (i : Indicator) (params : Table Float) :
    formulaCall i.mnemonic params = callText i.mnemonic i.specs params fun s => s.stored params := by
  rw [formulaCall, specsOf_mnemonic]

theorem readingIn_eq (i : Indicator) (params : Table Float) (c : Context) :
    i.readingIn params c = (c.supplied? (i.key params)).getD
      (if c.bars.length < i.lookback params then c.current.close
        else (i.reading? params c.bars).getD c.current.close) := by
  rw [readingIn, readingNamed, suppliedIn?_eq, readingKey_mnemonic, find?_mnemonic]
  cases c.supplied? (i.key params) <;> rfl

end Indicator

namespace Kind

variable {k l : Kind}

/-- An indicator goes by the name that the catalogue has for it. -/
def Named : Kind → Prop
  | indicator name _ => ∃ i : Indicator, i.mnemonic = name
  | _ => True

theorem named_of_registered (h : k.registered = .ok l) : l.Named := by
  cases k with
  | indicator name params =>
    rw [registered] at h
    split at h
    · next i _ =>
      obtain rfl := Except.ok.inj h
      exact ⟨i, rfl⟩
    · cases h
  | _ =>
    obtain rfl := Except.ok.inj h
    trivial

end Kind
end SignalEvolution

import SignalEvolution.Proofs.Formula.Operand
import SignalEvolution.Proofs.Problem
import SignalEvolution.Record.Node

/-! # Kinds that records name

A record says by its type which of its fields names its kind. Symbols and series are named
between white space and indicators are not; comparators have no case, all other names are
read in any case.
-/
namespace SignalEvolution
open Text

variable {text : String}

namespace Operator

/-- The ways to write an operator, its words in capitals. -/
def spellings : Operator → List (List Char)
  | and => [['A', 'N', 'D'], ['&', '&']]
  | or => [['O', 'R'], ['|', '|']]
  | not => [['N', 'O', 'T'], ['!']]
  | add => [['+']]
  | sub => [['-'], ['−']]
  | mul => [['*'], ['×']]
  | div => [['/'], ['÷']]

def IsSpelled (text : String) (op : Operator) : Prop := upper (trim text.toList) ∈ op.spellings

theorem ofSymbol?_eq_some_iff {op : Operator} : ofSymbol? text = some op ↔ op.IsSpelled text := by
  unfold ofSymbol? IsSpelled
  generalize upper (trim text.toList) = cs
  constructor
  · intro h
    split at h
    case h_14 => cases h
    all_goals
      next hcs =>
        obtain rfl := Option.some.inj h
        rw [← String.toList_ofList (l := cs), hcs]
        decide
  · intro h
    cases op <;> simp only [spellings, List.mem_cons, List.not_mem_nil, or_false] at h
    case add => subst h; rfl
    all_goals rcases h with rfl | rfl <;> rfl

end Operator

namespace Comparator

def IsSpelled (text : String) (cmp : Comparator) : Prop :=
  trim text.toList ∈ Formula.spellings cmp

theorem ofSymbol?_eq_some_iff {cmp : Comparator} :
    ofSymbol? text = some cmp ↔ cmp.IsSpelled text := by
  unfold ofSymbol? IsSpelled
  generalize trim text.toList = cs
  constructor
  · intro h
    split at h
    case h_12 => cases h
    all_goals
      next hcs =>
        obtain rfl := Option.some.inj h
        rw [← String.toList_ofList (l := cs), hcs]
        decide
  · intro h
    cases cmp <;> simp only [Formula.spellings, List.mem_cons, List.not_mem_nil, or_false] at h
    case greater | less => subst h; rfl
    case different => rcases h with rfl | rfl | rfl <;> rfl
    all_goals rcases h with rfl | rfl <;> rfl

end Comparator

namespace Series

def IsNamed (text : String) (s : Series) : Prop := lower (trim text.toList) = s.name.toList

theorem ofName_eq_ok_iff {s : Series} : ofName text = .ok s ↔ s.IsNamed text := by
  have hfind : find? text.toList = some s ↔ s.IsNamed text :=
    ⟨Formula.series_find?_eq_some, Formula.series_find?_of_lower⟩
  rw [← hfind, ofName]
  cases find? text.toList <;> simp

end Series

namespace Indicator

def IsNamed (text : String) (i : Indicator) : Prop := lower text.toList = lower i.mnemonic.toList

theorem find?_eq_some_iff {i : Indicator} : find? text.toList = some i ↔ i.IsNamed text :=
  ⟨Formula.indicator_find?_eq_some, Formula.indicator_find?_of_lower⟩

end Indicator

theorem NodeType.ofName?_eq_some_iff {type : NodeType} : ofName? text = some type ↔ text = type.name := by
  constructor
  · intro h
    have hname := List.find?_some h
    exact (beq_iff_eq.mp hname).symm
  · rintro rfl
    cases type <;> decide

namespace NodeRecord

/-- The type of a record is a known one, and the field that the type needs names a kind. -/
inductive Names (r : NodeRecord) : Kind → Prop
  | operator {symbol op} : r.nodeType = "operator" → r.operator = some symbol →
      op.IsSpelled symbol → Names r (.operator op)
  | comparator {symbol cmp} : r.nodeType = "comparator" → r.operator = some symbol →
      cmp.IsSpelled symbol → Names r (.comparator cmp)
  /-- Parameters that are left out are none. -/
  | indicator {name : String} {i : Indicator} : r.nodeType = "indicator" → r.name = some name → i.IsNamed name →
      Names r (.indicator i.mnemonic (r.params.getD Table.empty))
  | constant {x} : r.nodeType = "constant" → r.value = some x → Names r (.constant x)
  | series {name s} : r.nodeType = "variable" → r.name = some name → s.IsNamed name →
      Names r (.series s)

variable {r : NodeRecord} {k : Kind} {α : Type} {a : α} {o : Option α} {field : Option String}
variable {name symbol : String} {type : NodeType} {params : Table Float}

theorem Names.nodeType (h : r.Names k) : r.nodeType = k.nodeType.name := by
  cases h <;> assumption

theorem required_eq_ok_iff : required field name = .ok text ↔ field = some text := by
  cases field <;> simp [required]

theorem known_eq_ok_iff : known symbol o = .ok a ↔ o = some a := by
  cases o <;> simp [known]

theorem typeOf_eq_ok_iff : typeOf text = .ok type ↔ text = type.name := by
  rw [← NodeType.ofName?_eq_some_iff, typeOf]
  cases NodeType.ofName? text <;> simp

theorem registered_indicator_iff : (Kind.indicator name params).registered = .ok k ↔
    ∃ i : Indicator, i.IsNamed name ∧ k = .indicator i.mnemonic params := by
  simp only [← Indicator.find?_eq_some_iff, Kind.registered]
  cases Indicator.find? name.toList <;> simp [eq_comm]

/-- The kind that is read off a record and registered is the one it names. -/
theorem names_iff : r.Names k ↔ ∃ type, typeOf r.nodeType = .ok type ∧
    ∃ l, kindOf type r.operator r.name r.params r.value = .ok l ∧ l.registered = .ok k := by
  simp only [typeOf_eq_ok_iff]
  constructor
  · rintro (⟨htype, hsymbol, hop⟩ | ⟨htype, hsymbol, hcmp⟩ | ⟨htype, hname, hi⟩ | ⟨htype, hvalue⟩ |
      ⟨htype, hname, hs⟩)
    · refine ⟨.operator, htype, .operator _, bind_of_ok (required_eq_ok_iff.mpr hsymbol) ?_, rfl⟩
      exact bind_of_ok (known_eq_ok_iff.mpr (Operator.ofSymbol?_eq_some_iff.mpr hop)) rfl
    · refine ⟨.comparator, htype, .comparator _, bind_of_ok (required_eq_ok_iff.mpr hsymbol) ?_, rfl⟩
      exact bind_of_ok (known_eq_ok_iff.mpr (Comparator.ofSymbol?_eq_some_iff.mpr hcmp)) rfl
    · exact ⟨.indicator, htype, _, bind_of_ok (required_eq_ok_iff.mpr hname) rfl,
        registered_indicator_iff.mpr ⟨_, hi, rfl⟩⟩
    · refine ⟨.constant, htype, .constant _, ?_, rfl⟩
      rw [hvalue, kindOf]
    · refine ⟨.series, htype, .series _, bind_of_ok (required_eq_ok_iff.mpr hname) ?_, rfl⟩
      exact bind_of_ok (Series.ofName_eq_ok_iff.mpr hs) rfl
  · rintro ⟨type, htype, l, h, hregistered⟩
    cases type with
    | operator =>
      obtain ⟨symbol, hsymbol, h⟩ := bind_eq_ok h
      obtain ⟨op, hop, h⟩ := bind_eq_ok h
      obtain rfl := Except.ok.inj h
      obtain rfl := Except.ok.inj hregistered
      rw [known_eq_ok_iff, Operator.ofSymbol?_eq_some_iff] at hop
      exact .operator htype (required_eq_ok_iff.mp hsymbol) hop
    | comparator =>
      obtain ⟨symbol, hsymbol, h⟩ := bind_eq_ok h
      obtain ⟨cmp, hcmp, h⟩ := bind_eq_ok h
      obtain rfl := Except.ok.inj h
      obtain rfl := Except.ok.inj hregistered
      rw [known_eq_ok_iff, Comparator.ofSymbol?_eq_some_iff] at hcmp
      exact .comparator htype (required_eq_ok_iff.mp hsymbol) hcmp
    | indicator =>
      obtain ⟨name, hname, h⟩ := bind_eq_ok h
      obtain rfl := Except.ok.inj h
      obtain ⟨i, hi, rfl⟩ := registered_indicator_iff.mp hregistered
      exact .indicator htype (required_eq_ok_iff.mp hname) hi
    | constant =>
      cases hvalue : r.value with
      | none =>
        rw [hvalue] at h
        cases h
      | some x =>
        rw [hvalue] at h
        obtain rfl := Except.ok.inj h
        obtain rfl := Except.ok.inj hregistered
        exact .constant htype hvalue
    | series =>
      obtain ⟨name, hname, h⟩ := bind_eq_ok h
      obtain ⟨s, hs, h⟩ := bind_eq_ok h
      obtain rfl := Except.ok.inj h
      obtain rfl := Except.ok.inj hregistered
      exact .series htype (required_eq_ok_iff.mp hname) (Series.ofName_eq_ok_iff.mp hs)

end NodeRecord
end SignalEvolution

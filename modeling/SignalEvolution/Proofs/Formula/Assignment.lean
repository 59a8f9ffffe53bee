import SignalEvolution.Proofs.Formula.Call

/-! # Assignments to parameters

An assignment gives some of the parameters of an indicator a number. A call writes it with keys,
in any case and any order, or by position where it gives the first parameters. All these texts are
read as one and the same indicator, in which every declared parameter has its assigned number or
else its default, and no other is stored.
-/
namespace SignalEvolution.Formula
open Text Decimal

variable {i : Indicator} {assigned : Table Float} {position : Nat} {cs inner : List Char}
variable {args : List (List Char)} {setting : String × Float} {settings : List (String × Float)}

/-- `key=value` with the key in any case and white space around both. -/
inductive WithKey : String × Float → List Char → Prop
  | mk {l key before after value r name x} : Blank l → Blank before → Blank after → Blank r →
      lower key = lower name.toList → finite? value = some x →
      WithKey (name, x) (l ++ (key ++ before ++ '=' :: (after ++ value)) ++ r)

/-- The number alone with white space around it. -/
inductive ByPosition : String × Float → List Char → Prop
  | mk {l value r name x} : Blank l → Blank r → finite? value = some x →
      ByPosition (name, x) (l ++ value ++ r)

/-- `NAME(args)` with white space before and after the opening parenthesis. -/
def callWith (name gap inner : List Char) (args : List (List Char)) : List Char :=
  name ++ gap ++ '(' :: (inner ++ [','].intercalate args ++ [')'])

/-- The assignment gives only declared parameters a number. -/
def Assigns (i : Indicator) (assigned : Table Float) : Prop :=
  ∀ e ∈ assigned.entries, ∃ s ∈ (i.specs (α := Float)), s.name = e.1

/-- Every declared parameter with its assigned number, or else with its default. -/
def completed (i : Indicator) (assigned : Table Float) : Table Float :=
  Table.ofList (i.specs.map fun s => (s.name, s.stored assigned))

theorem specName_spec {s : ParamSpec Float} (h : s ∈ i.specs) :
    lower s.name.toList = s.name.toList ∧ ∀ c ∈ s.name.toList, isWordChar c = true := by
  have hall : ∀ i : Indicator, ∀ s ∈ (i.specs (α := Float)),
      lower s.name.toList = s.name.toList ∧ ∀ c ∈ s.name.toList, isWordChar c = true := by
    intro i
    cases i <;> decide
  exact hall i s h

theorem clear_of_wordChars {key before : List Char} (hw : ∀ c ∈ key, isWordChar c = true) (hb : Blank before) :
    ∀ c ∈ key ++ before, c ≠ '(' ∧ c ≠ ')' ∧ c ≠ ',' ∧ c ≠ '=' := by
  intro c hc
  have hmarks : ∀ d ∈ ['(', ')', ',', '='], isWordChar d = false ∧ isBlank d = false := by decide
  have hne : ∀ d ∈ ['(', ')', ',', '='], c ≠ d := by
    rintro d hd rfl
    obtain ⟨hword, hblank⟩ := hmarks c hd
    rcases List.mem_append.mp hc with hc | hc
    · exact Bool.false_ne_true (hword.symm.trans (hw c hc))
    · exact Bool.false_ne_true (hblank.symm.trans (hb c hc))
  simpa using hne

theorem WithKey.isArgument (h : WithKey setting cs) (hs : ∃ s ∈ (i.specs (α := Float)), s.name = setting.1)
    (position : Nat) : IsArgument i position cs setting := by
  cases h with
  | @mk l key before after value r name x hl hbefore hafter hr hkey hx =>
    obtain ⟨s, hs, rfl⟩ := hs
    obtain ⟨hlower, hword⟩ := specName_spec hs
    have hw : ∀ c ∈ key, isWordChar c = true := wordChars_of_lower (by rwa [hkey, hlower])
    have htrim : trim (key ++ before) = key := by
      have hpad := trim_append blank_nil hbefore key
      rwa [List.nil_append, trim_of_trimmed (trimmed_of_wordChars hw)] at hpad
    have harg : IsArgument i position (key ++ before ++ '=' :: (after ++ value)) _ :=
      .keyed (clear_of_wordChars hw hbefore) hafter hx
    rw [htrim, hkey, hlower, String.ofList_toList] at harg
    exact .padded hl hr harg

theorem ByPosition.isArgument {spec : ParamSpec Float} (h : ByPosition setting cs)
    (hspec : i.specs[position]? = some spec) (hname : spec.name = setting.1) :
    IsArgument i position cs setting := by
  cases h with
  | mk hl hr hx =>
    obtain rfl := hname
    exact .padded hl hr (.positional hx hspec)

theorem listed_withKey (h : List.Forall₂ WithKey settings args)
    (hs : ∀ e ∈ settings, ∃ s ∈ (i.specs (α := Float)), s.name = e.1) (position : Nat) :
    Listed i position args settings := by
  induction h generalizing position with
  | nil => exact .nil
  | cons h _ ih =>
    obtain ⟨hfirst, hrest⟩ := List.forall_mem_cons.mp hs
    exact .cons (h.isArgument hfirst position) (ih hrest (position + 1))

/-- The first parameters that are not yet given are those from the position on. -/
theorem listed_byPosition (h : List.Forall₂ ByPosition settings args)
    (hs : settings.map Prod.fst <+: ((i.specs (α := Float)).drop position).map ParamSpec.name) :
    Listed i position args settings := by
  induction h generalizing position with
  | nil => exact .nil
  | @cons setting arg settings args h _ ih =>
    cases hdrop : (i.specs (α := Float)).drop position with
    | nil =>
      rw [hdrop, List.map_cons, List.map_nil, List.prefix_nil] at hs
      cases hs
    | cons spec specs =>
      rw [hdrop, List.map_cons, List.map_cons, List.cons_prefix_cons] at hs
      have hspec : i.specs[position]? = some spec := by
        rw [← List.head?_drop, hdrop]
        rfl
      have hnext : (i.specs (α := Float)).drop (position + 1) = specs := by
        rw [← List.tail_drop, hdrop]
        rfl
      exact .cons (h.isArgument hspec hs.1.symm) (ih (by rw [hnext]; exact hs.2))

theorem IsArgument.padStart (hinner : Blank inner) (h : IsArgument i position cs setting) :
    IsArgument i position (inner ++ cs) setting := by
  have hpad := IsArgument.padded hinner blank_nil h
  rwa [List.append_nil] at hpad

theorem IsArguments.padStart (hinner : Blank inner) (h : IsArguments i cs settings) :
    IsArguments i (inner ++ cs) settings := by
  cases h with
  | none h => exact .none (hinner.append h)
  | some h =>
    cases h with
    | one h => exact .some (.one (h.padStart hinner))
    | more h hrest =>
      have hlist := IsArgumentList.more (h.padStart hinner) hrest
      rw [List.append_assoc] at hlist
      exact .some hlist

theorem find?_withDefaults (i : Indicator) (assigned : Table Float) (k : String) :
    (withDefaults i assigned).find? k =
      (assigned.find? k).or (Entries.find? k (i.specs.map fun s => (s.name, s.default))) := by
  rw [withDefaults]
  generalize (i.specs (α := Float)) = specs
  induction specs generalizing assigned with
  | nil => exact Option.or_none.symm
  | cons s specs ih =>
    rw [List.foldl_cons, ih, Table.find?_insertNew, Option.or_assoc, List.map_cons, Entries.find?]
    by_cases hk : s.name = k
    · rw [if_pos hk, if_pos hk.symm, Option.some_or]
    · rw [if_neg hk, if_neg (Ne.symm hk), Option.none_or]

theorem find?_completed (i : Indicator) (assigned : Table Float) (k : String) :
    (completed i assigned).find? k = Entries.find? k (i.specs.map fun s => (s.name, s.stored assigned)) := by
  apply Table.find?_ofList
  rw [List.map_map]
  exact specNames_nodup i

theorem withDefaults_eq_completed (h : Assigns i assigned) : withDefaults i assigned = completed i assigned := by
  apply Table.ext_find?
  intro k
  rw [find?_withDefaults, find?_completed]
  have hassigned : ∀ x, assigned.find? k = some x → ∃ s ∈ (i.specs (α := Float)), s.name = k := fun x hx =>
    h (k, x) (Table.find?_eq_some_iff.mp hx)
  generalize (i.specs (α := Float)) = specs at hassigned
  induction specs with
  | nil =>
    cases hk : assigned.find? k with
    | none => rfl
    | some x => simpa using hassigned x hk
  | cons s specs ih =>
    rw [List.map_cons, List.map_cons, Entries.find?, Entries.find?]
    by_cases hname : s.name = k
    · rw [if_pos hname, if_pos hname, ParamSpec.stored, hname]
      cases assigned.find? k <;> rfl
    · rw [if_neg hname, if_neg hname]
      apply ih
      intro x hx
      obtain ⟨other, hother, heq⟩ := hassigned x hx
      rcases List.mem_cons.mp hother with rfl | hother
      · exact absurd heq hname
      · exact ⟨other, hother, heq⟩

theorem operand_callWith (mode : Mode) {name gap : List Char} (hassigns : Assigns i assigned)
    (horder : settings.Perm assigned.entries) (hname : lower name = lower i.mnemonic.toList)
    (hgap : Blank gap) (hinner : Blank inner) (h : Listed i 0 args settings) :
    operand mode (callWith name gap inner args) = .ok (Tree.indicator i (completed i assigned)) := by
  have hoperand := IsOperand.call hname hgap (h.isArguments.padStart hinner)
  rw [callParams, Table.ofList_perm horder, withDefaults_eq_completed hassigns] at hoperand
  exact operand_of_isOperand hoperand

/-- An assignment is read from its texts with keys, whatever the order, and from its text by
position, if it gives the first parameters. What is read depends on the assignment alone. -/
theorem operand_of_assignment (mode : Mode) {name gap : List Char} (hassigns : Assigns i assigned)
    (horder : settings.Perm assigned.entries) (hname : lower name = lower i.mnemonic.toList)
    (hgap : Blank gap) (hinner : Blank inner) :
    (List.Forall₂ WithKey settings args →
      operand mode (callWith name gap inner args) = .ok (Tree.indicator i (completed i assigned))) ∧
    (settings.map Prod.fst <+: (i.specs (α := Float)).map ParamSpec.name →
      List.Forall₂ ByPosition settings args →
      operand mode (callWith name gap inner args) = .ok (Tree.indicator i (completed i assigned))) := by
  have hsettings : ∀ e ∈ settings, ∃ s ∈ (i.specs (α := Float)), s.name = e.1 := fun e he =>
    hassigns e (horder.mem_iff.mp he)
  constructor
  · intro hkeys
    exact operand_callWith mode hassigns horder hname hgap hinner (listed_withKey hkeys hsettings 0)
  · intro hfirst hvalues
    exact operand_callWith mode hassigns horder hname hgap hinner (listed_byPosition hvalues hfirst)

/-- Two parameters with keys in the wrong order, and the first of them alone by position. -/
theorem operand_of_assignment_swapped :
    (Assigns .averageDivergence (Table.ofList [("fast", 5), ("slow", 30)]) ∧
      [("slow", (30 : Float)), ("fast", 5)].Perm (Table.ofList [("fast", (5 : Float)), ("slow", 30)]).entries ∧
      List.Forall₂ WithKey [("slow", 30), ("fast", 5)] [" SLOW = 30".toList, "Fast=5 ".toList] ∧
      operand .strict "macd ( SLOW = 30,Fast=5 )".toList =
        .ok (Tree.indicator .averageDivergence (Table.ofList [("fast", 5), ("slow", 30)]))) ∧
    Assigns .averageDivergence (Table.ofList [("fast", 5)]) ∧
      List.Forall₂ ByPosition [("fast", 5)] ["5".toList] ∧
      operand .lenient "MACD(5)".toList =
        .ok (Tree.indicator .averageDivergence (Table.ofList [("fast", 5), ("slow", 26)])) := by
  have hboth : Assigns .averageDivergence (Table.ofList [("fast", 5), ("slow", 30)]) := by
    unfold Assigns
    decide
  have hfirst : Assigns .averageDivergence (Table.ofList [("fast", 5)]) := by
    unfold Assigns
    decide
  have hswap : [("slow", (30 : Float)), ("fast", 5)].Perm
      (Table.ofList [("fast", (5 : Float)), ("slow", 30)]).entries := by decide
  have hslow : WithKey ("slow", 30) ([' '] ++ ("SLOW".toList ++ [' '] ++ '=' :: ([' '] ++ "30".toList)) ++ []) :=
    .mk (by decide) (by decide) (by decide) (by decide) (by decide) (by decide +kernel)
  have hfast : WithKey ("fast", 5) ([] ++ ("Fast".toList ++ [] ++ '=' :: ([] ++ "5".toList)) ++ [' ']) :=
    .mk (by decide) (by decide) (by decide) (by decide) (by decide) (by decide +kernel)
  have hfive : ByPosition ("fast", 5) ([] ++ "5".toList ++ []) := .mk (by decide) (by decide) (by decide +kernel)
  have hkeys : List.Forall₂ WithKey [("slow", 30), ("fast", 5)] [" SLOW = 30".toList, "Fast=5 ".toList] :=
    .cons hslow (.cons hfast .nil)
  have hvalues : List.Forall₂ ByPosition [("fast", 5)] ["5".toList] := .cons hfive .nil
  have hname : lower "macd".toList = lower Indicator.averageDivergence.mnemonic.toList := by decide
  have hname' : lower "MACD".toList = lower Indicator.averageDivergence.mnemonic.toList := rfl
  have hspace : Blank [' '] := by decide
  have hswapped := (operand_of_assignment .strict hboth hswap hname hspace blank_nil).1 hkeys
  have hprefix := (operand_of_assignment .lenient hfirst (List.Perm.refl _) hname' blank_nil blank_nil).2
    (by decide) hvalues
  exact ⟨⟨hboth, hswap, hkeys, hswapped⟩, hfirst, hvalues, hprefix⟩

end SignalEvolution.Formula

import SignalEvolution.Proofs.Arithmetic.RoundTrip
import SignalEvolution.Proofs.Formula.Operand
import SignalEvolution.Proofs.Table

/-! # Calls read back from their text

A call shows the declared parameters by position and the other stored ones under their
keys. Where all of them are finite the reader stores equal numbers under the same keys.
-/
namespace SignalEvolution.Formula
open Text Decimal Binary

/-- Argument texts with their settings, the first of them at the given position. -/
inductive Listed (i : Indicator) : Nat → List (List Char) → List (String × Float) → Prop
  | nil {position} : Listed i position [] []
  | cons {position cs args setting settings} : IsArgument i position cs setting →
      Listed i (position + 1) args settings → Listed i position (cs :: args) (setting :: settings)

variable {i : Indicator} {position : Nat} {cs : List Char} {args : List (List Char)} {x y : Float}
variable {key : String} {params : Table Float} {setting : String × Float}
variable {settings entries : List (String × Float)} {specs : List (ParamSpec Float)}

theorem numberText_cases (x : Float) : (∃ y, finite? (numberText x).toList = some y) ∨
    (numberText x).toList ∈ ["NaN".toList, "inf".toList, "-inf".toList] := by
  cases hx : x.isFinite with
  | true =>
    obtain ⟨y, hy, _⟩ := finite?_numberText hx
    exact .inl ⟨y, hy⟩
  | false =>
    right
    have hwhole : isWhole x = false := by
      rw [isWhole, hx]
      rfl
    rw [numberText, hwhole, Bool.false_and, if_neg Bool.false_ne_true, plain, write]
    split
    · decide
    · rw [hx, if_neg Bool.false_ne_true]
      split <;> decide

/-- What the reader relies on about the text of any number. -/
theorem numberText_spec (x : Float) : (numberText x).toList ≠ [] ∧ ∀ c ∈ (numberText x).toList,
    isBlank c = false ∧ isSign c = false ∧ c ≠ '(' ∧ c ≠ ')' ∧ c ≠ ',' ∧ c ≠ '=' := by
  rcases numberText_cases x with ⟨y, hy⟩ | hmem
  · have hsub := finite?_subset hy
    have hsign : ∀ c ∈ numerals, isSign c = false := by decide
    refine ⟨hsub.1, fun c hc => ?_⟩
    obtain ⟨hblank, hrest⟩ := numerals_spec c (hsub.2 hc)
    exact ⟨hblank, hsign c (hsub.2 hc), hrest⟩
  · generalize (numberText x).toList = text at hmem
    revert text
    decide

theorem inert_numberText (x : Float) : Inert (numberText x).toList := by
  rcases numberText_cases x with ⟨y, hy⟩ | hmem
  · exact inert_of_finite? hy
  have hnan : Inert "NaN".toList := inert_of_wordChars (by decide) (by decide) (by decide)
  have hinf : Inert "inf".toList := inert_of_wordChars (by decide) (by decide) (by decide)
  simp only [List.mem_cons, List.not_mem_nil, or_false] at hmem
  rcases hmem with h | h | h
  · exact h ▸ hnan
  · exact h ▸ hinf
  rw [h]
  have hminus : "-inf".toList = ['-'] ++ "inf".toList := rfl
  have hflat : Flat "-inf".toList := by decide
  refine ⟨hflat.balanced, fun keyword hk => ?_, signless_of_forall (by decide), ?_⟩
  · have hkey := isKeyword_of_mem hk
    rw [hminus, unbroken_append_iff hkey rfl (apart_of_back (by decide))]
    exact ⟨unbroken_of_not_wordChars hkey (by decide), hinf.unbroken keyword hk⟩
  · rw [strip_of_flat ⟨by decide, by decide⟩ hflat]
    decide

/-- An equal number under the same key. -/
def Matches (e f : String × Float) : Prop := e.1 = f.1 ∧ (e.2 == f.2) = true

/-- A key that the reader stores as it stands. -/
structure PlainKey (key : String) : Prop where
  trimmed : Trimmed key.toList
  lowered : lower key.toList = key.toList
  clear : ∀ c ∈ key.toList, c ≠ '(' ∧ c ≠ ')' ∧ c ≠ ',' ∧ c ≠ '='

theorem isArgument_positional {spec : ParamSpec Float} (hspec : i.specs[position]? = some spec)
    (hx : x.isFinite = true) : ∃ setting, IsArgument i position (numberText x).toList setting ∧
      Matches setting (spec.name, x) := by
  obtain ⟨y, hy, hyx⟩ := finite?_numberText hx
  exact ⟨(spec.name, y), .positional hy hspec, rfl, hyx⟩

theorem isArgument_keyed (i : Indicator) (position : Nat) (hkey : PlainKey key) (hx : x.isFinite = true) :
    ∃ setting, IsArgument i position (key ++ "=" ++ numberText x).toList setting ∧
      Matches setting (key, x) := by
  obtain ⟨y, hy, hyx⟩ := finite?_numberText hx
  have harg : IsArgument i position (key.toList ++ '=' :: ([] ++ (numberText x).toList)) _ :=
    .keyed hkey.clear blank_nil hy
  rw [trim_of_trimmed hkey.trimmed, hkey.lowered, String.ofList_toList] at harg
  have htext : (key ++ "=" ++ numberText x).toList = key.toList ++ '=' :: ([] ++ (numberText x).toList) := by
    simp
  exact ⟨(key, y), htext ▸ harg, rfl, hyx⟩

theorem Listed.isArgumentList (h : Listed i position args settings) (hne : args ≠ []) :
    IsArgumentList i position ([','].intercalate args) settings := by
  induction h with
  | nil => exact absurd rfl hne
  | cons harg hrest ih =>
    cases hrest with
    | nil =>
      rw [List.intercalate_singleton]
      exact .one harg
    | cons hnext htail =>
      rw [List.intercalate_cons_cons, List.append_assoc]
      exact .more harg (ih (by simp))

theorem Listed.isArguments (h : Listed i 0 args settings) :
    IsArguments i ([','].intercalate args) settings := by
  by_cases hne : args = []
  · subst hne
    cases h
    exact .none blank_nil
  · exact .some (h.isArgumentList hne)

theorem listed_keyed (i : Indicator) (position : Nat) (hkeys : ∀ e ∈ entries, PlainKey e.1)
    (hfinite : ∀ e ∈ entries, e.2.isFinite = true) :
    ∃ settings, Listed i position (entries.map fun e => (e.1 ++ "=" ++ numberText e.2).toList) settings ∧
      List.Forall₂ Matches settings entries := by
  induction entries generalizing position with
  | nil => exact ⟨[], .nil, .nil⟩
  | cons e entries ih =>
    obtain ⟨hkey, hkeys⟩ := List.forall_mem_cons.mp hkeys
    obtain ⟨hx, hfinite⟩ := List.forall_mem_cons.mp hfinite
    obtain ⟨settings, hlist, hmatch⟩ := ih (position + 1) hkeys hfinite
    obtain ⟨setting, harg, hm⟩ := isArgument_keyed i position hkey hx
    exact ⟨setting :: settings, .cons harg hlist, .cons hm hmatch⟩

/-- The declared parameters from a position on, and after them the others. -/
theorem listed_call (hspecs : i.specs.drop position = specs) (hkeys : ∀ e ∈ entries, PlainKey e.1)
    (hstored : ∀ s ∈ specs, (s.stored params).isFinite = true)
    (hfinite : ∀ e ∈ entries, e.2.isFinite = true) :
    ∃ settings, Listed i position ((specs.map fun s => (numberText (s.stored params)).toList) ++
        entries.map fun e => (e.1 ++ "=" ++ numberText e.2).toList) settings ∧
      List.Forall₂ Matches settings ((specs.map fun s => (s.name, s.stored params)) ++ entries) := by
  induction specs generalizing position with
  | nil => exact listed_keyed i position hkeys hfinite
  | cons s specs ih =>
    obtain ⟨hx, hstored⟩ := List.forall_mem_cons.mp hstored
    have hspec : i.specs[position]? = some s := by
      rw [← List.head?_drop, hspecs]
      rfl
    have hdrop : i.specs.drop (position + 1) = specs := by
      rw [← List.tail_drop, hspecs]
      rfl
    obtain ⟨settings, hlist, hmatch⟩ := ih hdrop hstored
    obtain ⟨setting, harg, hm⟩ := isArgument_positional hspec hx
    exact ⟨setting :: settings, .cons harg hlist, .cons hm hmatch⟩

/-- The stored parameters that an indicator does not declare. -/
def others (i : Indicator) (params : Table Float) : List (String × Float) :=
  params.entries.filter fun e => !(i.specs (α := Float)).any fun s => s.name == e.1

/-- All declared parameters are stored, and the keys of the others are plain. -/
structure Tidy (i : Indicator) (params : Table Float) : Prop where
  declared : ∀ s ∈ (i.specs (α := Float)), params.contains s.name = true
  plain : ∀ e ∈ others i params, PlainKey e.1

theorem toList_call (name : String) (specs : List (ParamSpec Float)) (params : Table Float)
    (value : ParamSpec Float → Float) : (Indicator.callText name specs params value).toList =
      name.toList ++ '(' :: ([','].intercalate ((specs.map fun s => (numberText (value s)).toList) ++
        (params.entries.filter fun e => !specs.any fun s => s.name == e.1).map fun e =>
          (e.1 ++ "=" ++ numberText e.2).toList) ++ [')']) := by
  simp [Indicator.callText, Function.comp_def]

theorem toList_callText (i : Indicator) (params : Table Float) :
    (Indicator.callText i.mnemonic i.specs params fun s => s.stored params).toList =
      i.mnemonic.toList ++ [] ++ '(' :: ([','].intercalate
        (((i.specs (α := Float)).map fun s => (numberText (s.stored params)).toList) ++
          (others i params).map fun e => (e.1 ++ "=" ++ numberText e.2).toList) ++ [')']) := by
  rw [toList_call, List.append_nil]
  rfl

theorem withDefaults_of_contains (h : ∀ s ∈ (i.specs (α := Float)), params.contains s.name = true) :
    withDefaults i params = params := by
  unfold withDefaults
  generalize (i.specs (α := Float)) = specs at h
  induction specs with
  | nil => rfl
  | cons s specs ih =>
    obtain ⟨hs, hspecs⟩ := List.forall_mem_cons.mp h
    rw [List.foldl_cons, Table.insertNew_of_contains hs]
    exact ih hspecs

theorem specNames_nodup (i : Indicator) : ((i.specs (α := Float)).map ParamSpec.name).Nodup := by
  cases i <;> decide

theorem find?_stored {s : ParamSpec Float} (h : params.contains s.name = true) :
    params.find? s.name = some (s.stored params) := by
  obtain ⟨x, hx⟩ := Option.isSome_iff_exists.mp h
  rw [ParamSpec.stored, hx]
  rfl

theorem mem_others_iff : setting ∈ others i params ↔
    setting ∈ params.entries ∧ ∀ s ∈ (i.specs (α := Float)), s.name ≠ setting.1 := by
  rw [others, List.mem_filter]
  simp

/-- What a tidy call shows is what its table holds. -/
theorem find?_eq_some_iff_shown (h : Tidy i params) (k : String) (x : Float) :
    params.find? k = some x ↔
      (k, x) ∈ ((i.specs (α := Float)).map fun s => (s.name, s.stored params)) ++ others i params := by
  rw [List.mem_append, List.mem_map, mem_others_iff]
  constructor
  · intro hk
    by_cases hdeclared : ∃ s ∈ (i.specs (α := Float)), s.name = k
    · obtain ⟨s, hs, rfl⟩ := hdeclared
      rw [find?_stored (h.declared s hs)] at hk
      exact .inl ⟨s, hs, by rw [Option.some.inj hk]⟩
    · exact .inr ⟨Table.find?_eq_some_iff.mp hk, fun s hs he => hdeclared ⟨s, hs, he⟩⟩
  · rintro (⟨s, hs, he⟩ | ⟨hmem, _⟩)
    · obtain ⟨rfl, rfl⟩ := Prod.mk.inj he
      exact find?_stored (h.declared s hs)
    · exact Table.find?_eq_some_iff.mpr hmem

theorem shown_nodup (i : Indicator) (params : Table Float) :
    ((((i.specs (α := Float)).map fun s => (s.name, s.stored params)) ++ others i params).map
      Prod.fst).Nodup := by
  rw [List.map_append, List.map_map]
  refine List.nodup_append.mpr ⟨specNames_nodup i, ?_, ?_⟩
  · exact params.ascending.nodup.sublist (List.filter_sublist.map Prod.fst)
  · intro k hk j hj
    obtain ⟨s, hs, rfl⟩ := List.mem_map.mp hk
    obtain ⟨e, he, rfl⟩ := List.mem_map.mp hj
    exact (mem_others_iff.mp he).2 s hs

theorem map_fst_of_matches (h : List.Forall₂ Matches settings entries) :
    settings.map Prod.fst = entries.map Prod.fst := by
  induction h with
  | nil => rfl
  | cons h _ ih => rw [List.map_cons, List.map_cons, ih, h.1]

theorem callParams_beq (h : Tidy i params) (hmatch : List.Forall₂ Matches settings
      (((i.specs (α := Float)).map fun s => (s.name, s.stored params)) ++ others i params)) :
    (callParams i settings == params) = true := by
  have hkeys := map_fst_of_matches hmatch
  have hnodup := shown_nodup i params
  have hcontains : ∀ s ∈ (i.specs (α := Float)), (Table.ofList settings).contains s.name = true := by
    intro s hs
    rw [Table.contains, Table.find?_ofList (hkeys ▸ hnodup), Option.isSome_iff_ne_none, Ne,
      Entries.find?_eq_none_iff, not_not, hkeys, List.map_append, List.map_map]
    exact List.mem_append_left _ (List.mem_map_of_mem (f := ParamSpec.name) hs)
  rw [callParams, withDefaults_of_contains hcontains]
  exact Table.ofList_beq hmatch hnodup (find?_eq_some_iff_shown h)

/-- The text of a tidy call with finite parameters is an operand with equal parameters. -/
theorem isOperand_callText (h : Tidy i params) (hfinite : ∀ e ∈ params.entries, e.2.isFinite = true) :
    ∃ stored, IsOperand (Indicator.callText i.mnemonic i.specs params fun s => s.stored params).toList
      (Tree.indicator i stored) ∧ (stored == params) = true := by
  have hstored : ∀ s ∈ (i.specs (α := Float)), (s.stored params).isFinite = true := fun s hs =>
    hfinite (s.name, s.stored params) (Table.find?_eq_some_iff.mp (find?_stored (h.declared s hs)))
  have hothers : ∀ e ∈ others i params, e.2.isFinite = true := fun e he =>
    hfinite e (mem_others_iff.mp he).1
  have hdrop : (i.specs (α := Float)).drop 0 = i.specs := rfl
  obtain ⟨settings, hlist, hmatch⟩ := listed_call hdrop h.plain hstored hothers
  rw [toList_callText]
  exact ⟨_, .call rfl blank_nil hlist.isArguments, callParams_beq h hmatch⟩

end SignalEvolution.Formula

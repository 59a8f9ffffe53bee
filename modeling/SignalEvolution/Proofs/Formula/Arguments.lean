import SignalEvolution.Proofs.Arithmetic.Numeral
import SignalEvolution.Proofs.Formula.Grammar
import SignalEvolution.Proofs.Problem
import SignalEvolution.Proofs.Text.Split

/-! # Arguments of calls

Strict reading accepts the argument lists of the grammar and no others, and it
stores their settings one after another. Lenient reading stores the same.
-/
namespace SignalEvolution.Formula
open Text Decimal

variable {mode : Mode} {i : Indicator} {position : Nat} {cs value : List Char} {x : Float}
variable {setting : String × Float} {settings : List (String × Float)} {params stored : Table Float}

/-- What the reader relies on about the characters of numbers. -/
theorem numerals_spec : ∀ c ∈ numerals, isBlank c = false ∧ c ≠ '(' ∧ c ≠ ')' ∧ c ≠ ',' ∧ c ≠ '=' := by
  decide

theorem trimmed_of_finite? (h : finite? value = some x) : Trimmed value := by
  have hsub := (finite?_subset h).2
  exact ⟨fun c hc => (numerals_spec c (hsub (List.mem_of_mem_head? hc))).1,
    fun c hc => (numerals_spec c (hsub (List.mem_of_getLast? hc))).1⟩

theorem not_mem_of_finite? (h : finite? value = some x) : ',' ∉ value ∧ '=' ∉ value := by
  have hsub := (finite?_subset h).2
  exact ⟨fun hm => (numerals_spec _ (hsub hm)).2.2.2.1 rfl, fun hm => (numerals_spec _ (hsub hm)).2.2.2.2 rfl⟩

theorem flat_of_finite? (h : finite? value = some x) : Flat value := by
  have hsub := (finite?_subset h).2
  exact fun c hc => ⟨(numerals_spec c (hsub hc)).2.1, (numerals_spec c (hsub hc)).2.2.1⟩

theorem comma_not_mem_of_blank (h : Blank cs) : ',' ∉ cs := not_mem_of_blank (by decide) h

theorem IsArgument.flat (h : IsArgument i position cs setting) : Flat cs ∧ ',' ∉ cs := by
  induction h with
  | positional hx _ => exact ⟨flat_of_finite? hx, (not_mem_of_finite? hx).1⟩
  | @keyed key gap value x hkey hgap hx =>
    have hcomma := comma_not_mem_of_blank hgap
    have hvalue := (not_mem_of_finite? hx).1
    constructor
    · intro c hc
      rcases List.mem_append.mp hc with hc | hc
      · exact ⟨(hkey c hc).1, (hkey c hc).2.1⟩
      · rcases List.mem_cons.mp hc with rfl | hc
        · decide
        · exact (flat_of_blank hgap).append (flat_of_finite? hx) c hc
    · intro hmem
      rcases List.mem_append.mp hmem with hc | hc
      · exact (hkey _ hc).2.2.1 rfl
      · simp [hcomma, hvalue] at hc
  | padded hl hr _ ih =>
    refine ⟨((flat_of_blank hl).append ih.1).append (flat_of_blank hr), ?_⟩
    simp [comma_not_mem_of_blank hl, comma_not_mem_of_blank hr, ih.2]

/-- An argument shows a character that is not white space. -/
theorem IsArgument.not_blank (h : IsArgument i position cs setting) : ¬ Blank cs := by
  intro hb
  induction h with
  | positional hx _ =>
    obtain ⟨c, rest, rfl⟩ := List.exists_cons_of_ne_nil (finite?_subset hx).1
    have hc := (numerals_spec c ((finite?_subset hx).2 List.mem_cons_self)).1
    rw [hb c List.mem_cons_self] at hc
    cases hc
  | keyed _ _ _ => exact absurd (hb '=' (by simp)) (by decide)
  | padded _ _ _ ih => exact ih fun c hc => hb c (by simp [hc])

theorem IsArgumentList.not_blank (h : IsArgumentList i position cs settings) : ¬ Blank cs := by
  intro hb
  cases h with
  | one h => exact h.not_blank hb
  | more _ _ => exact absurd (hb ',' (by simp)) (by decide)

theorem IsArgumentList.flat (h : IsArgumentList i position cs settings) : Flat cs := by
  induction h with
  | one h => exact h.flat.1
  | more h _ ih =>
    intro c hc
    rcases List.mem_append.mp hc with hc | hc
    · exact h.flat.1 c hc
    · rcases List.mem_cons.mp hc with rfl | hc
      · decide
      · exact ih c hc

theorem IsArguments.flat (h : IsArguments i cs settings) : Flat cs := by
  cases h with
  | none h => exact flat_of_blank h
  | some h => exact h.flat

theorem argumentTarget?_keyed (i : Indicator) (position : Nat) {key gap : List Char} (hkey : '=' ∉ key) (hgap : Blank gap)
    (hvalue : Trimmed value) (hne : value ≠ []) :
    argumentTarget? i.specs position (trim (key ++ '=' :: (gap ++ value))) =
      some (String.ofList (lower (trim key)), value) := by
  obtain ⟨l, hl, hk⟩ := exists_trimStart key
  have htrim : trim (key ++ '=' :: (gap ++ value)) = trimStart key ++ '=' :: (gap ++ value) := by
    rw [trim, trimStart_append_of_front _ (by intro c hc; obtain rfl := Option.some.inj hc; decide)]
    apply trimEnd_eq_self
    rw [← List.cons_append, ← List.append_assoc, List.getLast?_append_of_ne_nil _ hne]
    exact hvalue.back
  have hstart : '=' ∉ trimStart key := by
    rw [hk] at hkey
    simp at hkey
    exact hkey.2
  have hname : trim (trimStart key) = trim key := by
    have h := trim_append hl blank_nil (trimStart key)
    rwa [List.append_nil, ← hk, eq_comm] at h
  have hpadded : trim (gap ++ value) = value := by
    have h := trim_append hgap blank_nil value
    rwa [List.append_nil, trim_of_trimmed hvalue] at h
  rw [argumentTarget?, htrim, splitFirst?_append hstart]
  simp only [hname, hpadded]

theorem storeArgument_of_isArgument (h : IsArgument i position cs setting) :
    storeArgument mode i params position (trim cs) = .ok (params.insert setting.1 setting.2) := by
  induction h with
  | @positional value x spec hx hspec =>
    have htarget : argumentTarget? i.specs position (trim value) = some (spec.name, value) := by
      rw [trim_of_trimmed (trimmed_of_finite? hx), argumentTarget?,
        splitFirst?_eq_none_iff.mpr (not_mem_of_finite? hx).2, hspec]
      rfl
    simp only [storeArgument, htarget, hx]
  | @keyed key gap value x hkey hgap hx =>
    have hkey' : '=' ∉ key := fun hm => (hkey _ hm).2.2.2 rfl
    have hvalue := trimmed_of_finite? hx
    have htarget := argumentTarget?_keyed i position hkey' hgap hvalue (finite?_subset hx).1
    simp only [storeArgument, htarget, hx]
  | padded hl hr _ ih => rw [trim_append hl hr, ih]

/-- Arguments are stored by their trimmed texts alone. -/
theorem storeArguments_congr {ps qs : List (List Char)} (h : ps.map trim = qs.map trim)
    (params : Table Float) (position : Nat) :
    storeArguments mode i params position ps = storeArguments mode i params position qs := by
  induction ps generalizing qs params position with
  | nil =>
    obtain rfl := List.map_eq_nil_iff.mp h.symm
    rfl
  | cons p ps ih =>
    obtain ⟨q, qs, rfl, hq, hqs⟩ := List.map_eq_cons_iff.mp h.symm
    simp only [storeArguments, hq]
    congr 1
    funext stored
    exact ih hqs.symm stored (position + 1)

/-- Stores settings in their order. -/
def storeAll (params : Table Float) (settings : List (String × Float)) : Table Float :=
  settings.foldl (fun t e => t.insert e.1 e.2) params

theorem storeArguments_of_isArgumentList (h : IsArgumentList i position cs settings)
    (params : Table Float) :
    storeArguments mode i params position (splitOn ',' cs) = .ok (storeAll params settings) := by
  induction h generalizing params with
  | one h =>
    rw [splitOn_of_not_mem h.flat.2, storeArguments, storeArgument_of_isArgument h]
    rfl
  | more h _ ih =>
    rw [splitOn_append h.flat.2, storeArguments, storeArgument_of_isArgument h]
    exact ih _

/-- Both modes store the arguments that the grammar admits. -/
theorem storeArguments_of_isArguments (h : IsArguments i cs settings) :
    storeArguments mode i Table.empty 0 (arguments cs) = .ok (Table.ofList settings) := by
  cases h with
  | none h =>
    rw [arguments, trim_eq_nil_iff.mpr h]
    rfl
  | some h =>
    obtain ⟨l, r, hl, hr, hcs⟩ := exists_trim cs
    have hne : trim cs ≠ [] := mt trim_eq_nil_iff.mp h.not_blank
    have hmap : (splitOn ',' cs).map trim = (splitOn ',' (trim cs)).map trim := by
      have hpad := map_trim_splitOn (show isBlank ',' = false by decide) hl hr (trim cs)
      rwa [← hcs] at hpad
    rw [arguments, if_neg (by simpa using hne), ← storeArguments_congr hmap,
      storeArguments_of_isArgumentList h]
    rfl

theorem isArgument_of_trim (h : IsArgument i position (trim cs) setting) :
    IsArgument i position cs setting := by
  obtain ⟨l, r, hl, hr, hcs⟩ := exists_trim cs
  rw [hcs]
  exact .padded hl hr h

theorem isArgument_of_target {key : String} (hflat : Flat cs) (hcomma : ',' ∉ cs)
    (ht : argumentTarget? i.specs position cs = some (key, value)) (hx : finite? value = some x) :
    IsArgument i position cs (key, x) := by
  unfold argumentTarget? at ht
  split at ht
  · next before after hs =>
    obtain ⟨rfl, rfl⟩ := Prod.mk.inj (Option.some.inj ht)
    obtain ⟨rfl, heq⟩ := splitFirst?_eq_some hs
    obtain ⟨gap, r, hgap, hr, hafter⟩ := exists_trim after
    have hkey : ∀ c ∈ before, c ≠ '(' ∧ c ≠ ')' ∧ c ≠ ',' ∧ c ≠ '=' := by
      intro c hc
      refine ⟨(hflat.left c hc).1, (hflat.left c hc).2, ?_, ?_⟩
      · rintro rfl
        exact hcomma (List.mem_append_left _ hc)
      · rintro rfl
        exact heq hc
    have harg : IsArgument i position (before ++ '=' :: (gap ++ trim after)) _ := .keyed hkey hgap hx
    have hpad := IsArgument.padded blank_nil hr harg
    have hwhole : [] ++ (before ++ '=' :: (gap ++ trim after)) ++ r = before ++ '=' :: after := by
      conv_rhs => rw [hafter]
      simp
    rwa [hwhole] at hpad
  · obtain ⟨spec, hspec, heq⟩ := Option.map_eq_some_iff.mp ht
    obtain ⟨rfl, rfl⟩ := Prod.mk.inj heq
    exact .positional hx hspec

theorem isArgument_of_storeArgument (hflat : Flat cs) (hcomma : ',' ∉ cs)
    (h : storeArgument .strict i params position (trim cs) = .ok stored) :
    ∃ setting, IsArgument i position cs setting ∧ stored = params.insert setting.1 setting.2 := by
  obtain ⟨l, r, _, _, hcs⟩ := exists_trim cs
  rw [hcs] at hflat hcomma
  have hflat' : Flat (trim cs) := fun c hc => hflat c (by simp [hc])
  have hcomma' : ',' ∉ trim cs := fun hc => hcomma (by simp [hc])
  cases ht : argumentTarget? i.specs position (trim cs) with
  | none => simp [storeArgument, ht] at h
  | some target =>
    obtain ⟨key, value⟩ := target
    cases hx : finite? value with
    | none => simp [storeArgument, ht, hx] at h
    | some x =>
      simp only [storeArgument, ht, hx, Except.ok.injEq] at h
      exact ⟨(key, x), isArgument_of_trim (isArgument_of_target hflat' hcomma' ht hx), h.symm⟩

theorem isArgumentList_of_storeArguments (hflat : Flat cs)
    (h : storeArguments .strict i params position (splitOn ',' cs) = .ok stored) :
    ∃ settings, IsArgumentList i position cs settings ∧ stored = storeAll params settings := by
  induction hn : cs.length using Nat.strong_induction_on generalizing cs params position with
  | h n ih =>
    rcases separator_cases ',' cs with hcomma | ⟨before, after, rfl, hcomma⟩
    · rw [splitOn_of_not_mem hcomma, storeArguments] at h
      obtain ⟨next, hnext, hrest⟩ := bind_eq_ok h
      obtain rfl : next = stored := by simpa [storeArguments] using hrest
      obtain ⟨setting, harg, rfl⟩ := isArgument_of_storeArgument hflat hcomma hnext
      exact ⟨[setting], .one harg, rfl⟩
    · rw [splitOn_append hcomma, storeArguments] at h
      obtain ⟨next, hnext, hrest⟩ := bind_eq_ok h
      obtain ⟨setting, harg, rfl⟩ := isArgument_of_storeArgument hflat.left hcomma hnext
      have hafter : Flat after := fun c hc => hflat c (by simp [hc])
      obtain ⟨settings, hlist, rfl⟩ := ih after.length (by rw [← hn]; simp; omega) hafter hrest rfl
      exact ⟨setting :: settings, .more harg hlist, rfl⟩

/-- Strict reading stores the arguments of the grammar only. -/
theorem isArguments_of_storeArguments (hflat : Flat cs)
    (h : storeArguments .strict i Table.empty 0 (arguments cs) = .ok stored) :
    ∃ settings, IsArguments i cs settings ∧ stored = Table.ofList settings := by
  obtain ⟨l, r, hl, hr, hcs⟩ := exists_trim cs
  by_cases hne : trim cs = []
  · obtain rfl : Table.empty = stored := by simpa [arguments, hne, storeArguments] using h
    exact ⟨[], .none (trim_eq_nil_iff.mp hne), rfl⟩
  · have hmap : (splitOn ',' cs).map trim = (splitOn ',' (trim cs)).map trim := by
      have hpad := map_trim_splitOn (show isBlank ',' = false by decide) hl hr (trim cs)
      rwa [← hcs] at hpad
    rw [arguments, if_neg (by simpa using hne), ← storeArguments_congr hmap] at h
    obtain ⟨settings, hlist, hstored⟩ := isArgumentList_of_storeArguments hflat h
    exact ⟨settings, .some hlist, hstored⟩

end SignalEvolution.Formula

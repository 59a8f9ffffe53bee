import SignalEvolution.Proofs.Formula.Rendering

/-! # Lenient reading

Lenient reading answers every text with a tree of connectives over comparisons and
leaves. All numbers of the tree are finite and the keys of its calls are plain, so that its
formula is read as the same tree again.
-/
namespace SignalEvolution.Formula
open Text

variable {cs ds : List Char} {i : Indicator} {position : Nat} {key : String} {x : Float}
variable {params : Table Float} {op : Operator} {t : Tree} {ts : List Tree} {ps : List (List Char)}

/-- What lenient reading yields. -/
structure Recovered (t : Tree) : Prop where
  legible : Legible .lenient t
  tidy : t.Every TidyKind

theorem trimmed_lower (h : Trimmed cs) : Trimmed (lower cs) := by
  rw [← trim_of_trimmed h, ← trim_lower]
  exact trimmed_trim _

theorem mem_of_mem_trim {c : Char} (h : c ∈ trim cs) : c ∈ cs := by
  obtain ⟨l, r, _, _, hcs⟩ := exists_trim cs
  rw [hcs]
  exact List.mem_append_left _ (List.mem_append_right _ h)

/-- The reader stores its keys without white space around them, in lower case. -/
theorem plainKey_of_flat (h : ∀ c ∈ cs, c ≠ '(' ∧ c ≠ ')' ∧ c ≠ ',' ∧ c ≠ '=') :
    PlainKey (String.ofList (lower (trim cs))) where
  trimmed := by
    rw [String.toList_ofList]
    exact trimmed_lower (trimmed_trim cs)
  lowered := by
    rw [String.toList_ofList]
    exact lower_lower (trim cs)
  clear := by
    intro c hc
    rw [String.toList_ofList, lower] at hc
    obtain ⟨d, hd, rfl⟩ := List.mem_map.mp hc
    have hd' := h d (mem_of_mem_trim hd)
    rw [Ne, Ne, Ne, Ne, toLower_eq_iff (by decide), toLower_eq_iff (by decide), toLower_eq_iff (by decide),
      toLower_eq_iff (by decide)]
    exact hd'

/-- The numbers of a table are finite, and its keys are declared or plain. -/
def Sound (i : Indicator) (params : Table Float) : Prop :=
  ∀ e ∈ params.entries, e.2.isFinite = true ∧
    ((∃ s ∈ (i.specs (α := Float)), s.name = e.1) ∨ PlainKey e.1)

theorem sound_empty (i : Indicator) : Sound i Table.empty := fun _ he => absurd he List.not_mem_nil

theorem Sound.insert (h : Sound i params) (hx : x.isFinite = true)
    (hkey : (∃ s ∈ (i.specs (α := Float)), s.name = key) ∨ PlainKey key) : Sound i (params.insert key x) := by
  rintro ⟨k, v⟩ he
  have hfind := Table.find?_eq_some_iff.mpr he
  rw [Table.find?_insert] at hfind
  split at hfind
  · next hk =>
    obtain rfl := Option.some.inj hfind
    rw [hk]
    exact ⟨hx, hkey⟩
  · exact h (k, v) (Table.find?_eq_some_iff.mp hfind)

theorem sound_storeArgument (position : Nat) (h : Sound i params) (hflat : Flat cs) (hcomma : ',' ∉ cs) :
    ∃ stored, storeArgument .lenient i params position (trim cs) = .ok stored ∧ Sound i stored := by
  cases ht : argumentTarget? (i.specs (α := Float)) position (trim cs) with
  | none => exact ⟨params, by simp [storeArgument, ht], h⟩
  | some target =>
    obtain ⟨key, value⟩ := target
    cases hx : finite? value with
    | none => exact ⟨params, by simp [storeArgument, ht, hx], h⟩
    | some x =>
      refine ⟨params.insert key x, by simp [storeArgument, ht, hx], h.insert (isFinite_of_finite? hx) ?_⟩
      unfold argumentTarget? at ht
      split at ht
      · next before after hs =>
        obtain ⟨rfl, rfl⟩ := Prod.mk.inj (Option.some.inj ht)
        obtain ⟨hcs, heq⟩ := splitFirst?_eq_some hs
        right
        apply plainKey_of_flat
        intro c hc
        have hmem : c ∈ cs := mem_of_mem_trim (by rw [hcs]; exact List.mem_append_left _ hc)
        refine ⟨(hflat c hmem).1, (hflat c hmem).2, ?_, ?_⟩
        · rintro rfl
          exact hcomma hmem
        · rintro rfl
          exact heq hc
      · obtain ⟨s, hs, heq⟩ := Option.map_eq_some_iff.mp ht
        obtain ⟨rfl, rfl⟩ := Prod.mk.inj heq
        exact .inl ⟨s, List.mem_of_getElem? hs, rfl⟩

theorem sound_storeArguments (position : Nat) (h : Sound i params) (hps : ∀ p ∈ ps, Flat p ∧ ',' ∉ p) :
    ∃ stored, storeArguments .lenient i params position ps = .ok stored ∧ Sound i stored := by
  induction ps generalizing params position with
  | nil => exact ⟨params, rfl, h⟩
  | cons p ps ih =>
    obtain ⟨hp, hps⟩ := List.forall_mem_cons.mp hps
    obtain ⟨next, hnext, hsound⟩ := sound_storeArgument position h hp.1 hp.2
    obtain ⟨stored, hstored, hsound'⟩ := ih (position + 1) hsound hps
    refine ⟨stored, ?_, hsound'⟩
    rw [storeArguments, hnext]
    exact hstored

theorem flat_arguments_of_flat (h : Flat cs) : ∀ p ∈ arguments cs, Flat p ∧ ',' ∉ p := by
  intro p hp
  unfold arguments at hp
  dsimp only at hp
  split at hp
  · cases hp
  · obtain ⟨hcomma, hsub⟩ := mem_splitOn_spec hp
    exact ⟨fun c hc => h c (mem_of_mem_trim (hsub hc)), hcomma⟩

theorem default_isFinite (i : Indicator) : ∀ s ∈ (i.specs (α := Float)), s.default.isFinite = true := by
  cases i <;> decide +kernel

theorem Sound.insertNew (h : Sound i params) {s : ParamSpec Float} (hs : s ∈ i.specs) :
    Sound i (params.insertNew s.name s.default) := by
  unfold Table.insertNew
  split
  · exact h
  · exact h.insert (default_isFinite i s hs) (.inl ⟨s, hs, rfl⟩)

/-- Adding the defaults keeps the table sound and declares every parameter. -/
theorem withDefaults_spec (h : Sound i params) : Sound i (withDefaults i params) ∧
    ∀ s ∈ (i.specs (α := Float)), (withDefaults i params).contains s.name = true := by
  unfold withDefaults
  suffices hall : ∀ specs : List (ParamSpec Float), specs ⊆ i.specs → ∀ params, Sound i params →
      Sound i (specs.foldl (fun table s => table.insertNew s.name s.default) params) ∧
        ∀ key, (params.contains key = true ∨ ∃ s ∈ specs, s.name = key) →
          (specs.foldl (fun table s => table.insertNew s.name s.default) params).contains key = true by
    obtain ⟨hsound, hcontains⟩ := hall i.specs (List.Subset.refl _) params h
    exact ⟨hsound, fun s hs => hcontains s.name (.inr ⟨s, hs, rfl⟩)⟩
  intro specs
  induction specs with
  | nil => exact fun _ params h => ⟨h, fun key hkey => hkey.resolve_right (by simp)⟩
  | cons s specs ih =>
    intro hsub params h
    obtain ⟨hs, hsub⟩ := List.cons_subset.mp hsub
    obtain ⟨hsound, hcontains⟩ := ih hsub _ (h.insertNew hs)
    refine ⟨hsound, fun key hkey => hcontains key ?_⟩
    rw [Table.contains_insertNew, Bool.or_eq_true, decide_eq_true_eq]
    rcases hkey with hkey | ⟨s', hs', rfl⟩
    · exact .inl (.inr hkey)
    · rcases List.mem_cons.mp hs' with rfl | hs'
      · exact .inl (.inl rfl)
      · exact .inr ⟨s', hs', rfl⟩

theorem recovered_leaf {k : Kind} (hk : k.arity = 0) (hf : FiniteKind k) (ht : TidyKind k) :
    Recovered (.node k []) where
  legible := .leaf rfl hk hf
  tidy := Tree.every_iff.mpr ⟨ht, by simp⟩

/-- Lenient reading of an operand yields a leaf. -/
theorem operand_lenient (cs : List Char) : ∃ k, operand .lenient cs = .ok (.node k []) ∧ k.arity = 0 ∧
    FiniteKind k ∧ TidyKind k := by
  have hclose : ∃ k, (.ok (Tree.series .close) : Except Problem Tree) = .ok (.node k []) ∧ k.arity = 0 ∧
      FiniteKind k ∧ TidyKind k := ⟨.series .close, rfl, rfl, trivial, trivial⟩
  unfold operand
  dsimp only
  split
  · exact hclose
  · split
    · next x hx => exact ⟨.constant x, rfl, rfl, isFinite_of_finite? hx, trivial⟩
    · next s _ _ => exact ⟨.series s, rfl, rfl, trivial, trivial⟩
    · next name args _ _ hcall =>
      unfold indicatorCall
      split
      · exact hclose
      · next i _ =>
        obtain ⟨stored, hstored, hsound⟩ := sound_storeArguments 0 (sound_empty i)
          (flat_arguments_of_flat (call?_sound hcall).1)
        obtain ⟨hdefaults, hdeclared⟩ := withDefaults_spec hsound
        refine ⟨.indicator i.mnemonic (withDefaults i stored), ?_, rfl, fun e he => (hdefaults e he).1,
          i, rfl, hdeclared, ?_⟩
        · rw [hstored]
          rfl
        · intro e he
          obtain ⟨hmem, hnone⟩ := mem_others_iff.mp he
          exact (hdefaults e hmem).2.resolve_left fun ⟨s, hs, hname⟩ => hnone s hs hname
    · exact hclose

theorem clause_lenient (source cs : List Char) : ∃ t, clause .lenient source cs = .ok t ∧ Recovered t := by
  unfold clause
  split
  · exact ⟨Tree.series .close, rfl, recovered_leaf rfl trivial trivial⟩
  · split
    · next left cmp right _ =>
      obtain ⟨k, hleft, hk, hfk, htk⟩ := operand_lenient left
      obtain ⟨l, hright, hl, hfl, htl⟩ := operand_lenient right
      refine ⟨Tree.compare cmp (.node k []) (.node l []), ?_, .comparison hk hl hfk hfl, ?_⟩
      · rw [hleft, hright]
        rfl
      · refine Tree.every_iff.mpr ⟨trivial, fun c hc => ?_⟩
        rcases List.mem_pair.mp hc with rfl | rfl
        · exact (recovered_leaf hk hfk htk).tidy
        · exact (recovered_leaf hl hfl htl).tidy
    · next h => cases h
    · obtain ⟨k, hoperand, hk, hf, ht⟩ := operand_lenient cs
      exact ⟨.node k [], hoperand, recovered_leaf hk hf ht⟩

theorem recovered_join (hop : op = .and ∨ op = .or) (h : ∀ t ∈ ts, Recovered t) : Recovered (join op ts) := by
  cases ts with
  | nil => exact recovered_leaf rfl trivial trivial
  | cons t ts =>
    obtain ⟨ht, hts⟩ := List.forall_mem_cons.mp h
    change Recovered (ts.foldl (fun left right => .node (.operator op) [left, right]) t)
    clear h
    induction ts generalizing t with
    | nil => exact ht
    | cons u ts ih =>
      obtain ⟨hu, hts⟩ := List.forall_mem_cons.mp hts
      refine ih (.node (.operator op) [t, u]) ⟨.connected hop ht.legible hu.legible, ?_⟩ hts
      refine Tree.every_iff.mpr ⟨trivial, fun c hc => ?_⟩
      rcases List.mem_pair.mp hc with rfl | rfl
      · exact ht.tidy
      · exact hu.tidy

theorem recovered_trees (h : ∀ p ∈ ps, ∃ t, (part p).tree .lenient = .ok t ∧ Recovered t) :
    ∃ ts, Outline.trees .lenient (ps.map part) = .ok ts ∧ ∀ t ∈ ts, Recovered t := by
  induction ps with
  | nil => exact ⟨[], rfl, by simp⟩
  | cons p ps ih =>
    obtain ⟨⟨t, ht, hrecovered⟩, hps⟩ := List.forall_mem_cons.mp h
    obtain ⟨ts, hts, hall⟩ := ih hps
    refine ⟨t :: ts, ?_, List.forall_mem_cons.mpr ⟨hrecovered, hall⟩⟩
    rw [List.map_cons, Outline.trees, ht, hts]
    rfl

/-- Lenient reading answers every text. -/
theorem outline_lenient (cs : List Char) : ∃ t, (outline cs).tree .lenient = .ok t ∧ Recovered t := by
  -- A part is shorter than the text that it was cut from.
  induction hn : cs.length using Nat.strong_induction_on generalizing cs with
  | h n ih =>
    by_cases hne : strip cs = []
    · rw [outline_tree_blank hne]
      exact ⟨Tree.series .close, rfl, recovered_leaf rfl trivial trivial⟩
    by_cases hmany : 1 < (pieces (cutWord (strip cs)) (strip cs)).length
    · have hparts : ∀ p ∈ pieces (cutWord (strip cs)) (strip cs),
          ∃ t, (part p).tree .lenient = .ok t ∧ Recovered t := by
        intro p hp
        have hshort := length_lt_of_mem_pieces hp hmany
        have hstrip := length_strip_le cs
        have hstrip' := length_strip_le p
        unfold part
        split
        · exact ih _ (by omega) (strip p) rfl
        · exact clause_lenient p (strip p)
      obtain ⟨ts, htrees, hall⟩ := recovered_trees hparts
      refine ⟨join (cutOperator (strip cs)) ts, ?_, recovered_join (keywordOf_cutOperator _).1 hall⟩
      rw [outline_joined hne hmany, Outline.tree, htrees, if_neg (by simp)]
      rfl
    · rw [outline_whole hne hmany]
      exact clause_lenient _ _

/-- Lenient reading yields a tree for every text, and reads the formula of this tree as the same tree. -/
theorem parse_lenient_formula (s : String) : ∃ t, parse .lenient s = .ok t ∧
    ∃ u, parse .lenient t.formula = .ok u ∧ (u == t) = true := by
  obtain ⟨t, ht, hrecovered⟩ := outline_lenient s.toList
  obtain ⟨u, hformula, _, hequal⟩ := hrecovered.legible.read hrecovered.tidy
  refine ⟨t, ht, u, ?_, hequal⟩
  rw [parse, Tree.formula, String.toList_ofList]
  exact hformula.formulaRead.read

end SignalEvolution.Formula

import SignalEvolution.Proofs.Formula.Blanks

/-! # Strict reading of rendered trees

A formula leaves out the parentheses around comparisons below operators. Strict reading
never takes such a text for another tree: negations, arithmetic and nested comparisons
are rejected, and only legible trees are read.
-/
namespace SignalEvolution.Formula
open Text

variable {cs ds left right sign : List Char} {k : Kind} {a b t u : Tree} {op : Operator}
variable {cmp : Comparator} {i : Indicator} {params : Table Float} {ps : List (List Char)} {ts : List Tree}

theorem isFinite_of_numberText {x y : Float} (h : finite? (numberText x).toList = some y) : x.isFinite = true := by
  cases hx : x.isFinite with
  | true => rfl
  | false =>
    rw [Binary.finite?_numberText_eq_none hx] at h
    cases h

theorem isFinite_of_constant {x : Float} (h : IsOperand (numberText x).toList t) : x.isFinite = true := by
  rcases numberText_cases x with ⟨y, hy⟩ | hmem
  · exact isFinite_of_numberText hy
  have hnone : ∀ text ∈ ["NaN".toList, "inf".toList, "-inf".toList], text ≠ [] ∧ Trimmed text ∧ Flat text ∧
      finite? text = none ∧ Series.find? text = none ∧ call? text = none := by
    have hsplit : ∀ text ∈ ["NaN".toList, "inf".toList, "-inf".toList], text ≠ [] ∧
        ((∀ c ∈ text.head?, isBlank c = false) ∧ ∀ c ∈ text.getLast?, isBlank c = false) ∧ Flat text ∧
        Series.find? text = none ∧ splitFirst? '(' text = none := by decide
    have hfinite : ∀ text ∈ ["NaN".toList, "inf".toList, "-inf".toList], finite? text = none := by
      decide +kernel
    intro text htext
    obtain ⟨hne, htrim, hflat, hseries, hcall⟩ := hsplit text htext
    refine ⟨hne, ⟨htrim.1, htrim.2⟩, hflat, hfinite text htext, hseries, ?_⟩
    rw [call?, hcall]
    rfl
  obtain ⟨hne, htrim, hflat, hfinite, hseries, hcall⟩ := hnone _ hmem
  have hread : operand .strict (numberText x).toList = .ok t := operand_of_isOperand h
  rw [operand, strip_of_flat htrim hflat] at hread
  simp [hne, hfinite, hseries, hcall, fallback] at hread

theorem splitOn_intercalate {args : List (List Char)} (h : ∀ arg ∈ args, ',' ∉ arg) (hne : args ≠ []) :
    splitOn ',' ([','].intercalate args) = args := by
  induction args with
  | nil => exact absurd rfl hne
  | cons arg args ih =>
    obtain ⟨harg, hargs⟩ := List.forall_mem_cons.mp h
    cases args with
    | nil => rw [List.intercalate_singleton, splitOn_of_not_mem harg]
    | cons next args =>
      rw [List.intercalate_cons_cons, List.append_assoc, List.singleton_append, splitOn_append harg,
        ih hargs (by simp)]

/-- Strict reading stores no argument without a key that is not a finite number. -/
theorem finite?_of_storeArguments {args : List (List Char)} {position : Nat} {stored : Table Float}
    (h : storeArguments .strict i params position args = .ok stored) :
    ∀ arg ∈ args, '=' ∉ trim arg → ∃ y, finite? (trim arg) = some y := by
  induction args generalizing params position with
  | nil => exact fun arg harg => absurd harg List.not_mem_nil
  | cons first args ih =>
    rw [storeArguments] at h
    obtain ⟨next, hnext, hrest⟩ := bind_eq_ok h
    intro arg harg heq
    rcases List.mem_cons.mp harg with rfl | harg
    · cases hx : finite? (trim arg) with
      | some y => exact ⟨y, rfl⟩
      | none =>
        have htarget : argumentTarget? (i.specs (α := Float)) position (trim arg) =
            (i.specs (α := Float))[position]?.map fun s => (s.name, trim arg) := by
          simp [argumentTarget?, splitFirst?_eq_none_iff.mpr heq]
        cases hspec : (i.specs (α := Float))[position]? with
        | none => simp [storeArgument, htarget, hspec] at hnext
        | some s => simp [storeArgument, htarget, hspec, hx] at hnext
    · exact ih hrest arg harg heq

theorem trimmed_intercalate {args : List (List Char)} (h : ∀ arg ∈ args, arg ≠ [] ∧ Trimmed arg)
    (hne : args ≠ []) : [','].intercalate args ≠ [] ∧ Trimmed ([','].intercalate args) := by
  induction args with
  | nil => exact absurd rfl hne
  | cons arg args ih =>
    obtain ⟨⟨hnil, htrim⟩, hargs⟩ := List.forall_mem_cons.mp h
    cases args with
    | nil =>
      rw [List.intercalate_singleton]
      exact ⟨hnil, htrim⟩
    | cons next args =>
      obtain ⟨hnil', htrim'⟩ := ih hargs (by simp)
      rw [List.intercalate_cons_cons]
      refine ⟨by simp, ⟨?_, ?_⟩⟩
      · rw [List.append_assoc, List.head?_append_of_ne_nil _ hnil]
        exact htrim.front
      · rw [List.getLast?_append_of_ne_nil _ hnil']
        exact htrim'.back

theorem storeArguments_of_call {args : List Char} (hflat : Flat args)
    (h : operand .strict (i.mnemonic.toList ++ [] ++ '(' :: (args ++ [')'])) = .ok t) :
    ∃ stored, storeArguments .strict i Table.empty 0 (arguments args) = .ok stored := by
  obtain ⟨htrim, hhead⟩ := trimmed_call (i := i) [] args rfl
  have hopen : '(' ∈ i.mnemonic.toList ++ [] ++ '(' :: (args ++ [')']) := by simp
  rw [operand, strip_of_trimmed htrim hhead] at h
  simp only [finite?_of_mem hopen, series_find?_of_mem htrim hopen,
    call?_eq_some (i := i) rfl blank_nil hflat, indicatorCall, indicator_find?_of_lower (i := i) rfl] at h
  rw [if_neg (by simp)] at h
  obtain ⟨stored, hstored, _⟩ := bind_eq_ok h
  exact ⟨stored, hstored⟩

/-- The parameters held are exactly the declared ones. -/
def Declares (i : Indicator) (params : Table Float) : Prop :=
  ∀ key, params.contains key = true ↔ ∃ s ∈ (i.specs (α := Float)), s.name = key

/-- An indicator holds exactly its declared parameters. -/
def DeclaredKind : Kind → Prop
  | .indicator name params => ∃ i : Indicator, i.mnemonic = name ∧ Declares i params
  | _ => True

theorem others_of_declared (h : Declares i params) : others i params = [] := by
  rw [List.eq_nil_iff_forall_not_mem]
  intro e he
  obtain ⟨hmem, hnone⟩ := mem_others_iff.mp he
  have hcontains : params.contains e.1 = true := by
    rw [Table.contains, Table.find?_eq_some_iff.mpr (show (e.1, e.2) ∈ params.entries from hmem)]
    rfl
  obtain ⟨s, hs, hname⟩ := (h e.1).mp hcontains
  exact hnone s hs hname

theorem tidy_of_declared (h : Declares i params) : Tidy i params where
  declared s hs := (h s.name).mpr ⟨s, hs, rfl⟩
  plain e he := by
    rw [others_of_declared h] at he
    cases he

theorem tidyKind_of_declared (h : DeclaredKind k) : TidyKind k := by
  cases k with
  | indicator name params =>
    obtain ⟨i, hname, hdeclares⟩ := h
    exact ⟨i, hname, tidy_of_declared hdeclares⟩
  | _ => trivial

theorem finite_stored_of_call (hd : Declares i params) (h : IsOperand (Tree.indicator i params).text t) :
    ∀ s ∈ (i.specs (α := Float)), (s.stored params).isFinite = true := by
  intro s hs
  have hargs := flat_arguments (tidy_of_declared hd)
  have hread : operand .strict (Tree.indicator i params).text = .ok t := operand_of_isOperand h
  have hshown : (((i.specs (α := Float)).map fun s => (numberText (s.stored params)).toList) ++
      (others i params).map fun e => (e.1 ++ "=" ++ numberText e.2).toList) =
        (i.specs (α := Float)).map fun s => (numberText (s.stored params)).toList := by
    rw [others_of_declared hd, List.map_nil, List.append_nil]
  rw [text_indicator, toList_callText, hshown] at hread
  rw [hshown] at hargs
  obtain ⟨stored, hstored⟩ := storeArguments_of_call hargs hread
  have hvalue : ∀ v ∈ (i.specs (α := Float)).map fun s => (numberText (s.stored params)).toList,
      ',' ∉ v ∧ '=' ∉ v ∧ v ≠ [] ∧ Trimmed v := by
    intro v hv
    obtain ⟨s, _, rfl⟩ := List.mem_map.mp hv
    obtain ⟨hne, hchars⟩ := numberText_spec (s.stored params)
    exact ⟨fun hc => (hchars _ hc).2.2.2.2.1 rfl, fun hc => (hchars _ hc).2.2.2.2.2 rfl, hne,
      fun c hc => (hchars c (List.mem_of_mem_head? hc)).1, fun c hc => (hchars c (List.mem_of_getLast? hc)).1⟩
  have hmem : (numberText (s.stored params)).toList ∈
      (i.specs (α := Float)).map fun s => (numberText (s.stored params)).toList :=
    List.mem_map_of_mem (f := fun s : ParamSpec Float => (numberText (s.stored params)).toList) hs
  generalize ((i.specs (α := Float)).map fun s => (numberText (s.stored params)).toList) = values
    at hstored hvalue hmem
  obtain ⟨hnil, htrim⟩ := trimmed_intercalate (fun v hv => (hvalue v hv).2.2) (List.ne_nil_of_mem hmem)
  rw [arguments, trim_of_trimmed htrim, if_neg (by simpa using hnil),
    splitOn_intercalate (fun v hv => (hvalue v hv).1) (List.ne_nil_of_mem hmem)] at hstored
  have htext := trim_of_trimmed (hvalue _ hmem).2.2.2
  obtain ⟨y, hy⟩ := finite?_of_storeArguments hstored _ hmem (by rw [htext]; exact (hvalue _ hmem).2.1)
  rw [htext] at hy
  exact isFinite_of_numberText hy

/-- A leaf that strict reading accepts as an operand has finite numbers. -/
theorem finiteKind_of_isOperand (hk : k.arity = 0) (hd : DeclaredKind k)
    (h : IsOperand (Tree.node k []).text t) : FiniteKind k := by
  cases k with
  | operator op => cases op <;> cases hk
  | comparator cmp => cases hk
  | indicator name params =>
    intro e he
    obtain ⟨i, rfl, hd⟩ := hd
    have hfind : params.find? e.1 = some e.2 := Table.find?_eq_some_iff.mpr he
    have hcontains : params.contains e.1 = true := by
      rw [Table.contains, hfind]
      rfl
    obtain ⟨s, hs, hname⟩ := (hd e.1).mp hcontains
    have hstored := find?_stored (hname ▸ hcontains : params.contains s.name = true)
    rw [hname, hfind] at hstored
    rw [Option.some.inj hstored]
    exact finite_stored_of_call hd h s hs
  | constant x => exact isFinite_of_constant h
  | series s => trivial

theorem inert_child (cmp : Comparator) (hfull : a.Full) (htidy : a.Every TidyKind) :
    Inert (Tree.enclose (.comparator cmp) a.kind a.text) := by
  have hfirm := firm_text hfull htidy
  obtain ⟨k, cs⟩ := a
  rcases node_cases (Tree.full_iff.mp hfull).1 with ⟨hk, rfl⟩ | ⟨_, rfl, _⟩ | ⟨_, _, _, _, rfl, _⟩ | ⟨_, _, _, rfl, _⟩
  · rw [Tree.kind, enclose_leaf _ hk]
    exact inert_leaf hk (Tree.every_iff.mp htidy).1
  · exact hfirm.inert_enclosed
  · exact hfirm.inert_enclosed
  · exact hfirm.inert_enclosed

theorem unbroken_compare (hfull : (Tree.compare cmp a b).Full) (htidy : (Tree.compare cmp a b).Every TidyKind) :
    ∀ keyword ∈ connectives, Unbroken keyword (Tree.compare cmp a b).text := by
  obtain ⟨_, hfull⟩ := Tree.full_iff.mp hfull
  obtain ⟨_, htidy⟩ := Tree.every_iff.mp htidy
  have hleft := inert_child cmp (hfull a (by simp)) (htidy a (by simp))
  have hright := inert_child cmp (hfull b (by simp)) (htidy b (by simp))
  have hblank : Blank [' '] := by decide
  have hbroken := unbroken_comparison (hleft.pad blank_nil hblank) (symbol_mem_spellings cmp)
    (hright.pad hblank blank_nil)
  rw [text_compare]
  simpa using hbroken

theorem unbroken_child (op : Operator) (hfull : a.Full) (htidy : a.Every TidyKind) :
    ∀ keyword ∈ connectives, Unbroken keyword (Tree.enclose (.operator op) a.kind a.text) := by
  have hfirm := firm_text hfull htidy
  obtain ⟨k, cs⟩ := a
  rcases node_cases (Tree.full_iff.mp hfull).1 with ⟨hk, rfl⟩ | ⟨_, rfl, _⟩ | ⟨_, _, _, _, rfl, _⟩ | ⟨cmp, a, b, rfl, rfl⟩
  · rw [Tree.kind, enclose_leaf _ hk]
    exact (inert_leaf hk (Tree.every_iff.mp htidy).1).unbroken
  · exact hfirm.inert_enclosed.unbroken
  · exact hfirm.inert_enclosed.unbroken
  · exact unbroken_compare hfull htidy

/-- A blank between two texts joins no words. -/
theorem unbroken_space {keyword : List Char} (hk : IsKeyword keyword) (h0 : depth cs = 0)
    (hcs : Unbroken keyword cs) (hds : Unbroken keyword ds) : Unbroken keyword (cs ++ ' ' :: ds) := by
  have hblank : Blank [' '] := by decide
  have hfront : Apart cs (' ' :: ds) := apart_of_front fun c hc => by
    obtain rfl := Option.some.inj hc
    decide
  have hright : Unbroken keyword ([' '] ++ ds) :=
    (unbroken_append_iff hk rfl (apart_of_blank_left hblank)).mpr ⟨unbroken_of_blank hk hblank, hds⟩
  exact (unbroken_append_iff hk h0 hfront).mpr ⟨hcs, hright⟩

theorem leaf_head (hk : k.arity = 0) (ht : TidyKind k) :
    ∃ c rest, (Tree.node k []).text = c :: rest ∧ c ≠ '(' := by
  have hopen : ∀ c rest, (Tree.node k []).text = c :: rest → c ≠ '(' := by
    intro c rest hcons
    cases k with
    | operator op => cases op <;> cases hk
    | comparator cmp => cases hk
    | indicator name params =>
      obtain ⟨i, rfl, ht⟩ := ht
      change (Tree.indicator i params).text = _ at hcons
      rw [text_indicator, toList_callText] at hcons
      exact (trimmed_call (i := i) [] _ rfl).2 c (by rw [hcons]; rfl)
    | constant x =>
      have hchars := (numberText_spec x).2 c
      change (numberText x).toList = _ at hcons
      rw [hcons] at hchars
      exact (hchars List.mem_cons_self).2.2.1
    | series s =>
      have hchars := (series_chars s).2 c
      change s.name.toList = _ at hcons
      rw [hcons] at hchars
      exact (hchars List.mem_cons_self).2.2.1
  obtain ⟨c, rest, hcons⟩ := List.exists_cons_of_ne_nil (firm_leaf hk ht).ne_nil
  exact ⟨c, rest, hcons, hopen c rest hcons⟩

theorem not_isFormula_leaf (hk : k.arity = 0) (ht : TidyKind k) :
    ¬ IsFormula .strict (Tree.node k []).text t := by
  obtain ⟨c, rest, hcons, hopen⟩ := leaf_head hk ht
  have hfirm := firm_leaf hk ht
  exact not_isFormula_of_inert hfirm (inert_leaf hk ht)
    (strip_of_firm hfirm (show _ = [] ++ c :: rest from hcons) rfl hopen)

theorem not_isFormula_not (hfull : (Tree.negation a).Full) (htidy : (Tree.negation a).Every TidyKind) :
    ¬ IsFormula .strict (Tree.negation a).text t := by
  have hfirm := firm_text hfull htidy
  obtain ⟨_, hfulls⟩ := Tree.full_iff.mp hfull
  obtain ⟨_, htidys⟩ := Tree.every_iff.mp htidy
  have hchild := firm_enclose (.operator .not) a.kind (firm_text (hfulls a (by simp)) (htidys a (by simp)))
  have hunbroken := unbroken_child .not (hfulls a (by simp)) (htidys a (by simp))
  have htext : (Tree.negation a).text =
      ['N', 'O', 'T'] ++ ' ' :: Tree.enclose (.operator .not) a.kind a.text := by
    rw [Tree.negation, text_not]
    simp
  rw [htext] at hfirm ⊢
  refine not_isFormula_of_foreign foreign_not hchild hfirm fun keyword hk => ?_
  have hne : ∀ keyword ∈ connectives, upper ['N', 'O', 'T'] ≠ keyword := by decide
  have hword : Unbroken keyword ['N', 'O', 'T'] := unbroken_of_wordChars (by decide) (hne keyword hk)
  exact unbroken_space (isKeyword_of_mem hk) rfl hword (hunbroken keyword hk)

theorem not_isFormula_arithmetic (hop : op.family = .arithmetic)
    (hfull : (Tree.node (.operator op) [a, b]).Full) (htidy : (Tree.node (.operator op) [a, b]).Every TidyKind) :
    ¬ IsFormula .strict (Tree.node (.operator op) [a, b]).text t := by
  have hfirm := firm_text hfull htidy
  obtain ⟨_, hfulls⟩ := Tree.full_iff.mp hfull
  obtain ⟨_, htidys⟩ := Tree.every_iff.mp htidy
  have hleft := firm_enclose (.operator op) a.kind (firm_text (hfulls a (by simp)) (htidys a (by simp)))
  have hright := firm_enclose (.operator op) b.kind (firm_text (hfulls b (by simp)) (htidys b (by simp)))
  have hnot : op ≠ .not := by
    rintro rfl
    cases hop
  have htext : (Tree.node (.operator op) [a, b]).text =
      (Tree.enclose (.operator op) a.kind a.text ++ ' ' :: op.symbol.toList) ++
        ' ' :: Tree.enclose (.operator op) b.kind b.text := by
    rw [text_binary hnot]
    simp
  have hforeign := foreign_symbol hleft hop
  rw [htext] at hfirm ⊢
  refine not_isFormula_of_foreign hforeign hright hfirm fun keyword hk => ?_
  have hsymbol : ∀ c ∈ op.symbol.toList, isWordChar c = false := by
    cases op <;> first | decide | cases hop
  have hkey := isKeyword_of_mem hk
  exact unbroken_space hkey hforeign.even
    (unbroken_space hkey hleft.balanced.even (unbroken_child op (hfulls a (by simp)) (htidys a (by simp)) keyword hk)
      (unbroken_of_not_wordChars hkey hsymbol))
    (unbroken_child op (hfulls b (by simp)) (htidys b (by simp)) keyword hk)

/-- An operand of a rendered comparison is a leaf with finite numbers. -/
theorem leaf_of_isOperand (hfull : a.Full) (hd : a.Every DeclaredKind)
    (h : IsOperand (Tree.enclose (.comparator cmp) a.kind a.text) t) :
    ∃ k, a = .node k [] ∧ k.arity = 0 ∧ FiniteKind k := by
  have htidy := hd.imp fun _ => tidyKind_of_declared
  have hfirm := firm_text hfull htidy
  have hnone : Tree.enclose (.comparator cmp) a.kind a.text = '(' :: (a.text ++ [')']) →
      IsOperand a.text t := fun henclosed =>
    h.congr (by rw [henclosed, strip_enclosed hfirm.balanced])
  obtain ⟨k, cs⟩ := a
  obtain ⟨hlen, hfulls⟩ := Tree.full_iff.mp hfull
  obtain ⟨hk, htidys⟩ := Tree.every_iff.mp htidy
  have hchild : ∀ c ∈ cs, Firm (Tree.enclose k c.kind c.text) := fun c hc =>
    firm_enclose k c.kind (firm_text (hfulls c hc) (htidys c hc))
  rcases node_cases hlen with ⟨hleaf, rfl⟩ | ⟨a, rfl, rfl⟩ | ⟨op, a, b, hop, rfl, rfl⟩ | ⟨cmp', a, b, rfl, rfl⟩
  · rw [Tree.kind, enclose_leaf _ hleaf] at h
    exact ⟨k, rfl, hleaf, finiteKind_of_isOperand hleaf (Tree.every_iff.mp hd).1 h⟩
  · have hoperand := hnone rfl
    rw [text_not, List.append_assoc, List.singleton_append] at hoperand
    exact absurd hoperand (not_isOperand_of_foreign foreign_not (hchild a (by simp)).not_blank)
  · have hoperand := hnone rfl
    have hsymbol : Flat op.symbol.toList ∧ op.symbol.toList ≠ [] ∧
        (∀ c ∈ op.symbol.toList.head?, isBlank c = false) ∧ ∀ c ∈ op.symbol.toList.getLast?, isBlank c = false := by
      cases op <;> decide
    rw [text_binary hop] at hoperand
    exact absurd hoperand (not_isOperand_spaced (hchild a (by simp)) hsymbol.1 ⟨hsymbol.2.2.1, hsymbol.2.2.2⟩
      hsymbol.2.1 (hchild b (by simp)))
  · have hoperand := hnone rfl
    have hsymbol : Flat cmp'.symbol.toList ∧ cmp'.symbol.toList ≠ [] ∧
        (∀ c ∈ cmp'.symbol.toList.head?, isBlank c = false) ∧ ∀ c ∈ cmp'.symbol.toList.getLast?, isBlank c = false := by
      cases cmp' <;> decide
    change IsOperand (Tree.compare cmp' a b).text t at hoperand
    rw [text_compare] at hoperand
    exact absurd hoperand (not_isOperand_spaced (hchild a (by simp)) hsymbol.1 ⟨hsymbol.2.2.1, hsymbol.2.2.2⟩
      hsymbol.2.1 (hchild b (by simp)))

/-- A rendered comparison is cut between its own operands. -/
theorem isOperands_of_compare (hfull : (Tree.compare cmp a b).Full)
    (htidy : (Tree.compare cmp a b).Every TidyKind) (h : IsFormula .strict (Tree.compare cmp a b).text t) :
    (∃ u, IsOperand (Tree.enclose (.comparator cmp) a.kind a.text) u) ∧
      ∃ u, IsOperand (Tree.enclose (.comparator cmp) b.kind b.text) u := by
  have hfirm := firm_text hfull htidy
  have hunbroken := unbroken_compare hfull htidy
  obtain ⟨_, hfulls⟩ := Tree.full_iff.mp hfull
  obtain ⟨_, htidys⟩ := Tree.every_iff.mp htidy
  have hleft := inert_child cmp (hfulls a (by simp)) (htidys a (by simp))
  have hblank : Blank [' '] := by decide
  rw [text_compare] at h hfirm hunbroken
  generalize Tree.enclose (.comparator cmp) a.kind a.text = left at h hfirm hunbroken hleft ⊢
  generalize Tree.enclose (.comparator cmp) b.kind b.text = right at h hfirm hunbroken ⊢
  have hshown : left ++ (' ' :: cmp.symbol.toList ++ [' ']) ++ right =
      left ++ ' ' :: (cmp.symbol.toList ++ ' ' :: right) := by simp
  have hstrip := strip_of_firm hfirm hshown hleft.balanced.even (by decide)
  have hpadded : left ++ (' ' :: cmp.symbol.toList ++ [' ']) ++ right =
      (left ++ [' ']) ++ cmp.symbol.toList ++ ' ' :: right := by simp
  have hcut : comparison? (left ++ (' ' :: cmp.symbol.toList ++ [' ']) ++ right) =
      some (left ++ [' '], cmp, ' ' :: right) := by
    rw [hpadded]
    have hspace := hleft.pad blank_nil hblank
    refine comparison?_eq_some hspace.signless hspace.balanced.even (symbol_mem_spellings cmp) fun c hc => ?_
    obtain rfl := Option.some.inj hc
    decide
  obtain ⟨left', cmp', right', u, v, hcut', hu, hv, _⟩ := comparison_of_formula hfirm hstrip hunbroken h
  obtain ⟨rfl, _, rfl⟩ : left ++ [' '] = left' ∧ cmp = cmp' ∧ ' ' :: right = right' := by
    simpa using hcut.symm.trans hcut'
  have hleft' : strip (left ++ [' ']) = strip left := strip_append blank_nil hblank left
  have hright' : strip (' ' :: right) = strip right := by
    have hpad := strip_append hblank blank_nil right
    rwa [List.append_nil] at hpad
  exact ⟨⟨u, (isOperand_of_operand hu).congr hleft'⟩, v, (isOperand_of_operand hv).congr hright'⟩

/-- A formula that is cut under one connective only is read piece by piece. -/
theorem isClauses_of_cut (hop : op = .and ∨ op = .or) (hstrip : strip cs = cs) (hne : cs ≠ [])
    (hcut : Cut (keywordOf op) cs ps) (hlen : 1 < ps.length) (ho : Unbroken (otherOf op) cs)
    (h : IsFormula .strict cs t) : ∃ ts, List.Forall₂ (IsClause .strict) ps ts := by
  have hk := isKeyword_of_mem (keywordOf_mem op)
  have hpieces := (pieces_eq_iff hk).mpr hcut
  have hbroken : ¬ Unbroken (keywordOf op) cs := by
    rw [← length_pieces_iff hk, hpieces]
    exact hlen
  obtain ⟨hword, _, hoccur⟩ := cutWord_of_broken hop hbroken (by rintro rfl; exact ho)
  have hmixed := Bool.eq_false_iff.mpr (mt hoccur.mp (not_not.mpr ho))
  have hmany : 1 < (pieces (cutWord cs) cs).length := by rwa [hword, hpieces]
  have hread := h.formulaRead.read
  rw [outline_joined (by rwa [hstrip]) (by rwa [hstrip]), hstrip, hword, hpieces, hmixed, Outline.tree] at hread
  rw [Bool.false_and, if_neg Bool.false_ne_true] at hread
  obtain ⟨ts, htrees, _⟩ := map_eq_ok hread
  have hor := unbroken_or_of_cut (hword ▸ hcut) hmixed
  have hparts := (List.forall₂_and_left _ _).mpr ⟨hor, trees_eq_ok_iff.mp htrees⟩
  exact ⟨ts, hparts.imp fun p u hp => isClause_of_part hp.1 hp.2 isFormula_of_outline⟩

/-- A text of a formula between white space, or in parentheses, is a formula. -/
theorem IsFormula.congr (he : strip cs = strip ds) (h : IsFormula .strict cs t) : IsFormula .strict ds t :=
  isFormula_of_outline (outline_tree_congr he h.formulaRead.read)

theorem isFormula_of_child (hfirm : Firm a.text)
    (h : IsFormula .strict (Tree.enclose (.operator op) a.kind a.text) t) : IsFormula .strict a.text t := by
  unfold Tree.enclose at h
  split at h
  · exact h.congr (strip_enclosed hfirm.balanced)
  · exact h

/-- Two unbroken texts around a rendered connective are cut at it, and nowhere at the other. -/
theorem cut_connected {left right : List Char} (hop : op = .and ∨ op = .or) (heven : depth left = 0)
    (hleft : ∀ keyword ∈ connectives, Unbroken keyword left)
    (hright : ∀ keyword ∈ connectives, Unbroken keyword right) :
    Cut (keywordOf op) (left ++ (' ' :: op.symbol.toList ++ [' ']) ++ right)
        [left ++ [' '], ' ' :: right] ∧
      Unbroken (otherOf op) (left ++ (' ' :: op.symbol.toList ++ [' ']) ++ right) := by
  have hkey := isKeyword_of_mem (keywordOf_mem op)
  have hotherkey := isKeyword_of_mem (otherOf_mem op)
  have hblank : Blank [' '] := by decide
  have hword : ∀ c ∈ op.symbol.toList, isWordChar c = true := by
    rcases hop with rfl | rfl <;> decide
  have hspelled : upper op.symbol.toList ≠ otherOf op := by
    rcases hop with rfl | rfl <;> decide
  constructor
  · have hpadded : left ++ (' ' :: op.symbol.toList ++ [' ']) ++ right =
        (left ++ [' ']) ++ op.symbol.toList ++ ' ' :: right := by simp
    have h0 : depth (left ++ [' ']) = 0 := by
      rw [depth_append, heven]
      rfl
    have hstart : Unbroken (keywordOf op) (left ++ [' ']) :=
      (unbroken_pad_iff hkey blank_nil hblank heven).mpr (hleft _ (keywordOf_mem op))
    have hend : Unbroken (keywordOf op) (' ' :: right) :=
      unbroken_space hkey rfl (unbroken_nil hkey) (hright _ (keywordOf_mem op))
    rw [hpadded]
    exact .join hstart h0 (connects_symbol hop left right).separates.2 (.whole hend)
  · have hregrouped : left ++ (' ' :: op.symbol.toList ++ [' ']) ++ right =
        (left ++ ' ' :: op.symbol.toList) ++ ' ' :: right := by simp
    have hflat : depth (left ++ ' ' :: op.symbol.toList) = 0 := by
      rw [depth_append, depth_cons, heven, (flat_of_wordChars hword).depth_eq]
      rfl
    have hstart : Unbroken (otherOf op) (left ++ ' ' :: op.symbol.toList) :=
      unbroken_space hotherkey heven (hleft _ (otherOf_mem op)) (unbroken_of_wordChars hword hspelled)
    rw [hregrouped]
    exact unbroken_space hotherkey hflat hstart (hright _ (otherOf_mem op))

/-- A rendered connective is cut between its own operands. -/
theorem isFormulas_of_connected (hop : op = .and ∨ op = .or)
    (hfull : (Tree.node (.operator op) [a, b]).Full) (htidy : (Tree.node (.operator op) [a, b]).Every TidyKind)
    (h : IsFormula .strict (Tree.node (.operator op) [a, b]).text t) :
    (∃ u, IsFormula .strict a.text u) ∧ ∃ u, IsFormula .strict b.text u := by
  have hfirm := firm_text hfull htidy
  obtain ⟨_, hfulls⟩ := Tree.full_iff.mp hfull
  obtain ⟨_, htidys⟩ := Tree.every_iff.mp htidy
  have hfirma := firm_text (hfulls a (by simp)) (htidys a (by simp))
  have hfirmb := firm_text (hfulls b (by simp)) (htidys b (by simp))
  have hunbrokena := unbroken_child op (hfulls a (by simp)) (htidys a (by simp))
  have hunbrokenb := unbroken_child op (hfulls b (by simp)) (htidys b (by simp))
  have heven := (firm_enclose (.operator op) a.kind hfirma).balanced.even
  have hblank : Blank [' '] := by decide
  have hnot : op ≠ .not := by rcases hop with rfl | rfl <;> decide
  suffices hchildren : (∃ u, IsFormula .strict (Tree.enclose (.operator op) a.kind a.text) u) ∧
      ∃ u, IsFormula .strict (Tree.enclose (.operator op) b.kind b.text) u by
    obtain ⟨⟨u, hu⟩, v, hv⟩ := hchildren
    exact ⟨⟨u, isFormula_of_child hfirma hu⟩, v, isFormula_of_child hfirmb hv⟩
  rw [text_binary hnot] at h hfirm
  generalize Tree.enclose (.operator op) a.kind a.text = left at h hfirm hunbrokena heven ⊢
  generalize Tree.enclose (.operator op) b.kind b.text = right at h hfirm hunbrokenb ⊢
  have hshown : left ++ (' ' :: op.symbol.toList ++ [' ']) ++ right =
      left ++ ' ' :: (op.symbol.toList ++ ' ' :: right) := by simp
  have hstrip := strip_of_firm hfirm hshown heven (by decide)
  obtain ⟨hcut, hrest⟩ := cut_connected hop heven hunbrokena hunbrokenb
  obtain ⟨ts, hclauses⟩ := isClauses_of_cut hop hstrip hfirm.ne_nil hcut (by simp) hrest h
  obtain ⟨u, us, hu, hus, rfl⟩ := List.forall₂_cons_left_iff.mp hclauses
  obtain ⟨v, vs, hv, _, rfl⟩ := List.forall₂_cons_left_iff.mp hus
  have hright : strip (' ' :: right) = strip right := by
    have hpad := strip_append hblank blank_nil right
    rwa [List.append_nil] at hpad
  exact ⟨⟨u, hu.isFormula.congr (strip_append blank_nil hblank left)⟩, v, hv.isFormula.congr hright⟩

/-- A rendered tree that strict reading accepts is legible. -/
theorem legible_of_isFormula (hfull : t.Full) (hd : t.Every DeclaredKind) (h : IsFormula .strict t.text u) :
    Legible .strict t := by
  induction t using Tree.induction generalizing u with
  | node k cs ih =>
    have htidy := hd.imp fun _ => tidyKind_of_declared
    obtain ⟨hlen, hfulls⟩ := Tree.full_iff.mp hfull
    obtain ⟨_, hds⟩ := Tree.every_iff.mp hd
    rcases node_cases hlen with ⟨hk, rfl⟩ | ⟨a, rfl, rfl⟩ | ⟨op, a, b, hop, rfl, rfl⟩ | ⟨cmp, a, b, rfl, rfl⟩
    · exact absurd h (not_isFormula_leaf hk (Tree.every_iff.mp htidy).1)
    · exact absurd h (not_isFormula_not hfull htidy)
    · by_cases hfamily : op.family = .arithmetic
      · exact absurd h (not_isFormula_arithmetic hfamily hfull htidy)
      · have hconnective : op = .and ∨ op = .or := by
          cases op <;> first | exact .inl rfl | exact .inr rfl | exact absurd rfl hop | exact absurd rfl hfamily
        obtain ⟨⟨v, hv⟩, w, hw⟩ := isFormulas_of_connected hconnective hfull htidy h
        exact .connected hconnective (ih a (by simp) (hfulls a (by simp)) (hds a (by simp)) hv)
          (ih b (by simp) (hfulls b (by simp)) (hds b (by simp)) hw)
    · obtain ⟨⟨v, hv⟩, w, hw⟩ := isOperands_of_compare hfull htidy h
      obtain ⟨k, rfl, hk, hfk⟩ := leaf_of_isOperand (hfulls a (by simp)) (hds a (by simp)) hv
      obtain ⟨l, rfl, hl, hfl⟩ := leaf_of_isOperand (hfulls b (by simp)) (hds b (by simp)) hw
      exact .comparison hk hl hfk hfl

/-- Whatever goes wrong is a problem with the text of the formula. -/
def Blames {α : Type} (r : Except Problem α) : Prop := ∀ p, r = .error p → ∃ reason, p = .formula reason

theorem blames_ok {α : Type} (x : α) : Blames (.ok x) := by
  intro p h
  cases h

theorem blames_formula {α : Type} (reason : String) : Blames (.error (.formula reason) : Except Problem α) := by
  intro p h
  cases h
  exact ⟨reason, rfl⟩

theorem Blames.bind {α β : Type} {r : Except Problem α} {f : α → Except Problem β} (hr : Blames r)
    (hf : ∀ x, Blames (f x)) : Blames (r >>= f) := by
  cases r with
  | error p =>
    intro p' h
    cases h
    exact hr p rfl
  | ok x => exact hf x

variable {mode : Mode}

theorem blames_fallback (reason : String) : Blames (fallback mode reason cs) := by
  cases mode with
  | strict => exact blames_formula _
  | lenient => exact blames_ok _

theorem blames_storeArguments (args : List (List Char)) (position : Nat) (params : Table Float) :
    Blames (storeArguments mode i params position args) := by
  induction args generalizing position params with
  | nil => exact blames_ok _
  | cons arg args ih =>
    refine Blames.bind ?_ fun stored => ih _ _
    unfold storeArgument
    split
    · exact blames_formula _
    · exact blames_ok _
    · split
      · exact blames_ok _
      · exact blames_formula _
      · exact blames_ok _

theorem blames_operand (cs : List Char) : Blames (operand mode cs) := by
  unfold operand
  dsimp only
  split
  · exact blames_fallback _
  · split
    · exact blames_ok _
    · exact blames_ok _
    · unfold indicatorCall
      split
      · exact blames_fallback _
      · exact (blames_storeArguments _ _ _).bind fun _ => blames_ok _
    · exact blames_fallback _

theorem blames_clause (source cs : List Char) : Blames (clause mode source cs) := by
  unfold clause
  split
  · exact blames_fallback _
  · split
    · exact (blames_operand _).bind fun _ => (blames_operand _).bind fun _ => blames_ok _
    · exact blames_formula _
    · exact blames_operand _

mutual
theorem blames_tree : ∀ o : Outline, Blames (o.tree mode)
  | .blank source => blames_fallback _
  | .clause source inner => blames_clause source inner
  | .joined source mixed op parts => by
    unfold Outline.tree
    split
    · exact blames_formula _
    · exact (blames_trees parts).bind fun _ => blames_ok _
theorem blames_trees : ∀ os : List Outline, Blames (Outline.trees mode os)
  | [] => blames_ok _
  | o :: os => (blames_tree o).bind fun _ => (blames_trees os).bind fun _ => blames_ok _
end

/-- Strict reading gives a rendered tree back where it is built from connectives over comparisons of
leaves with finite numbers, and rejects the text of every other tree. -/
theorem parse_strict_formula (hfull : t.Full) (hd : t.Every DeclaredKind) :
    (Legible .strict t → ∃ u, parse .strict t.formula = .ok u ∧ (u == t) = true) ∧
      (¬ Legible .strict t → ∃ reason, parse .strict t.formula = .error (.formula reason)) := by
  constructor
  · intro h
    obtain ⟨u, hformula, _, hequal⟩ := h.read (hd.imp fun _ => tidyKind_of_declared)
    refine ⟨u, ?_, hequal⟩
    rw [parse, Tree.formula, String.toList_ofList]
    exact hformula.formulaRead.read
  · intro h
    cases hparse : parse .strict t.formula with
    | ok u =>
      rw [parse, Tree.formula, String.toList_ofList] at hparse
      exact absurd (legible_of_isFormula hfull hd (isFormula_of_outline hparse)) h
    | error p =>
      obtain ⟨reason, rfl⟩ := blames_tree _ p hparse
      exact ⟨reason, rfl⟩

/-- Both cases occur: the comparison is read and its negation is not. -/
theorem parse_strict_formula_negation :
    let crossing := Tree.compare .greater (Tree.series .close)
      (Tree.indicator .simpleAverage Indicator.simpleAverage.defaults)
    ((Tree.negation crossing).Full ∧ (Tree.negation crossing).Every DeclaredKind) ∧
      (∃ u, parse .strict crossing.formula = .ok u ∧ (u == crossing) = true) ∧
      ∃ reason, parse .strict (Tree.negation crossing).formula = .error (.formula reason) := by
  intro crossing
  have hfull : crossing.Full := ⟨rfl, ⟨rfl, trivial⟩, ⟨rfl, trivial⟩, trivial⟩
  have hdeclared : Declares .simpleAverage Indicator.simpleAverage.defaults := by
    intro key
    have hspecs : (Indicator.simpleAverage.specs (α := Float)) = [.period 20] := rfl
    have hname : (ParamSpec.period (α := Float) 20).name = "period" := rfl
    have hentries : (Indicator.simpleAverage.defaults (α := Float)).entries = [("period", Float.ofNat 20)] := rfl
    rw [Table.contains, Table.find?, hentries, hspecs]
    simp [Entries.find?, hname]
  have hd : crossing.Every DeclaredKind := by
    refine Tree.every_iff.mpr ⟨trivial, fun c hc => ?_⟩
    rcases List.mem_pair.mp hc with rfl | rfl
    · exact Tree.every_iff.mpr ⟨trivial, by simp⟩
    · exact Tree.every_iff.mpr ⟨⟨.simpleAverage, rfl, hdeclared⟩, by simp⟩
  have hfull' : (Tree.negation crossing).Full := ⟨rfl, hfull, trivial⟩
  have hd' : (Tree.negation crossing).Every DeclaredKind := Tree.every_iff.mpr ⟨trivial, by simpa using hd⟩
  have hlegible : Legible .strict crossing := by
    refine .comparison rfl rfl trivial ?_
    change ∀ e ∈ [("period", Float.ofNat 20)], e.2.isFinite = true
    decide +kernel
  have hnot : ¬ Legible .strict (Tree.negation crossing) := by
    intro h
    generalize ht : Tree.negation crossing = t at h
    cases h with
    | comparison => cases ht
    | leaf hm => cases hm
    | connected => cases ht
  exact ⟨⟨hfull', hd'⟩, (parse_strict_formula hfull hd).1 hlegible, (parse_strict_formula hfull' hd').2 hnot⟩

end SignalEvolution.Formula

import SignalEvolution.Proofs.Formula.Call
import SignalEvolution.Proofs.Formula.Language
import SignalEvolution.Proofs.Indicator.Names
import SignalEvolution.Proofs.Tree.Structure
import SignalEvolution.Tree.Formula

/-! # Formulas of trees

The text of a tree is balanced and neither begins nor ends with white space or a sign.
Trees of connectives over comparisons are read back from their formulas; lenient
reading also finds the leaves that stand for themselves.
-/
namespace SignalEvolution.Formula
open Text

/-- Calls store all their declared parameters, and the other keys are plain. -/
def TidyKind : Kind → Prop
  | .indicator name params => ∃ i : Indicator, i.mnemonic = name ∧ Tidy i params
  | _ => True

/-- All numbers of a node are finite. -/
def FiniteKind : Kind → Prop
  | .constant x => x.isFinite = true
  | .indicator _ params => ∀ e ∈ params.entries, e.2.isFinite = true
  | _ => True

/-- Connectives over comparisons of two leaves, all numbers finite. In lenient mode a leaf may stand
for a comparison. -/
inductive Legible (mode : Mode) : Tree → Prop
  | comparison {cmp k l} : k.arity = 0 → l.arity = 0 → FiniteKind k → FiniteKind l →
      Legible mode (Tree.compare cmp (.node k []) (.node l []))
  | leaf {k} : mode = .lenient → k.arity = 0 → FiniteKind k → Legible mode (.node k [])
  | connected {op a b} : op = .and ∨ op = .or → Legible mode a → Legible mode b →
      Legible mode (.node (.operator op) [a, b])

variable {mode : Mode} {cs ds mid : List Char} {k l : Kind} {a b t : Tree} {op : Operator}
variable {cmp : Comparator} {i : Indicator} {params : Table Float}

/-- A balanced text between characters that are neither blank nor signs. -/
structure Firm (cs : List Char) : Prop where
  balanced : Balanced cs
  front : ∃ c rest, cs = c :: rest ∧ isBlank c = false ∧ isSign c = false
  back : ∃ rest c, cs = rest ++ [c] ∧ isBlank c = false ∧ isSign c = false
  shows : ∃ c ∈ cs, isBlank c = false ∧ c ≠ '(' ∧ c ≠ ')'

theorem Firm.ne_nil (h : Firm cs) : cs ≠ [] := by
  obtain ⟨c, rest, rfl, _⟩ := h.front
  simp

theorem Firm.trimmed (h : Firm cs) : Trimmed cs := by
  refine ⟨fun c hc => ?_, fun c hc => ?_⟩
  · obtain ⟨d, rest, rfl, hd, _⟩ := h.front
    obtain rfl := Option.some.inj hc
    exact hd
  · obtain ⟨rest, d, rfl, hd, _⟩ := h.back
    rw [List.getLast?_concat] at hc
    obtain rfl := Option.some.inj hc
    exact hd

theorem not_shows_of_strip (h : strip cs = []) : ∀ c ∈ cs, isBlank c = true ∨ c = '(' ∨ c = ')' := by
  apply of_strip (P := fun cs => ∀ c ∈ cs, isBlank c = true ∨ c = '(' ∨ c = ')')
  · intro l cs r hl hr hcs c hc
    rcases List.mem_append.mp hc with hc | hc
    · rcases List.mem_append.mp hc with hc | hc
      · exact .inl (hl c hc)
      · exact hcs c hc
    · exact .inl (hr c hc)
  · intro cs _ hcs c hc
    rcases List.mem_cons.mp hc with rfl | hc
    · exact .inr (.inl rfl)
    · rcases List.mem_append.mp hc with hc | hc
      · exact hcs c hc
      · exact .inr (.inr (List.mem_singleton.mp hc))
  · rw [h]
    exact fun c hc => absurd hc List.not_mem_nil

theorem Firm.visible (h : Firm cs) : strip cs ≠ [] := by
  intro hnil
  obtain ⟨c, hc, hblank, hopen, hclose⟩ := h.shows
  rcases not_shows_of_strip hnil c hc with hb | hb | hb
  · rw [hb] at hblank
    cases hblank
  · exact hopen hb
  · exact hclose hb

theorem firm_of_forall (hne : cs ≠ [])
    (h : ∀ c ∈ cs, isBlank c = false ∧ isSign c = false ∧ c ≠ '(' ∧ c ≠ ')') : Firm cs := by
  have hflat : Flat cs := fun c hc => (h c hc).2.2
  obtain ⟨c, rest, hcons⟩ := List.exists_cons_of_ne_nil hne
  have hfront := h c (hcons ▸ List.mem_cons_self)
  have hback := h (cs.getLast hne) (List.getLast_mem hne)
  refine ⟨hflat.balanced, ⟨c, rest, hcons, hfront.1, hfront.2.1⟩, ?_, ⟨c, ?_, hfront.1, hfront.2.2⟩⟩
  · exact ⟨cs.dropLast, cs.getLast hne, (List.dropLast_append_getLast hne).symm, hback.1, hback.2.1⟩
  · rw [hcons]
    exact List.mem_cons_self

theorem Firm.enclosed (h : Firm cs) : Firm ('(' :: (cs ++ [')'])) where
  balanced := h.balanced.enclosed
  front := ⟨'(', _, rfl, by decide, by decide⟩
  back := ⟨'(' :: cs, ')', rfl, by decide, by decide⟩
  shows := by
    obtain ⟨c, hc, hrest⟩ := h.shows
    exact ⟨c, List.mem_cons_of_mem _ (List.mem_append_left _ hc), hrest⟩

theorem Firm.append (hc : Firm cs) (hm : Balanced mid) (hd : Firm ds) : Firm (cs ++ mid ++ ds) where
  balanced := (hc.balanced.append hm).append hd.balanced
  front := by
    obtain ⟨c, rest, rfl, h⟩ := hc.front
    exact ⟨c, _, rfl, h⟩
  back := by
    obtain ⟨rest, c, rfl, h⟩ := hd.back
    exact ⟨cs ++ mid ++ rest, c, (List.append_assoc _ _ _).symm, h⟩
  shows := by
    obtain ⟨c, hc, h⟩ := hc.shows
    exact ⟨c, List.mem_append_left _ (List.mem_append_left _ hc), h⟩

theorem Firm.call (h : Firm cs) (ha : Flat ds) : Firm (cs ++ '(' :: (ds ++ [')'])) where
  balanced := h.balanced.append ha.balanced.enclosed
  front := by
    obtain ⟨c, rest, rfl, hc⟩ := h.front
    exact ⟨c, _, rfl, hc⟩
  back := ⟨cs ++ '(' :: ds, ')', by simp, by decide, by decide⟩
  shows := by
    obtain ⟨c, hc, hrest⟩ := h.shows
    exact ⟨c, List.mem_append_left _ hc, hrest⟩

/-- A firm text in parentheses shows nothing outside them. -/
theorem Firm.inert_enclosed (h : Firm cs) : Inert ('(' :: (cs ++ [')'])) where
  balanced := h.balanced.enclosed
  unbroken _ hk := unbroken_enclosed (isKeyword_of_mem hk) h.balanced
  signless := signless_enclosed h.balanced
  visible := h.enclosed.visible

theorem flat_intercalate {args : List (List Char)} (h : ∀ arg ∈ args, Flat arg) :
    Flat ([','].intercalate args) := by
  have hcomma : Flat [','] := by decide
  induction args with
  | nil => exact fun c hc => absurd hc List.not_mem_nil
  | cons arg args ih =>
    obtain ⟨harg, hargs⟩ := List.forall_mem_cons.mp h
    cases args with
    | nil =>
      rw [List.intercalate_singleton]
      exact harg
    | cons next args =>
      rw [List.intercalate_cons_cons]
      exact (harg.append hcomma).append (ih hargs)

theorem flat_numberText (x : Float) : Flat (numberText x).toList :=
  fun c hc => ⟨((numberText_spec x).2 c hc).2.2.1, ((numberText_spec x).2 c hc).2.2.2.1⟩

theorem flat_arguments (h : Tidy i params) : Flat ([','].intercalate
    (((i.specs (α := Float)).map fun s => (numberText (s.stored params)).toList) ++
      (others i params).map fun e => (e.1 ++ "=" ++ numberText e.2).toList)) := by
  have hequal : Flat "=".toList := by decide
  apply flat_intercalate
  intro arg harg
  rcases List.mem_append.mp harg with harg | harg
  · obtain ⟨s, _, rfl⟩ := List.mem_map.mp harg
    exact flat_numberText _
  · obtain ⟨e, he, rfl⟩ := List.mem_map.mp harg
    have hkey : Flat e.1.toList := fun c hc =>
      ⟨((h.plain e he).clear c hc).1, ((h.plain e he).clear c hc).2.1⟩
    rw [String.toList_append, String.toList_append]
    exact (hkey.append hequal).append (flat_numberText _)

theorem lower_name (s : Series) : lower s.name.toList = s.name.toList := by
  cases s <;> decide

theorem series_chars (s : Series) : s.name.toList ≠ [] ∧
    ∀ c ∈ s.name.toList, isBlank c = false ∧ isSign c = false ∧ c ≠ '(' ∧ c ≠ ')' := by
  cases s <;> decide

theorem mnemonic_chars (i : Indicator) : i.mnemonic.toList ≠ [] ∧
    ∀ c ∈ i.mnemonic.toList, isBlank c = false ∧ isSign c = false ∧ c ≠ '(' ∧ c ≠ ')' := by
  cases i <;> decide

theorem text_indicator (i : Indicator) (params : Table Float) : (Tree.indicator i params).text =
    (Indicator.callText i.mnemonic i.specs params fun s => s.stored params).toList :=
  congrArg String.toList (Indicator.formulaCall_mnemonic i params)

theorem inert_leaf (hk : k.arity = 0) (ht : TidyKind k) : Inert (Tree.node k []).text := by
  cases k with
  | operator op => cases op <;> cases hk
  | comparator cmp => cases hk
  | indicator name params =>
    obtain ⟨i, rfl, ht⟩ := ht
    change Inert (Tree.indicator i params).text
    rw [text_indicator, toList_callText]
    exact inert_call rfl blank_nil (flat_arguments ht)
  | constant x => exact inert_numberText x
  | series s => exact (IsOperand.series (lower_name s)).inert

theorem firm_leaf (hk : k.arity = 0) (ht : TidyKind k) : Firm (Tree.node k []).text := by
  cases k with
  | operator op => cases op <;> cases hk
  | comparator cmp => cases hk
  | indicator name params =>
    obtain ⟨i, rfl, ht⟩ := ht
    change Firm (Tree.indicator i params).text
    rw [text_indicator, toList_callText, List.append_nil]
    exact (firm_of_forall (mnemonic_chars i).1 (mnemonic_chars i).2).call (flat_arguments ht)
  | constant x =>
    exact firm_of_forall (numberText_spec x).1 fun c hc =>
      ⟨((numberText_spec x).2 c hc).1, ((numberText_spec x).2 c hc).2.1, flat_numberText x c hc⟩
  | series s => exact firm_of_forall (series_chars s).1 (series_chars s).2

/-- A leaf whose numbers are finite is read back from its text. -/
theorem isOperand_leaf (hk : k.arity = 0) (ht : TidyKind k) (hf : FiniteKind k) :
    ∃ l, IsOperand (Tree.node k []).text (.node l []) ∧ (l == k) = true := by
  cases k with
  | operator op => cases op <;> cases hk
  | comparator cmp => cases hk
  | indicator name params =>
    obtain ⟨i, rfl, ht⟩ := ht
    obtain ⟨stored, hoperand, hequal⟩ := isOperand_callText ht hf
    rw [← text_indicator] at hoperand
    refine ⟨.indicator i.mnemonic stored, hoperand, ?_⟩
    change (i.mnemonic == i.mnemonic && stored == params) = true
    rw [hequal]
    simp
  | constant x =>
    obtain ⟨y, hy, hequal⟩ := Binary.finite?_numberText hf
    exact ⟨.constant y, .number hy, hequal⟩
  | series s =>
    refine ⟨.series s, .series (lower_name s), ?_⟩
    change (s == s) = true
    simp

theorem text_binary (hop : op ≠ .not) (a b : Tree) : (Tree.node (.operator op) [a, b]).text =
    Tree.enclose (.operator op) a.kind a.text ++ (' ' :: op.symbol.toList ++ [' ']) ++
      Tree.enclose (.operator op) b.kind b.text := by
  cases op
  case not => exact absurd rfl hop
  all_goals simp [Tree.text, Tree.childTexts, Tree.assemble, List.intercalate_cons_cons]

theorem text_not (a : Tree) : (Tree.node (.operator .not) [a]).text =
    ['N', 'O', 'T'] ++ [' '] ++ Tree.enclose (.operator .not) a.kind a.text := by
  simp [Tree.text, Tree.childTexts, Tree.assemble]

theorem text_compare (cmp : Comparator) (a b : Tree) : (Tree.compare cmp a b).text =
    Tree.enclose (.comparator cmp) a.kind a.text ++ (' ' :: cmp.symbol.toList ++ [' ']) ++
      Tree.enclose (.comparator cmp) b.kind b.text := by
  simp [Tree.compare, Tree.text, Tree.childTexts, Tree.assemble, List.intercalate_cons_cons]

theorem firm_enclose (k l : Kind) (h : Firm cs) : Firm (Tree.enclose k l cs) := by
  unfold Tree.enclose
  split
  · exact h.enclosed
  · exact h

theorem balanced_operator (op : Operator) : Balanced (' ' :: op.symbol.toList ++ [' ']) := by
  have hflat : Flat (' ' :: op.symbol.toList ++ [' ']) := by
    cases op <;> decide
  exact hflat.balanced

theorem balanced_comparator (cmp : Comparator) : Balanced (' ' :: cmp.symbol.toList ++ [' ']) := by
  have hflat : Flat (' ' :: cmp.symbol.toList ++ [' ']) := by
    cases cmp <;> decide
  exact hflat.balanced

/-- A full node is a leaf, a negation, an operator between two operands or a comparison. -/
theorem node_cases {cs : List Tree} (h : cs.length = k.arity) :
    (k.arity = 0 ∧ cs = []) ∨ (∃ a, k = .operator .not ∧ cs = [a]) ∨
      (∃ op a b, op ≠ .not ∧ k = .operator op ∧ cs = [a, b]) ∨
      ∃ cmp a b, k = .comparator cmp ∧ cs = [a, b] := by
  have htwo : ∀ n, n = 2 → cs.length = n → ∃ a b, cs = [a, b] := by
    rintro n rfl hlen
    exact List.length_eq_two.mp hlen
  cases k with
  | operator op =>
    by_cases hop : op = .not
    · subst hop
      obtain ⟨a, rfl⟩ := List.length_eq_one_iff.mp h
      exact .inr (.inl ⟨a, rfl, rfl⟩)
    · obtain ⟨a, b, rfl⟩ := htwo op.arity (by cases op <;> first | rfl | exact absurd rfl hop) h
      exact .inr (.inr (.inl ⟨op, a, b, hop, rfl, rfl⟩))
  | comparator cmp =>
    obtain ⟨a, b, rfl⟩ := htwo 2 rfl h
    exact .inr (.inr (.inr ⟨cmp, a, b, rfl, rfl⟩))
  | indicator i params => exact .inl ⟨rfl, List.length_eq_zero_iff.mp h⟩
  | constant x => exact .inl ⟨rfl, List.length_eq_zero_iff.mp h⟩
  | series s => exact .inl ⟨rfl, List.length_eq_zero_iff.mp h⟩

theorem firm_text (hfull : t.Full) (htidy : t.Every TidyKind) : Firm t.text := by
  induction t using Tree.induction with
  | node k cs ih =>
    obtain ⟨hlen, hfull⟩ := Tree.full_iff.mp hfull
    obtain ⟨hk, htidy⟩ := Tree.every_iff.mp htidy
    have hchild : ∀ c ∈ cs, Firm (Tree.enclose k c.kind c.text) := fun c hc =>
      firm_enclose k c.kind (ih c hc (hfull c hc) (htidy c hc))
    rcases node_cases hlen with ⟨hleaf, rfl⟩ | ⟨a, rfl, rfl⟩ | ⟨op, a, b, hop, rfl, rfl⟩ | ⟨cmp, a, b, rfl, rfl⟩
    · exact firm_leaf hleaf hk
    · have hblank : Balanced [' '] := (flat_of_blank (by decide)).balanced
      rw [text_not]
      exact (firm_of_forall (by decide) (by decide)).append hblank (hchild a (by simp))
    · rw [text_binary hop]
      exact (hchild a (by simp)).append (balanced_operator op) (hchild b (by simp))
    · exact text_compare cmp a b ▸
        (hchild a (by simp)).append (balanced_comparator cmp) (hchild b (by simp))

theorem enclose_leaf (k : Kind) (hl : l.arity = 0) (cs : List Char) : Tree.enclose k l cs = cs := by
  cases l with
  | operator op => cases op <;> cases hl
  | comparator cmp => cases hl
  | _ => cases k <;> rfl

theorem symbol_mem_spellings (cmp : Comparator) : cmp.symbol.toList ∈ spellings cmp := by
  cases cmp <;> decide

theorem connects_symbol (hop : op = .and ∨ op = .or) (cs ds : List Char) :
    Connects op (cs ++ [' ']) op.symbol.toList (' ' :: ds) := by
  have hbefore : ∀ c ∈ (cs ++ [' ']).getLast?, isWordChar c = false := by
    intro c hc
    rw [List.getLast?_concat] at hc
    obtain rfl := Option.some.inj hc
    decide
  have hafter : ∀ c ∈ (' ' :: ds).head?, isWordChar c = false := by
    intro c hc
    obtain rfl := Option.some.inj hc
    decide
  rcases hop with rfl | rfl
  · exact .inl ⟨rfl, by decide, hbefore, hafter⟩
  · exact .inr ⟨rfl, by decide, hbefore, hafter⟩

theorem IsOperand.padEnd (h : IsOperand cs t) : IsOperand (cs ++ [' ']) t :=
  .padded blank_nil (by decide) h

theorem IsOperand.padStart (h : IsOperand cs t) : IsOperand (' ' :: cs) t := by
  have hpad : IsOperand ([' '] ++ cs ++ []) t := .padded (by decide) blank_nil h
  rwa [List.append_nil] at hpad

theorem IsClause.padEnd (h : IsClause mode cs t) : IsClause mode (cs ++ [' ']) t :=
  .padded blank_nil (by decide) h

theorem IsClause.padStart (h : IsClause mode cs t) : IsClause mode (' ' :: cs) t := by
  have hpad : IsClause mode ([' '] ++ cs ++ []) t := .padded (by decide) blank_nil h
  rwa [List.append_nil] at hpad

theorem IsClause.isFormula (h : IsClause mode cs t) : IsFormula mode cs t := by
  have hjoined : IsJoined mode .and cs [t] := .one h
  exact .joined hjoined

theorem beq_leaf (h : (k == l) = true) : (Tree.node k [] == Tree.node l []) = true := by
  change (k == l && true) = true
  rw [h]
  rfl

theorem isClause_compare (mode : Mode) (cmp : Comparator) (hk : k.arity = 0) (hl : l.arity = 0) (htk : TidyKind k) (htl : TidyKind l)
    (hfk : FiniteKind k) (hfl : FiniteKind l) :
    ∃ u, IsClause mode (Tree.compare cmp (.node k []) (.node l [])).text u ∧
      (u == Tree.compare cmp (.node k []) (.node l [])) = true := by
  obtain ⟨k', hleft, hkeq⟩ := isOperand_leaf hk htk hfk
  obtain ⟨l', hright, hleq⟩ := isOperand_leaf hl htl hfl
  refine ⟨Tree.compare cmp (.node k' []) (.node l' []), ?_, ?_⟩
  · have hclause : IsClause mode _ (Tree.compare cmp (.node k' []) (.node l' [])) :=
      .comparison hleft.padEnd (symbol_mem_spellings cmp) hright.padStart
    rw [text_compare, Tree.kind, Tree.kind, enclose_leaf _ hk, enclose_leaf _ hl]
    simpa using hclause
  · have hcmp : (Kind.comparator cmp == Kind.comparator cmp) = true := by
      change (cmp == cmp) = true
      simp
    exact Tree.same_pair hcmp (beq_leaf hkeq) (beq_leaf hleq)

/-- A legible tree is read back from its formula, alone and under a connective. -/
theorem Legible.read (h : Legible mode t) (ht : t.Every TidyKind) :
    ∃ u, IsFormula mode t.text u ∧ (∀ op, IsClause mode (Tree.enclose (.operator op) t.kind t.text) u) ∧
      (u == t) = true := by
  induction h with
  | @comparison cmp k l hk hl hfk hfl =>
    obtain ⟨_, hleaves⟩ := Tree.every_iff.mp ht
    have htk : TidyKind k := (Tree.every_iff.mp (hleaves (.node k []) (by simp))).1
    have htl : TidyKind l := (Tree.every_iff.mp (hleaves (.node l []) (by simp))).1
    obtain ⟨u, hclause, hequal⟩ := isClause_compare mode cmp hk hl htk htl hfk hfl
    exact ⟨u, hclause.isFormula, fun _ => hclause, hequal⟩
  | @leaf k hm hk hf =>
    obtain ⟨l, hoperand, hequal⟩ := isOperand_leaf hk (Tree.every_iff.mp ht).1 hf
    refine ⟨.node l [], IsClause.isFormula (.bare hm hoperand), fun op => ?_, beq_leaf hequal⟩
    rw [Tree.kind, enclose_leaf _ hk]
    exact .bare hm hoperand
  | @connected op a b hop _ _ iha ihb =>
    obtain ⟨_, hchildren⟩ := Tree.every_iff.mp ht
    obtain ⟨u, _, hu, huequal⟩ := iha (hchildren a (by simp))
    obtain ⟨v, _, hv, hvequal⟩ := ihb (hchildren b (by simp))
    have hnot : op ≠ .not := by rcases hop with rfl | rfl <;> decide
    have hjoined : IsJoined mode op _ [u, v] :=
      .more (hu op).padEnd (connects_symbol hop _ _) (.one (hv op).padStart)
    have hformula : IsFormula mode (Tree.node (.operator op) [a, b]).text (join op [u, v]) := by
      rw [text_binary hnot]
      have hread : IsFormula mode _ (join op [u, v]) := .joined hjoined
      simpa using hread
    refine ⟨join op [u, v], hformula, fun outer => ?_, ?_⟩
    · have henclosed : Tree.enclose (.operator outer) (.operator op) (Tree.node (.operator op) [a, b]).text =
          '(' :: ((Tree.node (.operator op) [a, b]).text ++ [')']) := rfl
      rw [Tree.kind, henclosed]
      exact .enclosed hformula
    · have hkind : (Kind.operator op == Kind.operator op) = true := by
        change (op == op) = true
        simp
      exact Tree.same_pair hkind huequal hvequal

end SignalEvolution.Formula

import SignalEvolution.Proofs.Arithmetic.Equality
import SignalEvolution.Proofs.Formula.Words
import SignalEvolution.Proofs.Tree.Arity

/-! # Formulas tell trees apart

Trees with the same formula are equal, zeros of either sign being the same: the words of a
formula show the root, and the operands are found between its signs. Equal trees have the same
formula in turn.
-/
namespace SignalEvolution.Formula
open Text

variable {cs : List Char} {k l : Kind} {a b c d t u : Tree} {op op' : Operator} {cmp cmp' : Comparator}
variable {i j : Indicator} {name : String} {params others : Table Float}

inductive Shape where
  | leaf
  | negation
  | joined
  | comparison

namespace Shape

def ofKind : Kind → Shape
  | .operator .not => negation
  | .operator _ => joined
  | .comparator _ => comparison
  | _ => leaf

/-- What the words of a tree show of its root. -/
def ofWords : List (List Char) → Shape
  | [_] => leaf
  | [_, _] | [_, _, _, _] => negation
  | [_, sign, _] => if Comparator.all.any fun cmp => cmp.symbol.toList == sign then comparison else joined
  | _ => joined

end Shape

/-- Below an operator there are one or three words, and of three the second is a comparator. -/
theorem operand_words (op : Operator) (hfull : a.Full) (htidy : a.Every TidyKind) :
    (∃ w, words (Tree.enclose (.operator op) a.kind a.text) = [w]) ∨
      ∃ w, ∃ cmp : Comparator, ∃ w',
        words (Tree.enclose (.operator op) a.kind a.text) = [w, cmp.symbol.toList, w'] := by
  rcases operand_cases op hfull htidy with hword | ⟨cmp, x, y, rfl, htext⟩
  · exact .inl ⟨_, hword.single⟩
  · rw [htext, words_compare hfull htidy]
    exact .inr ⟨_, cmp, _, rfl⟩

theorem shape_words (hfull : t.Full) (htidy : t.Every TidyKind) :
    Shape.ofWords (words t.text) = Shape.ofKind t.kind := by
  obtain ⟨k, cs⟩ := t
  obtain ⟨hlength, hfulls⟩ := Tree.full_iff.mp hfull
  obtain ⟨hk, htidys⟩ := Tree.every_iff.mp htidy
  rcases node_cases hlength with
    ⟨hleaf, rfl⟩ | ⟨a, rfl, rfl⟩ | ⟨op, a, b, hop, rfl, rfl⟩ | ⟨cmp, a, b, rfl, rfl⟩
  · rw [(word_leaf hleaf hk).single, Tree.kind]
    cases k with
    | operator op => cases op <;> cases hleaf
    | comparator cmp => cases hleaf
    | _ => rfl
  · have hwords := words_not a
    rw [Tree.negation] at hwords
    rw [hwords]
    rcases operand_words .not (hfulls a (by simp)) (htidys a (by simp)) with ⟨w, hw⟩ | ⟨w, cmp, w', hw⟩
    · rw [hw]; rfl
    · rw [hw]; rfl
  · have hsign : (Comparator.all.any fun cmp => cmp.symbol.toList == op.symbol.toList) = false := by
      cases op <;> decide
    have hjoined : Shape.ofKind (.operator op) = .joined := by
      cases op <;> first | rfl | exact absurd rfl hop
    rw [words_binary hop (hfulls a (by simp)) (htidys a (by simp)), Tree.kind, hjoined]
    rcases operand_words op (hfulls a (by simp)) (htidys a (by simp)) with ⟨w, hw⟩ | ⟨w, cmp, w', hw⟩ <;>
      rcases operand_words op (hfulls b (by simp)) (htidys b (by simp)) with ⟨v, hv⟩ | ⟨v, cmp', v', hv⟩ <;>
      rw [hw, hv]
    · change (if _ then Shape.comparison else Shape.joined) = _
      rw [hsign]
      rfl
    · rfl
    · rfl
    · rfl
  · have hsign : (Comparator.all.any fun other => other.symbol.toList == cmp.symbol.toList) = true := by
      cases cmp <;> decide
    have hwords := words_compare hfull htidy
    rw [Tree.compare] at hwords
    rw [hwords]
    change (if _ then Shape.comparison else Shape.joined) = _
    rw [hsign]
    rfl

/-- All numbers of a node are numbers. -/
def NumericKind : Kind → Prop
  | .constant x => x.isNaN = false
  | .indicator _ params => ∀ e ∈ params.entries, e.2.isNaN = false
  | _ => True

theorem text_declared (h : Declares i params) : (Tree.indicator i params).text = i.mnemonic.toList ++
    '(' :: ([','].intercalate ((i.specs (α := Float)).map fun s => (numberText (s.stored params)).toList) ++
      [')']) := by
  rw [text_indicator, toList_callText, others_of_declared h, List.map_nil, List.append_nil, List.append_nil]

/-- Arguments without commas are found again, whatever comes after them. -/
theorem take_splitOn_intercalate {args : List (List Char)} (h : ∀ arg ∈ args, ',' ∉ arg)
    (rest : List (List Char)) : (splitOn ',' ([','].intercalate (args ++ rest))).take args.length = args := by
  induction args with
  | nil => rfl
  | cons arg args ih =>
    obtain ⟨harg, hargs⟩ := List.forall_mem_cons.mp h
    rw [List.cons_append]
    cases hmore : args ++ rest with
    | nil =>
      obtain ⟨rfl, -⟩ := List.append_eq_nil_iff.mp hmore
      rw [List.intercalate_singleton, splitOn_of_not_mem harg]
      rfl
    | cons next more =>
      rw [List.intercalate_cons_cons, List.append_assoc, List.singleton_append, splitOn_append harg,
        ← hmore, List.length_cons, List.take_succ_cons, ih hargs]

theorem comma_not_mem_numberText (x : Float) : ',' ∉ (numberText x).toList := fun hc =>
  ((numberText_spec x).2 _ hc).2.2.2.2.1 rfl

/-- Two calls with the same text show the same numbers for the declared parameters. -/
theorem numberText_of_callText {name : String} {specs : List (ParamSpec Float)} {f g : ParamSpec Float → Float}
    (h : Indicator.callText name specs params f = Indicator.callText name specs others g) :
    ∀ s ∈ specs, numberText (f s) = numberText (g s) := by
  have htake : ∀ (f : ParamSpec Float → Float) (rest : List (List Char)),
      (splitOn ',' ([','].intercalate ((specs.map fun s => (numberText (f s)).toList) ++ rest))).take
        specs.length = specs.map fun s => (numberText (f s)).toList := by
    intro f rest
    have hcomma : ∀ arg ∈ specs.map fun s => (numberText (f s)).toList, ',' ∉ arg := by
      intro arg harg
      obtain ⟨s, -, rfl⟩ := List.mem_map.mp harg
      exact comma_not_mem_numberText _
    have hargs := take_splitOn_intercalate hcomma rest
    rwa [List.length_map] at hargs
  have htext := congrArg String.toList h
  rw [toList_call, toList_call] at htext
  have hargs := List.append_cancel_right (List.cons.inj (List.append_cancel_left htext)).2
  have hlist := congrArg (fun cs => (splitOn ',' cs).take specs.length) hargs
  simp only [htake] at hlist
  intro s hs
  exact String.toList_inj.mp (List.map_inj_left.mp hlist s hs)

theorem stored_isNaN (hd : Declares i params) (hn : ∀ e ∈ params.entries, e.2.isNaN = false)
    {s : ParamSpec Float} (hs : s ∈ i.specs) : (s.stored params).isNaN = false := by
  have hcontains := (hd s.name).mpr ⟨s, hs, rfl⟩
  exact hn (s.name, s.stored params) (Table.find?_eq_some_iff.mp (find?_stored hcontains))

/-- Tables with exactly the declared parameters are equal where these are. -/
theorem table_beq_iff (h : Declares i params) (h' : Declares i others) :
    (params == others) = true ↔
      ∀ s ∈ (i.specs (α := Float)), (s.stored params == s.stored others) = true := by
  have hfound : ∀ s ∈ (i.specs (α := Float)),
      (params.find? s.name == others.find? s.name) = (s.stored params == s.stored others) := by
    intro s hs
    have hcontains := (h s.name).mpr ⟨s, hs, rfl⟩
    have hcontains' := (h' s.name).mpr ⟨s, hs, rfl⟩
    rw [find?_stored hcontains, find?_stored hcontains', Option.some_beq_some]
  constructor
  · intro heq s hs
    rw [← hfound s hs]
    exact Table.find?_beq heq s.name
  intro heq
  apply Table.beq_of_find?
  intro key
  by_cases hkey : ∃ s ∈ (i.specs (α := Float)), s.name = key
  · obtain ⟨s, hs, rfl⟩ := hkey
    rw [hfound s hs]
    exact heq s hs
  · have hnone : ∀ {table : Table Float}, Declares i table → table.find? key = none := by
      intro table htable
      have hnot := mt (htable key).mp hkey
      simpa [Table.contains] using hnot
    rw [hnone h, hnone h']
    rfl

theorem series_inj {r s : Series} (h : r.name.toList = s.name.toList) : r = s := by
  have hread := Series.ofName_name r
  rw [String.toList_inj.mp h, Series.ofName_name] at hread
  exact (Except.ok.inj hread).symm

theorem numberText_ne_series (x : Float) (s : Series) : (numberText x).toList ≠ s.name.toList := by
  intro h
  rcases numberText_cases x with ⟨y, hy⟩ | hmem
  · rw [h, finite?_of_series (lower_name s)] at hy
    cases hy
  · rw [h] at hmem
    revert hmem
    cases s <;> decide

/-- Among the leaves only calls show a parenthesis. -/
theorem open_not_mem_constant (x : Float) : '(' ∉ (Tree.node (.constant x) []).text := fun hc =>
  (flat_numberText x _ hc).1 rfl

theorem open_not_mem_series (s : Series) : '(' ∉ (Tree.node (.series s) []).text := fun hc =>
  ((series_chars s).2 _ hc).2.2.1 rfl

theorem open_mem_call (h : DeclaredKind (.indicator name params)) :
    '(' ∈ (Tree.node (.indicator name params) []).text := by
  obtain ⟨i, rfl, h⟩ := h
  change '(' ∈ (Tree.indicator i params).text
  rw [text_declared h]
  simp

theorem same_of_call_text (hd : Declares i params) (hn : ∀ e ∈ params.entries, e.2.isNaN = false)
    (hd' : Declares j others) (hn' : ∀ e ∈ others.entries, e.2.isNaN = false)
    (h : (Tree.indicator i params).text = (Tree.indicator j others).text) :
    (Kind.indicator i.mnemonic params == Kind.indicator j.mnemonic others) = true := by
  have hopen : ∀ i : Indicator, '(' ∉ i.mnemonic.toList := by
    intro i
    cases i <;> decide
  have hsplit := congrArg (splitFirst? '(') h
  rw [text_declared hd, text_declared hd', splitFirst?_append (hopen i),
    splitFirst?_append (hopen j)] at hsplit
  obtain rfl := Indicator.mnemonic_inj (String.toList_inj.mp (Prod.mk.inj (Option.some.inj hsplit)).1)
  rw [text_indicator, text_indicator] at h
  have htable : (params == others) = true := by
    rw [table_beq_iff hd hd']
    intro s hs
    have htext := numberText_of_callText (String.toList_inj.mp h) s hs
    exact (Binary.numberText_eq_iff (stored_isNaN hd hn hs) (stored_isNaN hd' hn' hs)).mp htext
  change (i.mnemonic == i.mnemonic && params == others) = true
  rw [htable]
  simp

theorem same_of_leaf_text (hk : k.arity = 0) (hl : l.arity = 0) (hd : DeclaredKind k) (hn : NumericKind k)
    (hd' : DeclaredKind l) (hn' : NumericKind l) (h : (Tree.node k []).text = (Tree.node l []).text) :
    (k == l) = true := by
  cases k with
  | operator op => cases op <;> cases hk
  | comparator cmp => cases hk
  | indicator name params =>
    cases l with
    | operator op => cases op <;> cases hl
    | comparator cmp => cases hl
    | indicator other others =>
      obtain ⟨i, rfl, hd⟩ := hd
      obtain ⟨j, rfl, hd'⟩ := hd'
      exact same_of_call_text hd hn hd' hn' h
    | constant y => exact absurd (h ▸ open_mem_call hd) (open_not_mem_constant y)
    | series s => exact absurd (h ▸ open_mem_call hd) (open_not_mem_series s)
  | constant x =>
    cases l with
    | operator op => cases op <;> cases hl
    | comparator cmp => cases hl
    | indicator other others => exact absurd (h ▸ open_mem_call hd') (open_not_mem_constant x)
    | constant y => exact (Binary.numberText_eq_iff hn hn').mp (String.toList_inj.mp h)
    | series s => exact absurd h (numberText_ne_series x s)
  | series s =>
    cases l with
    | operator op => cases op <;> cases hl
    | comparator cmp => cases hl
    | indicator other others => exact absurd (h ▸ open_mem_call hd') (open_not_mem_series s)
    | constant y => exact absurd h.symm (numberText_ne_series y s)
    | series r =>
      obtain rfl := series_inj h
      change (s == s) = true
      simp

/-- Equal leaves have the same text. -/
theorem text_of_same_leaf (hd : DeclaredKind k) (hn : NumericKind k) (hd' : DeclaredKind l)
    (hn' : NumericKind l) (hk : k.arity = 0) (h : (k == l) = true) : (Tree.node k []).text = (Tree.node l []).text := by
  cases k with
  | operator op => cases op <;> cases hk
  | comparator cmp => cases hk
  | indicator name params =>
    cases l with
    | indicator other others =>
      obtain ⟨hname, htable⟩ := Bool.and_eq_true_iff.mp h
      obtain rfl := beq_iff_eq.mp hname
      obtain ⟨i, rfl, hd⟩ := hd
      obtain ⟨j, hj, hd'⟩ := hd'
      obtain rfl := Indicator.mnemonic_inj hj.symm
      have hstored := (table_beq_iff hd hd').mp htable
      have hargs : ((i.specs (α := Float)).map fun s => (numberText (s.stored params)).toList) =
          i.specs.map fun s => (numberText (s.stored others)).toList := by
        apply List.map_congr_left
        intro s hs
        rw [(Binary.numberText_eq_iff (stored_isNaN hd hn hs) (stored_isNaN hd' hn' hs)).mpr (hstored s hs)]
      change (Tree.indicator i params).text = (Tree.indicator i others).text
      rw [text_declared hd, text_declared hd', hargs]
    | _ => cases h
  | constant x =>
    cases l with
    | constant y => exact congrArg String.toList ((Binary.numberText_eq_iff hn hn').mpr h)
    | _ => cases h
  | series s =>
    cases l with
    | series r =>
      obtain rfl : s = r := beq_iff_eq.mp h
      rfl
    | _ => cases h

/-- A tree that says all it is in its formula: every node has its children, every call its declared
parameters and no others, and no number is NaN. -/
structure Canonical (t : Tree) : Prop where
  full : t.Full
  declared : t.Every DeclaredKind
  numeric : t.Every NumericKind

theorem canonical_iff {cs : List Tree} : Canonical (.node k cs) ↔
    cs.length = k.arity ∧ DeclaredKind k ∧ NumericKind k ∧ ∀ c ∈ cs, Canonical c := by
  constructor
  · rintro ⟨hfull, hdeclared, hnumeric⟩
    obtain ⟨hlength, hfulls⟩ := Tree.full_iff.mp hfull
    obtain ⟨hd, hds⟩ := Tree.every_iff.mp hdeclared
    obtain ⟨hn, hns⟩ := Tree.every_iff.mp hnumeric
    exact ⟨hlength, hd, hn, fun c hc => ⟨hfulls c hc, hds c hc, hns c hc⟩⟩
  · rintro ⟨hlength, hd, hn, hcs⟩
    exact ⟨Tree.full_iff.mpr ⟨hlength, fun c hc => (hcs c hc).full⟩,
      Tree.every_iff.mpr ⟨hd, fun c hc => (hcs c hc).declared⟩,
      Tree.every_iff.mpr ⟨hn, fun c hc => (hcs c hc).numeric⟩⟩

theorem Canonical.tidy (h : Canonical t) : t.Every TidyKind := h.declared.imp fun _ => tidyKind_of_declared

/-- A tree by the shape of its root. -/
def Rooted (t : Tree) : Shape → Prop
  | .leaf => ∃ k, k.arity = 0 ∧ t = .node k []
  | .negation => ∃ a, t = Tree.negation a
  | .joined => ∃ op a b, op ≠ .not ∧ t = .node (.operator op) [a, b]
  | .comparison => ∃ cmp a b, t = Tree.compare cmp a b

theorem rooted (h : t.Full) : Rooted t (Shape.ofKind t.kind) := by
  obtain ⟨k, cs⟩ := t
  rcases node_cases (Tree.full_iff.mp h).1 with
    ⟨hk, rfl⟩ | ⟨a, rfl, rfl⟩ | ⟨op, a, b, hop, rfl, rfl⟩ | ⟨cmp, a, b, rfl, rfl⟩
  · cases k with
    | operator op => cases op <;> cases hk
    | comparator cmp => cases hk
    | _ => exact ⟨_, hk, rfl⟩
  · exact ⟨a, rfl⟩
  · cases op
    case not => exact absurd rfl hop
    all_goals exact ⟨_, a, b, hop, rfl⟩
  · exact ⟨cmp, a, b, rfl⟩

theorem text_eq_of_words (ha : Canonical a) (hc : Canonical c)
    (h : words (Tree.enclose (.operator op) a.kind a.text) =
      words (Tree.enclose (.operator op') c.kind c.text)) : a.text = c.text := by
  rcases operand_cases op ha.full ha.tidy with hword | ⟨cmp, x, y, rfl, htext⟩
  · rcases operand_cases op' hc.full hc.tidy with hword' | ⟨cmp', x', y', rfl, htext'⟩
    · rw [← words_inj h] at hword'
      exact hword.text_eq hword'
    · rw [hword.single, htext', words_compare hc.full hc.tidy] at h
      exact absurd (List.cons.inj h).2.symm (List.cons_ne_nil _ _)
  · rcases operand_cases op' hc.full hc.tidy with hword' | ⟨cmp', x', y', rfl, htext'⟩
    · rw [hword'.single, htext, words_compare ha.full ha.tidy] at h
      exact absurd (List.cons.inj h).2 (List.cons_ne_nil _ _)
    · rw [htext, htext'] at h
      exact words_inj h

theorem operator_ne_comparator (op : Operator) (cmp : Comparator) :
    op.symbol.toList ≠ cmp.symbol.toList := by
  cases op <;> cases cmp <;> decide

theorem operator_inj (h : op.symbol.toList = op'.symbol.toList) : op = op' := by
  have hread := Operator.ofSymbol?_symbol op
  rw [String.toList_inj.mp h, Operator.ofSymbol?_symbol] at hread
  exact (Option.some.inj hread).symm

theorem comparator_inj (h : cmp.symbol.toList = cmp'.symbol.toList) : cmp = cmp' := by
  have hread := Comparator.ofSymbol?_symbol cmp
  rw [String.toList_inj.mp h, Comparator.ofSymbol?_symbol] at hread
  exact (Option.some.inj hread).symm

/-- The words around the sign of an operator are those of its operands. -/
theorem operands_of_words (ha : Canonical a) (hc : Canonical c) {right right' : List (List Char)}
    (h : words (Tree.enclose (.operator op) a.kind a.text) ++ op.symbol.toList :: right =
      words (Tree.enclose (.operator op') c.kind c.text) ++ op'.symbol.toList :: right') :
    a.text = c.text ∧ op = op' ∧ right = right' := by
  have hparts : words (Tree.enclose (.operator op) a.kind a.text) =
      words (Tree.enclose (.operator op') c.kind c.text) := by
    rcases operand_words op ha.full ha.tidy with ⟨w, hw⟩ | ⟨w, cmp, v, hw⟩ <;>
      rcases operand_words op' hc.full hc.tidy with ⟨w', hw'⟩ | ⟨w', cmp', v', hw'⟩ <;>
      rw [hw, hw'] at h ⊢
    · rw [(List.cons.inj h).1]
    · exact absurd (List.cons.inj (List.cons.inj h).2).1 (operator_ne_comparator op cmp')
    · exact absurd (List.cons.inj (List.cons.inj h).2).1.symm (operator_ne_comparator op' cmp)
    · obtain ⟨hfirst, h⟩ := List.cons.inj h
      obtain ⟨hsign, h⟩ := List.cons.inj h
      rw [hfirst, hsign, (List.cons.inj h).1]
  rw [hparts] at h
  obtain ⟨hsign, hright⟩ := List.cons.inj (List.append_cancel_left h)
  exact ⟨text_eq_of_words ha hc hparts, operator_inj hsign, hright⟩

theorem same_single (hk : (k == l) = true) (h : (a == c) = true) :
    (Tree.node k [a] == Tree.node l [c]) = true := by
  change (k == l && (a.same c && true)) = true
  change a.same c = true at h
  rw [hk, h]
  rfl

theorem same_operator (op : Operator) : (Kind.operator op == Kind.operator op) = true := by
  change (op == op) = true
  simp

theorem same_comparator (cmp : Comparator) : (Kind.comparator cmp == Kind.comparator cmp) = true := by
  change (cmp == cmp) = true
  simp

/-- Trees with the same formula are equal. -/
theorem same_of_text (ht : Canonical t) (hu : Canonical u) (h : t.text = u.text) : (t == u) = true := by
  induction t using Tree.induction generalizing u with
  | node k cs ih =>
    have htree := rooted ht.full
    have hother := rooted hu.full
    have hwords := congrArg words h
    rw [← shape_words hu.full hu.tidy, ← h, shape_words ht.full ht.tidy] at hother
    obtain ⟨-, -, -, hcs⟩ := canonical_iff.mp ht
    -- Both roots are of the same shape, so their words are compared shape by shape.
    generalize Shape.ofKind (Tree.node k cs).kind = shape at htree hother
    cases shape with
    | leaf =>
      obtain ⟨_, hk, heq⟩ := htree
      obtain ⟨rfl, rfl⟩ := Tree.node.inj heq
      obtain ⟨l, hl, rfl⟩ := hother
      obtain ⟨-, hd, hn, -⟩ := canonical_iff.mp ht
      obtain ⟨-, hd', hn', -⟩ := canonical_iff.mp hu
      exact beq_leaf (same_of_leaf_text hk hl hd hn hd' hn' h)
    | negation =>
      obtain ⟨a, heq⟩ := htree
      obtain ⟨rfl, rfl⟩ := Tree.node.inj heq
      obtain ⟨c, rfl⟩ := hother
      obtain ⟨-, -, -, hds⟩ := canonical_iff.mp hu
      rw [← Tree.negation, words_not, words_not] at hwords
      have htext := text_eq_of_words (hcs a (by simp)) (hds c (by simp)) (List.cons.inj hwords).2
      exact same_single (same_operator .not) (ih a (by simp) (hcs a (by simp)) (hds c (by simp)) htext)
    | joined =>
      obtain ⟨op, a, b, hop, heq⟩ := htree
      obtain ⟨rfl, rfl⟩ := Tree.node.inj heq
      obtain ⟨op', c, d, hop', rfl⟩ := hother
      obtain ⟨-, -, -, hds⟩ := canonical_iff.mp hu
      have ha := hcs a (by simp)
      have hb := hcs b (by simp)
      have hc := hds c (by simp)
      have hd := hds d (by simp)
      rw [words_binary hop ha.full ha.tidy, words_binary hop' hc.full hc.tidy] at hwords
      obtain ⟨hleft, rfl, hright⟩ := operands_of_words ha hc hwords
      exact Tree.same_pair (same_operator op) (ih a (by simp) ha hc hleft)
        (ih b (by simp) hb hd (text_eq_of_words hb hd hright))
    | comparison =>
      obtain ⟨cmp, a, b, heq⟩ := htree
      obtain ⟨rfl, rfl⟩ := Tree.node.inj heq
      obtain ⟨cmp', c, d, rfl⟩ := hother
      obtain ⟨-, -, -, hds⟩ := canonical_iff.mp hu
      have ha := hcs a (by simp)
      have hb := hcs b (by simp)
      have hc := hds c (by simp)
      have hd := hds d (by simp)
      rw [← Tree.compare, words_compare ht.full ht.tidy, words_compare hu.full hu.tidy] at hwords
      obtain ⟨hleft, hrest⟩ := List.cons.inj hwords
      obtain ⟨hsign, hrest⟩ := List.cons.inj hrest
      obtain rfl := comparator_inj hsign
      have hleft' := word_compared cmp hc.full hc.tidy
      have hright' := word_compared cmp hd.full hd.tidy
      rw [← hleft] at hleft'
      rw [← (List.cons.inj hrest).1] at hright'
      exact Tree.same_pair (same_comparator cmp)
        (ih a (by simp) ha hc ((word_compared cmp ha.full ha.tidy).text_eq hleft'))
        (ih b (by simp) hb hd ((word_compared cmp hb.full hb.tidy).text_eq hright'))

theorem eq_or_leaves_of_same (h : (k == l) = true) : k = l ∨ k.arity = 0 ∧ l.arity = 0 := by
  cases k with
  | operator op =>
    cases l with
    | operator op' =>
      obtain rfl : op = op' := beq_iff_eq.mp h
      exact .inl rfl
    | _ => cases h
  | comparator cmp =>
    cases l with
    | comparator cmp' =>
      obtain rfl : cmp = cmp' := beq_iff_eq.mp h
      exact .inl rfl
    | _ => cases h
  | indicator i params =>
    cases l with
    | indicator j others => exact .inr ⟨rfl, rfl⟩
    | _ => cases h
  | constant x =>
    cases l with
    | constant y => exact .inr ⟨rfl, rfl⟩
    | _ => cases h
  | series s =>
    cases l with
    | series r => exact .inr ⟨rfl, rfl⟩
    | _ => cases h

theorem enclose_congr (h : (k == l) = true) (parent : Kind) (cs : List Char) :
    Tree.enclose parent k cs = Tree.enclose parent l cs := by
  rcases eq_or_leaves_of_same h with rfl | ⟨hk, hl⟩
  · rfl
  · rw [enclose_leaf parent hk, enclose_leaf parent hl]

theorem childTexts_congr (parent : Kind) {ts us : List Tree} (h : Tree.allSame ts us = true)
    (htext : ∀ t ∈ ts, ∀ u ∈ us, (t == u) = true → t.text = u.text) :
    Tree.childTexts parent ts = Tree.childTexts parent us := by
  induction ts generalizing us with
  | nil =>
    cases us with
    | nil => rfl
    | cons u us => cases h
  | cons t ts ih =>
    cases us with
    | nil => cases h
    | cons u us =>
      obtain ⟨hfirst, hrest⟩ := Bool.and_eq_true_iff.mp h
      have hkind : (t.kind == u.kind) = true := by
        obtain ⟨k, cs⟩ := t
        obtain ⟨l, ds⟩ := u
        exact (Bool.and_eq_true_iff.mp hfirst).1
      rw [Tree.childTexts, Tree.childTexts, enclose_congr hkind,
        htext t List.mem_cons_self u List.mem_cons_self hfirst,
        ih hrest fun t ht u hu => htext t (List.mem_cons_of_mem _ ht) u (List.mem_cons_of_mem _ hu)]

/-- Equal trees have the same formula. -/
theorem text_of_same (ht : Canonical t) (hu : Canonical u) (h : (t == u) = true) : t.text = u.text := by
  induction t using Tree.induction generalizing u with
  | node k cs ih =>
    obtain ⟨l, ds⟩ := u
    obtain ⟨hlength, hd, hn, hcs⟩ := canonical_iff.mp ht
    obtain ⟨hlength', hd', hn', hds⟩ := canonical_iff.mp hu
    obtain ⟨hkind, hchildren⟩ := Bool.and_eq_true_iff.mp h
    rcases eq_or_leaves_of_same hkind with rfl | ⟨hk, hl⟩
    · rw [Tree.text, Tree.text,
        childTexts_congr k hchildren fun c hc d hd => ih c hc (hcs c hc) (hds d hd)]
    · obtain rfl := List.length_eq_zero_iff.mp (hlength.trans hk)
      obtain rfl := List.length_eq_zero_iff.mp (hlength'.trans hl)
      exact text_of_same_leaf hd hn hd' hn' hk hkind

theorem formula_eq_iff (ht : Canonical t) (hu : Canonical u) : t.formula = u.formula ↔ (t == u) = true := by
  rw [Tree.formula, Tree.formula, String.ofList_inj]
  exact ⟨same_of_text ht hu, text_of_same ht hu⟩

end SignalEvolution.Formula

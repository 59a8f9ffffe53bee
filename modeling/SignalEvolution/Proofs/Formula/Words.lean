import SignalEvolution.Proofs.Formula.Strict

/-! # The words of rendered trees

A rendered tree falls into words at the blanks outside all parentheses. A leaf is one word, a
comparison three, and an operand of an operator is one or the other, so that the words of a
tree show what its root is although comparisons stand below operators without parentheses.
-/
namespace SignalEvolution.Formula
open Text

variable {cs ds before after : List Char} {level : Int} {k : Kind} {a b t u : Tree} {op : Operator}
variable {cmp : Comparator}

/-- The pieces between the blanks at level zero. -/
def wordsFrom (level : Int) : List Char → List (List Char)
  | [] => [[]]
  | c :: cs =>
    if level = 0 ∧ c = ' ' then [] :: wordsFrom 0 cs
    else consFirst c (wordsFrom (level + weight c) cs)

def words (cs : List Char) : List (List Char) := wordsFrom 0 cs

theorem consFirst_ne_nil (c : Char) (ps : List (List Char)) : consFirst c ps ≠ [] := by
  cases ps with
  | nil => exact List.cons_ne_nil _ _
  | cons p ps => exact List.cons_ne_nil _ _

theorem wordsFrom_ne_nil (level : Int) (cs : List Char) : wordsFrom level cs ≠ [] := by
  cases cs with
  | nil => exact List.cons_ne_nil _ _
  | cons c cs =>
    rw [wordsFrom]
    split
    · exact List.cons_ne_nil _ _
    · exact consFirst_ne_nil _ _

theorem consFirst_append (c : Char) {ps : List (List Char)} (h : ps ≠ []) (qs : List (List Char)) :
    consFirst c (ps ++ qs) = consFirst c ps ++ qs := by
  obtain ⟨p, rest, rfl⟩ := List.exists_cons_of_ne_nil h
  rfl

/-- At a blank that is reached at level zero a text falls into its words before and after it. -/
theorem wordsFrom_append (h : level + depth cs = 0) (ds : List Char) :
    wordsFrom level (cs ++ ' ' :: ds) = wordsFrom level cs ++ words ds := by
  induction cs generalizing level with
  | nil =>
    have hlevel : level = 0 := by simpa using h
    subst hlevel
    rfl
  | cons c cs ih =>
    rw [List.cons_append, wordsFrom, wordsFrom]
    rw [depth_cons] at h
    split
    · next hblank =>
      obtain ⟨rfl, rfl⟩ := hblank
      rw [List.cons_append, ih (by simpa [weight] using h)]
    · rw [ih (by omega), consFirst_append c (wordsFrom_ne_nil _ _)]

theorem words_append (h : Balanced cs) (ds : List Char) : words (cs ++ ' ' :: ds) = words cs ++ words ds := by
  apply wordsFrom_append
  rw [h.even]
  rfl

theorem wordsFrom_eq_singleton
    (h : ∀ before after, cs = before ++ ' ' :: after → level + depth before ≠ 0) : wordsFrom level cs = [cs] := by
  induction cs generalizing level with
  | nil => rfl
  | cons c cs ih =>
    rw [wordsFrom, if_neg, ih]
    · rfl
    · intro before after hcs
      have hne := h (c :: before) after (by rw [hcs]; rfl)
      rw [depth_cons] at hne
      omega
    · rintro ⟨rfl, rfl⟩
      exact h [] cs rfl rfl

theorem words_of_not_mem (h : ' ' ∉ cs) : words cs = [cs] := by
  apply wordsFrom_eq_singleton
  rintro before after rfl
  simp at h

/-- A name that is followed by enclosed text is one word with it. -/
theorem words_call (hcs : Flat cs) (hblank : ' ' ∉ cs) (hds : Balanced ds) :
    words (cs ++ '(' :: (ds ++ [')'])) = [cs ++ '(' :: (ds ++ [')'])] := by
  apply wordsFrom_eq_singleton
  intro before after h
  rcases position_cases h with ⟨rest, rfl, -⟩ | ⟨front, rfl, hfront⟩
  · simp at hblank
  · cases front with
    | nil => cases hfront
    | cons c front =>
      have hpos := hds.depth_pos_of_enclosed hfront (by simp) (by simp)
      rw [depth_append, hcs.depth_eq]
      omega

theorem words_enclosed (h : Balanced cs) : words ('(' :: (cs ++ [')'])) = ['(' :: (cs ++ [')'])] := by
  have hnone : Flat [] := by decide
  exact words_call hnone List.not_mem_nil h

/-- The words of a text give it back. -/
theorem intercalate_wordsFrom (level : Int) (cs : List Char) :
    [' '].intercalate (wordsFrom level cs) = cs := by
  induction cs generalizing level with
  | nil => rfl
  | cons c cs ih =>
    rw [wordsFrom]
    split
    · next hblank =>
      have hrest := ih 0
      obtain ⟨p, ps, hps⟩ := List.exists_cons_of_ne_nil (wordsFrom_ne_nil 0 cs)
      rw [hps] at hrest ⊢
      rw [List.intercalate_cons_cons, hrest, hblank.2]
      rfl
    · have hrest := ih (level + weight c)
      obtain ⟨p, ps, hps⟩ := List.exists_cons_of_ne_nil (wordsFrom_ne_nil (level + weight c) cs)
      rw [hps] at hrest ⊢
      rw [consFirst]
      cases ps with
      | nil => rw [List.intercalate_singleton] at hrest ⊢; rw [hrest]
      | cons q ps =>
        rw [List.intercalate_cons_cons] at hrest ⊢
        rw [List.cons_append, List.cons_append, hrest]

theorem words_inj (h : words cs = words ds) : cs = ds := by
  rw [← intercalate_wordsFrom 0 cs, ← intercalate_wordsFrom 0 ds]
  exact congrArg _ h

/-- One word that shows a tree: its text in parentheses, or the text alone where it does not begin
with one. -/
structure Word (t : Tree) (cs : List Char) : Prop where
  single : words cs = [cs]
  shows : cs = '(' :: (t.text ++ [')']) ∨ cs = t.text ∧ ∀ rest, cs ≠ '(' :: rest

theorem Word.text_eq (ht : Word t cs) (hu : Word u cs) : t.text = u.text := by
  rcases ht.shows with htext | ⟨htext, hopen⟩
  · rcases hu.shows with hutext | ⟨-, hopen⟩
    · exact List.append_cancel_right (List.cons.inj (htext.symm.trans hutext)).2
    · exact absurd htext (hopen _)
  · rcases hu.shows with hutext | ⟨hutext, -⟩
    · exact absurd hutext (hopen _)
    · exact htext.symm.trans hutext

theorem word_enclosed (h : Firm t.text) : Word t ('(' :: (t.text ++ [')'])) :=
  ⟨words_enclosed h.balanced, .inl rfl⟩

theorem word_leaf (hk : k.arity = 0) (ht : TidyKind k) : Word (.node k []) (Tree.node k []).text := by
  constructor
  · cases k with
    | operator op => cases op <;> cases hk
    | comparator cmp => cases hk
    | indicator name params =>
      obtain ⟨i, rfl, ht⟩ := ht
      have hname : Flat (i.mnemonic.toList ++ []) ∧ ' ' ∉ i.mnemonic.toList ++ [] := by
        cases i <;> decide
      change words (Tree.indicator i params).text = [(Tree.indicator i params).text]
      rw [text_indicator, toList_callText]
      exact words_call hname.1 hname.2 (flat_arguments ht).balanced
    | constant x =>
      apply words_of_not_mem
      intro hblank
      have hnot := ((numberText_spec x).2 ' ' hblank).1
      cases hnot
    | series s =>
      apply words_of_not_mem
      intro hblank
      have hnot := ((series_chars s).2 ' ' hblank).1
      cases hnot
  · right
    obtain ⟨c, rest, hcons, hc⟩ := leaf_head hk ht
    refine ⟨rfl, ?_⟩
    intro others hothers
    exact hc (List.cons.inj (hcons.symm.trans hothers)).1

/-- Below a comparison every operand is one word. -/
theorem word_compared (cmp : Comparator) (hfull : a.Full) (htidy : a.Every TidyKind) :
    Word a (Tree.enclose (.comparator cmp) a.kind a.text) := by
  have henclosed := word_enclosed (firm_text hfull htidy)
  obtain ⟨k, cs⟩ := a
  rcases node_cases (Tree.full_iff.mp hfull).1 with
    ⟨hk, rfl⟩ | ⟨_, rfl, _⟩ | ⟨_, _, _, _, rfl, _⟩ | ⟨_, _, _, rfl, _⟩
  · rw [Tree.kind, enclose_leaf _ hk]
    exact word_leaf hk (Tree.every_iff.mp htidy).1
  · exact henclosed
  · exact henclosed
  · exact henclosed

/-- Below an operator an operand is one word or a comparison. -/
theorem operand_cases (op : Operator) (hfull : a.Full) (htidy : a.Every TidyKind) :
    Word a (Tree.enclose (.operator op) a.kind a.text) ∨
      ∃ cmp x y, a = Tree.compare cmp x y ∧ Tree.enclose (.operator op) a.kind a.text = a.text := by
  have henclosed := word_enclosed (firm_text hfull htidy)
  obtain ⟨k, cs⟩ := a
  rcases node_cases (Tree.full_iff.mp hfull).1 with
    ⟨hk, rfl⟩ | ⟨_, rfl, _⟩ | ⟨_, _, _, _, rfl, _⟩ | ⟨cmp, x, y, rfl, rfl⟩
  · rw [Tree.kind, enclose_leaf _ hk]
    exact .inl (word_leaf hk (Tree.every_iff.mp htidy).1)
  · exact .inl henclosed
  · exact .inl henclosed
  · exact .inr ⟨cmp, x, y, rfl, rfl⟩

/-- A sign between blanks is a word between the words before and after it. -/
theorem words_between {left sign : List Char} (hleft : Balanced left) (hflat : Flat sign)
    (hblank : ' ' ∉ sign) (right : List Char) :
    words (left ++ (' ' :: sign ++ [' ']) ++ right) = words left ++ sign :: words right := by
  have htext : left ++ (' ' :: sign ++ [' ']) ++ right = left ++ ' ' :: (sign ++ ' ' :: right) := by simp
  rw [htext, words_append hleft, words_append hflat.balanced, words_of_not_mem hblank]
  rfl

theorem words_compare (hfull : (Tree.compare cmp a b).Full) (htidy : (Tree.compare cmp a b).Every TidyKind) :
    words (Tree.compare cmp a b).text = [Tree.enclose (.comparator cmp) a.kind a.text, cmp.symbol.toList,
      Tree.enclose (.comparator cmp) b.kind b.text] := by
  obtain ⟨_, hfulls⟩ := Tree.full_iff.mp hfull
  obtain ⟨_, htidys⟩ := Tree.every_iff.mp htidy
  have hleft := firm_enclose (.comparator cmp) a.kind (firm_text (hfulls a (by simp)) (htidys a (by simp)))
  have hsymbol : Flat cmp.symbol.toList ∧ ' ' ∉ cmp.symbol.toList := by
    cases cmp <;> decide
  rw [text_compare, words_between hleft.balanced hsymbol.1 hsymbol.2,
    (word_compared cmp (hfulls a (by simp)) (htidys a (by simp))).single,
    (word_compared cmp (hfulls b (by simp)) (htidys b (by simp))).single]
  rfl

theorem words_binary (hop : op ≠ .not) (hfull : a.Full) (htidy : a.Every TidyKind) (b : Tree) :
    words (Tree.node (.operator op) [a, b]).text =
      words (Tree.enclose (.operator op) a.kind a.text) ++ op.symbol.toList ::
        words (Tree.enclose (.operator op) b.kind b.text) := by
  have hleft := firm_enclose (.operator op) a.kind (firm_text hfull htidy)
  have hsymbol : Flat op.symbol.toList ∧ ' ' ∉ op.symbol.toList := by
    cases op <;> decide
  rw [text_binary hop, words_between hleft.balanced hsymbol.1 hsymbol.2]

theorem words_not (a : Tree) : words (Tree.negation a).text =
    ['N', 'O', 'T'] :: words (Tree.enclose (.operator .not) a.kind a.text) := by
  have hnot : Flat ['N', 'O', 'T'] := by decide
  have htext : (Tree.negation a).text =
      ['N', 'O', 'T'] ++ ' ' :: Tree.enclose (.operator .not) a.kind a.text := by
    rw [Tree.negation, text_not]
    simp
  rw [htext, words_append hnot.balanced]
  rfl

end SignalEvolution.Formula

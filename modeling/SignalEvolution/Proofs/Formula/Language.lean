import SignalEvolution.Proofs.Formula.Parts

/-! # The language of formulas

Strict reading accepts the texts of the grammar with the trees of the grammar, and
nothing else. A derivation is followed from its leaves: each clause is a piece that
no connective cuts, and the pieces of a joined text are its clauses. In return the
cut of a text that was read is a derivation.
-/
namespace SignalEvolution.Formula
open Text

variable {mode : Mode} {op : Operator} {cs left right sign word rest piece source p : List Char}
variable {t a b : Tree} {ts : List Tree} {ps : List (List Char)} {cmp : Comparator}
variable {keyword : List Char}

/-- The connective that joins clauses under an operator, and the one that must not occur beside it. -/
def keywordOf (op : Operator) : List Char := if op = .and then andWord else orWord

def otherOf (op : Operator) : List Char := if op = .and then orWord else andWord

theorem keywordOf_mem (op : Operator) : keywordOf op ∈ connectives := by
  cases op <;> decide

theorem otherOf_mem (op : Operator) : otherOf op ∈ connectives := by
  cases op <;> decide

theorem keywordOf_ne_otherOf (op : Operator) : keywordOf op ≠ otherOf op := by
  cases op <;> decide

theorem Connects.separates (h : Connects op piece word rest) :
    (op = .and ∨ op = .or) ∧ Separates (keywordOf op) piece word rest := by
  rcases h with ⟨rfl, hs⟩ | ⟨rfl, hs⟩
  · exact ⟨.inl rfl, hs⟩
  · exact ⟨.inr rfl, hs⟩

/-- A formula as the reader sees it. -/
structure FormulaRead (mode : Mode) (cs : List Char) (t : Tree) : Prop where
  balanced : Balanced cs
  visible : strip cs ≠ []
  read : (outline cs).tree mode = .ok t

/-- A clause can also stand between connectives. -/
structure ClauseRead (mode : Mode) (cs : List Char) (t : Tree) : Prop extends FormulaRead mode cs t where
  unbroken : ∀ keyword ∈ connectives, Unbroken keyword cs
  readPart : (part cs).tree mode = .ok t

/-- Clauses under one connective, cut into parts that are read as those clauses. -/
structure JoinedRead (mode : Mode) (op : Operator) (cs : List Char) (ts : List Tree) : Prop
    extends FormulaRead mode cs (join op ts) where
  cut : ∃ ps, Cut (keywordOf op) cs ps ∧ List.Forall₂ (fun p t => (part p).tree mode = .ok t) ps ts
  unbroken : Unbroken (otherOf op) cs

theorem not_cut_of_unbroken (h : ∀ keyword ∈ connectives, Unbroken keyword cs) :
    ¬ 1 < (pieces (cutWord cs) cs).length := by
  have hmem : cutWord cs ∈ connectives := by
    rw [cutWord]
    split <;> decide
  rw [length_pieces_iff (isKeyword_of_mem hmem), not_not]
  exact h _ hmem

theorem occurs_iff (hk : IsKeyword keyword) : occurs keyword cs = true ↔ ¬ Unbroken keyword cs := by
  rw [occurs, decide_eq_true_eq, length_pieces_iff hk]

theorem not_occurs (hk : IsKeyword keyword) (h : Unbroken keyword cs) : occurs keyword cs = false := by
  rw [Bool.eq_false_iff, Ne, occurs_iff hk, not_not]
  exact h

/-- A text without connectives under its parentheses is read as one clause. -/
theorem clauseRead_of_strip (hb : Balanced cs) (hne : strip cs ≠ [])
    (hu : ∀ keyword ∈ connectives, Unbroken keyword cs)
    (hinner : ∀ keyword ∈ connectives, Unbroken keyword (strip cs))
    (h : clause mode (strip cs) (strip cs) = .ok t) : ClauseRead mode cs t := by
  have hcut := not_cut_of_unbroken hinner
  have hread : (outline cs).tree mode = .ok t := by rwa [outline_whole hne hcut]
  refine ⟨⟨hb, hne, hread⟩, hu, ?_⟩
  rw [part]
  split
  · exact outline_tree_congr (strip_strip cs).symm hread
  · exact clause_congr h

theorem FormulaRead.clauseRead (h : FormulaRead mode cs t)
    (hu : ∀ keyword ∈ connectives, Unbroken keyword cs) : ClauseRead mode cs t := by
  refine ⟨h, hu, ?_⟩
  rw [part]
  split
  · exact outline_tree_congr (strip_strip cs).symm h.read
  · next hnested =>
    -- Only white space was taken off, so nothing is cut under it either.
    have hlen : (strip cs).length = (trim cs).length := by
      by_contra hne
      exact hnested (by simp [isNested, hne])
    have hstrip := strip_eq_trim hlen
    have hcut := not_cut_of_unbroken fun keyword hk =>
      hstrip ▸ (h.balanced.unbroken_trim_iff (isKeyword_of_mem hk)).mpr (hu keyword hk)
    have hread := h.read
    rw [outline_whole h.visible hcut] at hread
    exact clause_congr hread

theorem ClauseRead.pad {l r : List Char} (hl : Blank l) (hr : Blank r) (h : ClauseRead mode cs t) :
    ClauseRead mode (l ++ cs ++ r) t where
  balanced := ((flat_of_blank hl).balanced.append h.balanced).append (flat_of_blank hr).balanced
  visible := by rw [strip_append hl hr]; exact h.visible
  read := outline_tree_congr (strip_append hl hr cs).symm h.read
  unbroken keyword hk :=
    (unbroken_pad_iff (isKeyword_of_mem hk) hl hr h.balanced.even).mpr (h.unbroken keyword hk)
  readPart := part_tree_congr (trim_append hl hr cs).symm h.readPart

theorem FormulaRead.pad {l r : List Char} (hl : Blank l) (hr : Blank r) (h : FormulaRead mode cs t) :
    FormulaRead mode (l ++ cs ++ r) t where
  balanced := ((flat_of_blank hl).balanced.append h.balanced).append (flat_of_blank hr).balanced
  visible := by rw [strip_append hl hr]; exact h.visible
  read := outline_tree_congr (strip_append hl hr cs).symm h.read

theorem FormulaRead.enclosed (h : FormulaRead mode cs t) : ClauseRead mode ('(' :: (cs ++ [')'])) t := by
  have hstrip := strip_enclosed h.balanced
  have hread : (outline ('(' :: (cs ++ [')']))).tree mode = .ok t :=
    outline_tree_congr hstrip.symm h.read
  refine ⟨⟨h.balanced.enclosed, by rw [hstrip]; exact h.visible, hread⟩,
    fun keyword hk => unbroken_enclosed (isKeyword_of_mem hk) h.balanced, ?_⟩
  have hnested : isNested (trim ('(' :: (cs ++ [')']))) (strip ('(' :: (cs ++ [')']))) = true := by
    have hlen := length_strip_le cs
    rw [isNested, trim_of_trimmed (trimmed_enclosed cs), hstrip]
    simp only [Bool.or_eq_true, bne_iff_ne]
    left
    simp only [List.length_cons, List.length_append]
    omega
  rw [part, if_pos hnested]
  exact outline_tree_congr (strip_strip _).symm hread

theorem clauseRead_of_operand (h : IsOperand cs t) (hm : mode = .lenient) : ClauseRead mode cs t := by
  have hinner := h.congr (strip_strip cs).symm
  refine clauseRead_of_strip h.inert.balanced h.inert.visible h.inert.unbroken hinner.inert.unbroken ?_
  subst hm
  rw [clause_bare h.inert.visible (comparison?_eq_none hinner.inert.signless)]
  exact operand_of_isOperand hinner

theorem trim_comparison (left right : List Char) (hs : sign ∈ spellings cmp) :
    trim (left ++ sign ++ right) = trimStart left ++ sign ++ trimEnd right := by
  obtain ⟨hne, hsign⟩ := isSign_of_mem_spellings hs
  have hblank : ∀ c ∈ sign, isBlank c = false := fun c hc => (ne_of_isSign (hsign c hc)).2.2.1
  have hfront : ∀ c ∈ (sign ++ right).head?, isBlank c = false := by
    rw [List.head?_append_of_ne_nil _ hne]
    exact fun c hc => hblank c (List.mem_of_mem_head? hc)
  have hback : ∀ c ∈ (trimStart left ++ sign).getLast?, isBlank c = false := by
    rw [List.getLast?_append_of_ne_nil _ hne]
    exact fun c hc => hblank c (List.mem_of_getLast? hc)
  rw [trim, List.append_assoc, trimStart_append_of_front _ hfront, ← List.append_assoc,
    trimEnd_append_of_back _ hback]

/-- A comparison shows its sign at depth zero, so nothing encloses it. -/
theorem strip_comparison (right : List Char) (h0 : depth left = 0) (hs : sign ∈ spellings cmp) :
    strip (left ++ sign ++ right) = trimStart left ++ sign ++ trimEnd right := by
  have htrim := trim_comparison left right hs
  obtain ⟨hne, hsign⟩ := isSign_of_mem_spellings hs
  obtain ⟨c, tail, rfl⟩ := List.exists_cons_of_ne_nil hne
  obtain ⟨l, hl, hleft⟩ := exists_trimStart left
  have h0' : depth (trimStart left) = 0 := by
    rw [hleft, depth_append, (flat_of_blank hl).depth_eq] at h0
    omega
  rw [strip_of_not_inside, htrim]
  rw [htrim, List.append_assoc, List.cons_append]
  exact inside?_eq_none h0' (ne_of_isSign (hsign c List.mem_cons_self)).1

theorem unbroken_comparison (hl : Inert left) (hs : sign ∈ spellings cmp) (hr : Inert right) :
    ∀ keyword ∈ connectives, Unbroken keyword (left ++ sign ++ right) := by
  intro keyword hk
  obtain ⟨hne, hsign⟩ := isSign_of_mem_spellings hs
  have hkey := isKeyword_of_mem hk
  have hword : ∀ c ∈ sign, isWordChar c = false := fun c hc => (ne_of_isSign (hsign c hc)).2.2.2
  have hflat : Flat sign := fun c hc => ⟨(ne_of_isSign (hsign c hc)).1, (ne_of_isSign (hsign c hc)).2.1⟩
  have hfront : Apart (left ++ sign) right := apart_of_back fun c hc => by
    rw [List.getLast?_append_of_ne_nil _ hne] at hc
    exact hword c (List.mem_of_getLast? hc)
  have hback : Apart left sign := apart_of_front fun c hc => hword c (List.mem_of_mem_head? hc)
  have hd : depth (left ++ sign) = 0 := by simp [hl.balanced.even, hflat.depth_eq]
  rw [unbroken_append_iff hkey hd hfront, unbroken_append_iff hkey hl.balanced.even hback]
  exact ⟨⟨hl.unbroken keyword hk, unbroken_of_not_wordChars hkey hword⟩, hr.unbroken keyword hk⟩

theorem clauseRead_of_comparison (hl : IsOperand left a) (hs : sign ∈ spellings cmp)
    (hr : IsOperand right b) : ClauseRead mode (left ++ sign ++ right) (Tree.compare cmp a b) := by
  have hl' := hl.congr (strip_congr (trim_trimStart left)).symm
  have hr' := hr.congr (strip_congr (trim_trimEnd right)).symm
  have hstrip := strip_comparison right hl.inert.balanced.even hs
  obtain ⟨hne, hsign⟩ := isSign_of_mem_spellings hs
  have hflat : Flat sign := fun c hc => ⟨(ne_of_isSign (hsign c hc)).1, (ne_of_isSign (hsign c hc)).2.1⟩
  have hinner : trimStart left ++ sign ++ trimEnd right ≠ [] := by simp [hne]
  refine clauseRead_of_strip ((hl.inert.balanced.append hflat.balanced).append hr.inert.balanced)
    (hstrip ▸ hinner) (unbroken_comparison hl.inert hs hr.inert)
    (hstrip ▸ unbroken_comparison hl'.inert hs hr'.inert) ?_
  have hnext : ∀ c ∈ (trimEnd right).head?, isSign c = false := by
    intro c hc
    exact hr'.inert.signless [] c _ (List.eq_cons_of_mem_head? hc) rfl
  have hcut := comparison?_eq_some hl'.inert.signless hl'.inert.balanced.even hs hnext
  rw [hstrip, clause_comparison hinner hcut, operand_of_isOperand hl', operand_of_isOperand hr']
  rfl

/-- AND is cut at where it occurs, OR only beside no AND; the other connective shows as mixed. -/
theorem cutWord_of_broken (hop : op = .and ∨ op = .or) (hk : ¬ Unbroken (keywordOf op) cs)
    (hfirst : op = .or → Unbroken andWord cs) :
    cutWord cs = keywordOf op ∧ cutOperator cs = op ∧
      ((occurs andWord cs && occurs orWord cs) = true ↔ ¬ Unbroken (otherOf op) cs) := by
  rcases hop with rfl | rfl
  · have hand : occurs andWord cs = true := (occurs_iff isKeyword_and).mpr hk
    exact ⟨by simp [cutWord, hand, keywordOf], by simp [cutOperator, hand],
      by rw [hand, Bool.true_and, occurs_iff isKeyword_or, otherOf, if_pos rfl]⟩
  · have hu := hfirst rfl
    have hand : occurs andWord cs = false := not_occurs isKeyword_and hu
    exact ⟨by simp [cutWord, hand, keywordOf], by simp [cutOperator, hand],
      by simp [hand, otherOf, hu]⟩

theorem strip_of_not_unbroken (hk : IsKeyword keyword) (h : ¬ Unbroken keyword (trim cs)) :
    strip cs = trim cs := by
  apply strip_of_not_inside
  simp only [Unbroken, not_forall, not_not] at h
  obtain ⟨before, word, after, htrim, h0, hs⟩ := h
  obtain ⟨c, tail, rfl⟩ := List.exists_cons_of_ne_nil (hs.ne_nil hk)
  rw [htrim, List.append_assoc]
  exact inside?_eq_none h0 (ne_paren_of_isWordChar (hs.wordChars hk c List.mem_cons_self)).1

/-- A text that is cut more than once under a connective joins the pieces that are between white space. -/
theorem outline_of_cut (hop : op = .and ∨ op = .or) (hb : Balanced cs) (hcut : Cut (keywordOf op) cs ps)
    (hlen : 1 < ps.length) (hfirst : op = .or → Unbroken andWord cs) :
    strip cs ≠ [] ∧ ∃ (qs : List (List Char)) (mixed : Bool), qs.map trim = ps.map trim ∧
      (mixed = true ↔ ¬ Unbroken (otherOf op) cs) ∧ outline cs = .joined cs mixed op (qs.map part) := by
  have hk := isKeyword_of_mem (keywordOf_mem op)
  obtain ⟨qs, hqs, hmap⟩ := hcut.trim hk
  have hlen' : 1 < qs.length := by
    rw [← List.length_map (f := trim), hmap, List.length_map]
    exact hlen
  have hpieces := (pieces_eq_iff hk).mpr hqs
  have hbroken : ¬ Unbroken (keywordOf op) (trim cs) := by
    rwa [← length_pieces_iff hk, hpieces]
  have hstrip := strip_of_not_unbroken hk hbroken
  have hvisible : strip cs ≠ [] := by
    rw [hstrip]
    intro hnil
    rw [hnil] at hbroken
    exact hbroken (unbroken_nil hk)
  obtain ⟨hword, hoperator, hmixed⟩ := cutWord_of_broken hop hbroken fun ho =>
    (hb.unbroken_trim_iff isKeyword_and).mpr (hfirst ho)
  have hmany : 1 < (pieces (cutWord (strip cs)) (strip cs)).length := by
    rwa [hstrip, hword, hpieces]
  refine ⟨hvisible, qs, occurs andWord (trim cs) && occurs orWord (trim cs), hmap, ?_, ?_⟩
  · rw [hmixed, hb.unbroken_trim_iff (isKeyword_of_mem (otherOf_mem op))]
  · rw [outline_joined hvisible hmany, hstrip, hword, hoperator, hpieces]

/-- A text that is cut more than once under one connective is read as the join of its pieces. -/
theorem formulaRead_of_cut (hop : op = .and ∨ op = .or) (hb : Balanced cs)
    (hcut : Cut (keywordOf op) cs ps) (hlen : 1 < ps.length) (ho : Unbroken (otherOf op) cs)
    (hparts : List.Forall₂ (fun p t => (part p).tree mode = .ok t) ps ts) :
    FormulaRead mode cs (join op ts) := by
  obtain ⟨hvisible, qs, mixed, hmap, hmixed, hjoined⟩ :=
    outline_of_cut hop hb hcut hlen (by rintro rfl; exact ho)
  refine ⟨hb, hvisible, ?_⟩
  have htrees := trees_eq_ok_iff.mpr (forall₂_part_congr hmap.symm hparts)
  rw [hjoined, Bool.eq_false_iff.mpr (mt hmixed.mp (not_not.mpr ho)), Outline.tree, htrees]
  rfl

theorem ClauseRead.joined (op : Operator) (h : ClauseRead mode cs t) : JoinedRead mode op cs [t] where
  toFormulaRead := h.toFormulaRead
  cut := ⟨[cs], .whole (h.unbroken _ (keywordOf_mem op)), .cons h.readPart .nil⟩
  unbroken := h.unbroken _ (otherOf_mem op)

/-- A connective holds no other one, and divides those of the text from each other. -/
theorem Separates.unbroken_iff {other : List Char} (hk : IsKeyword keyword) (ho : IsKeyword other)
    (hne : keyword ≠ other) (h0 : depth cs = 0) (hs : Separates keyword cs word rest) :
    Unbroken other (cs ++ word ++ rest) ↔ Unbroken other cs ∧ Unbroken other rest := by
  have hword : Unbroken other word := by
    apply unbroken_of_wordChars (hs.wordChars hk)
    rw [hs.spelled]
    exact hne
  rw [List.append_assoc, unbroken_append_iff ho h0 (apart_of_back hs.apartBefore),
    unbroken_append_iff ho (hs.flat hk).depth_eq (apart_of_front hs.apartAfter)]
  tauto

theorem JoinedRead.more (h : ClauseRead mode cs t) (hc : Connects op cs word rest)
    (hrest : JoinedRead mode op rest ts) : JoinedRead mode op (cs ++ word ++ rest) (t :: ts) := by
  obtain ⟨hop, hs⟩ := hc.separates
  obtain ⟨ps, hcut, hparts⟩ := hrest.cut
  have hk := isKeyword_of_mem (keywordOf_mem op)
  have ho := isKeyword_of_mem (otherOf_mem op)
  have hcut' : Cut (keywordOf op) (cs ++ word ++ rest) (cs :: ps) :=
    .join (h.unbroken _ (keywordOf_mem op)) h.balanced.even hs hcut
  have hb := (h.balanced.append (hs.flat hk).balanced).append hrest.balanced
  have hother : Unbroken (otherOf op) (cs ++ word ++ rest) :=
    (hs.unbroken_iff hk ho (keywordOf_ne_otherOf op) h.balanced.even).mpr
      ⟨h.unbroken _ (otherOf_mem op), hrest.unbroken⟩
  have hlen := List.length_pos_iff.mpr hcut.ne_nil
  exact ⟨formulaRead_of_cut hop hb hcut' (by simpa using hlen) hother (.cons h.readPart hparts),
    ⟨cs :: ps, hcut', .cons h.readPart hparts⟩, hother⟩

mutual
theorem IsFormula.formulaRead : ∀ {cs t}, IsFormula mode cs t → FormulaRead mode cs t
  | _, _, .joined h => h.joinedRead.toFormulaRead
  | _, _, .enclosed h => h.formulaRead.enclosed.toFormulaRead
  | _, _, .padded hl hr h => h.formulaRead.pad hl hr
theorem IsJoined.joinedRead : ∀ {op cs ts}, IsJoined mode op cs ts → JoinedRead mode op cs ts
  | op, _, _, .one h => h.clauseRead.joined op
  | _, _, _, .more h hc hrest => .more h.clauseRead hc hrest.joinedRead
theorem IsClause.clauseRead : ∀ {cs t}, IsClause mode cs t → ClauseRead mode cs t
  | _, _, .comparison hl hs hr => clauseRead_of_comparison hl hs hr
  | _, _, .enclosed h => h.formulaRead.enclosed
  | _, _, .bare hm h => clauseRead_of_operand h hm
  | _, _, .padded hl hr h => h.clauseRead.pad hl hr
end

/-- A strict clause is cut at its first comparator into two operands. -/
theorem comparison_of_clause (h : clause .strict source cs = .ok t) :
    ∃ left cmp right a b, comparison? cs = some (left, cmp, right) ∧ operand .strict left = .ok a ∧
      operand .strict right = .ok b ∧ t = Tree.compare cmp a b := by
  by_cases hne : cs = []
  · subst hne
    cases h
  · cases hc : comparison? cs with
    | none => simp [clause, hne, hc] at h
    | some cut =>
      obtain ⟨left, cmp, right⟩ := cut
      rw [clause_comparison hne hc] at h
      obtain ⟨a, ha, hrest⟩ := bind_eq_ok h
      obtain ⟨b, hb, heq⟩ := bind_eq_ok hrest
      exact ⟨left, cmp, right, a, b, rfl, ha, hb, (Except.ok.inj heq).symm⟩

theorem isClause_of_clause (h : clause .strict source cs = .ok t) : IsClause .strict cs t := by
  obtain ⟨left, cmp, right, a, b, hc, ha, hb, rfl⟩ := comparison_of_clause h
  obtain ⟨sign, hs, rfl⟩ := comparison?_sound hc
  exact .comparison (isOperand_of_operand ha) hs (isOperand_of_operand hb)

/-- A part without connectives is a clause: enclosed, or a comparison. -/
theorem isClause_of_part (hu : Unbroken orWord p) (h : (part p).tree .strict = .ok t)
    (ih : (outline (strip p)).tree .strict = .ok t → IsFormula .strict (strip p) t) :
    IsClause .strict p t := by
  obtain ⟨l, r, hl, hr, hp⟩ := exists_trim p
  by_cases hlen : (strip p).length = (trim p).length
  · have hstrip := strip_eq_trim hlen
    have hu' : Unbroken orWord (trim p) := by
      rw [hp, List.append_assoc, unbroken_append_iff isKeyword_or (flat_of_blank hl).depth_eq
        (apart_of_blank_left hl)] at hu
      exact hu.2.left isKeyword_or (apart_of_blank_right hr)
    have hnested : isNested (trim p) (strip p) = false := by
      simp [isNested, hstrip, pieces_of_unbroken isKeyword_or hu']
    rw [part, hnested] at h
    rw [hp, ← hstrip]
    exact .padded hl hr (isClause_of_clause h)
  · have hnested : isNested (trim p) (strip p) = true := by simp [isNested, hlen]
    rw [part, if_pos hnested] at h
    exact .of_strip (ih h) hlen

theorem isJoined_of_cut (hop : op = .and ∨ op = .or) (hcut : Cut (keywordOf op) cs ps)
    (h : List.Forall₂ (IsClause mode) ps ts) : IsJoined mode op cs ts := by
  induction hcut generalizing ts with
  | whole _ =>
    obtain ⟨t, us, ht, hus, rfl⟩ := List.forall₂_cons_left_iff.mp h
    obtain rfl := List.forall₂_nil_left_iff.mp hus
    exact .one ht
  | join _ _ hs _ ih =>
    obtain ⟨t, us, ht, hus, rfl⟩ := List.forall₂_cons_left_iff.mp h
    refine .more ht ?_ (ih hus)
    rcases hop with rfl | rfl
    · exact .inl ⟨rfl, hs⟩
    · exact .inr ⟨rfl, hs⟩

theorem keywordOf_cutOperator (cs : List Char) :
    (cutOperator cs = .and ∨ cutOperator cs = .or) ∧ keywordOf (cutOperator cs) = cutWord cs := by
  unfold cutOperator cutWord
  split <;> decide

/-- Pieces of a text with one kind of connective hold no connective at all. -/
theorem unbroken_or_of_cut (hcut : Cut (cutWord cs) cs ps)
    (hmixed : (occurs andWord cs && occurs orWord cs) = false) : ∀ p ∈ ps, Unbroken orWord p := by
  by_cases hand : occurs andWord cs = true
  · have hor : Unbroken orWord cs := by
      rw [hand, Bool.true_and, occurs, decide_eq_false_iff_not, length_pieces_iff isKeyword_or,
        not_not] at hmixed
      exact hmixed
    rw [cutWord, if_pos hand] at hcut
    exact hcut.unbroken isKeyword_and isKeyword_or hor
  · rw [cutWord, if_neg hand] at hcut
    exact hcut.unbroken_self

theorem isFormula_of_outline (h : (outline cs).tree .strict = .ok t) : IsFormula .strict cs t := by
  -- A part is shorter than the text that it was cut from.
  induction hn : cs.length using Nat.strong_induction_on generalizing cs t with
  | h n ih =>
    apply IsFormula.of_strip
    by_cases hne : strip cs = []
    · rw [outline_tree_blank hne] at h
      cases h
    by_cases hmany : 1 < (pieces (cutWord (strip cs)) (strip cs)).length
    · rw [outline_joined hne hmany, Outline.tree] at h
      split at h
      · cases h
      next hmixed =>
      obtain ⟨ts, htrees, rfl⟩ := map_eq_ok h
      obtain ⟨hop, hkeyword⟩ := keywordOf_cutOperator (strip cs)
      have hcut : Cut (cutWord (strip cs)) (strip cs) (pieces (cutWord (strip cs)) (strip cs)) := by
        rw [← hkeyword]
        exact cut_pieces (isKeyword_of_mem (keywordOf_mem _)) _
      have hor := unbroken_or_of_cut hcut (by simpa using hmixed)
      have hparts := (List.forall₂_and_left _ _).mpr ⟨fun p hp => And.intro (hor p hp)
        (length_lt_of_mem_pieces hp hmany), trees_eq_ok_iff.mp htrees⟩
      have hclauses : List.Forall₂ (IsClause .strict) (pieces (cutWord (strip cs)) (strip cs)) ts := by
        refine hparts.imp ?_
        rintro p u ⟨⟨hu, hlt⟩, hread⟩
        have hstrip := length_strip_le cs
        have hstrip' := length_strip_le p
        exact isClause_of_part hu hread fun hr => ih _ (by omega) hr rfl
      rw [← hkeyword] at hcut hclauses
      exact .joined (isJoined_of_cut hop hcut hclauses)
    · rw [outline_whole hne hmany] at h
      have hjoined : IsJoined .strict .and (strip cs) [t] := .one (isClause_of_clause h)
      exact .joined hjoined

/-- Strict reading accepts the formulas of the grammar, with the trees of the grammar, and no
other text. -/
theorem parse_strict_iff (s : String) (t : Tree) :
    parse .strict s = .ok t ↔ IsFormula .strict s.toList t :=
  ⟨isFormula_of_outline, fun h => h.formulaRead.read⟩

end SignalEvolution.Formula

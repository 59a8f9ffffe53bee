import SignalEvolution.Proofs.Formula.Lenient
import SignalEvolution.Proofs.Formula.Slices

/-! # The descent by byte offsets

Formulas and clauses are read by each other from the encoded text. A clause that OR still
joins is handed on as a formula as it stands, so that a call need not shorten its text. The
descent ends all the same: such a text is cut next, into parts that are shorter, and a text
that is not cut is a clause and no formula. Two calls for each character are enough, and
every slice that is taken is a text.
-/
namespace SignalEvolution.Formula
open Text

/-- The outcome of a reading that came to its end. -/
def answer {α : Type} (outcome : Except Problem α) : ExceptT Problem Option α := ExceptT.mk (some outcome)

def operand? (mode : Mode) (cs : List Char) : ExceptT Problem Option Tree := do
  let text ← strip? (trim cs)
  if text.isEmpty then answer (fallback mode "empty operand" text)
  else match finite? text, Series.find? text with
    | some x, _ => return Tree.constant x
    | none, some s => return Tree.series s
    | none, none =>
      match ← callAt? text with
      | some (name, args) => answer (indicatorCall mode text name args)
      | none => answer (fallback mode "unrecognised operand" text)

/-- The clauses of a formula and the connective between them: AND where both connectives occur. -/
def clausesOf (text : List Char) (ands ors : List (List Char)) : Operator × List (List Char) :=
  if 1 < ands.length then (.and, ands) else if 1 < ors.length then (.or, ors) else (.and, [text])

/-- Joins the trees of the clauses from the left. -/
def joined? (mode : Mode) (source : List Char) (op : Operator) : List Tree → ExceptT Problem Option Tree
  | [] => answer (fallback mode "no clauses" source)
  | first :: rest => return rest.foldl (fun left right => .node (.operator op) [left, right]) first

mutual
/-- Reads a formula with calls that nest at most `depth` deep. There is no outcome where they
nest deeper or where a slice is not a text. -/
def formula? : (depth : Nat) → Mode → List Char → ExceptT Problem Option Tree
  | 0, _, _ => ExceptT.mk none
  | depth + 1, mode, cs => do
    let text ← strip? (trim cs)
    if text.isEmpty then answer (fallback mode "empty formula" cs)
    else
      let ands ← parts? andWord text
      let ors ← parts? orWord text
      if 1 < ands.length ∧ 1 < ors.length ∧ mode = .strict then
        answer (.error (.formula ("mixed AND/OR connectives in '" ++ String.ofList cs ++ "'")))
      else
        let (op, clauses) := clausesOf text ands ors
        let trees ← clauses.mapM (clause? depth mode)
        joined? mode cs op trees
/-- Reads a clause, which may be a formula of its own. -/
def clause? : (depth : Nat) → Mode → List Char → ExceptT Problem Option Tree
  | 0, _, _ => ExceptT.mk none
  | depth + 1, mode, cs => do
    let inner ← strip? (trim cs)
    if size inner ≠ size (trim cs) then formula? depth mode inner
    else
      let ors ← parts? orWord inner
      if 1 < ors.length then formula? depth mode inner
      else if inner.isEmpty then answer (fallback mode "empty clause" cs)
      else
        match ← sides? inner, mode with
        | some (left, cmp, right), mode =>
          let a ← operand? mode left
          let b ← operand? mode right
          return Tree.compare cmp a b
        | none, .strict =>
          answer (.error (.formula ("clause '" ++ String.ofList cs ++ "' has no comparator")))
        | none, .lenient => operand? mode inner
end

variable {α β : Type} {mode : Mode} {cs p keyword : List Char} {ps : List (List Char)}

theorem answer_bind (outcome : Except Problem α) (next : α → Except Problem β) :
    answer (outcome >>= next) = answer outcome >>= fun a => answer (next a) := by
  cases outcome <;> rfl

theorem lift_some_bind (a : α) (next : α → ExceptT Problem Option β) :
    (liftM (some a) : ExceptT Problem Option α) >>= next = next a := rfl

theorem strip?_trim (h : size cs < Nat.pow 2 31) : strip? (trim cs) = some (strip cs) := by
  rw [strip?_eq (Nat.lt_of_le_of_lt (size_trim_le cs) h), strip_trim]

theorem operand?_eq (h : size cs < Nat.pow 2 31) : operand? mode cs = answer (operand mode cs) := by
  rw [operand?, strip?_trim h, lift_some_bind, callAt?_eq, lift_some_bind]
  by_cases hempty : (strip cs).isEmpty = true
  · simp only [operand, hempty, if_true]
  · simp only [operand, hempty, if_false, Bool.false_eq_true]
    cases finite? (strip cs) with
    | some x => rfl
    | none =>
      cases Series.find? (strip cs) with
      | some s => rfl
      | none => cases call? (strip cs) <;> rfl

theorem size_strip_iff (cs : List Char) :
    size (strip cs) ≠ size (trim cs) ↔ (strip cs).length ≠ (trim cs).length := by
  have hsub : (strip cs).Sublist (trim cs) := strip_trim cs ▸ strip_sublist (trim cs)
  constructor
  · intro hsize hlen
    exact hsize (by rw [hsub.eq_of_length hlen])
  · intro hlen hsize
    have hle := size_add_length_le hsub
    have hlength := hsub.length_le
    omega

theorem isNested_iff (cs : List Char) : isNested (trim cs) (strip cs) = true ↔
    size (strip cs) ≠ size (trim cs) ∨ 1 < (pieces orWord (strip cs)).length := by
  rw [isNested, Bool.or_eq_true, bne_iff_ne, decide_eq_true_eq, size_strip_iff]

/-- A clause is read as a part is, if the formula that it may be is. -/
theorem clause?_eq (depth : Nat) (mode : Mode) (h : size cs < Nat.pow 2 31)
    (hformula : isNested (trim cs) (strip cs) = true →
      formula? depth mode (strip cs) = answer ((outline (strip cs)).tree mode)) :
    clause? (depth + 1) mode cs = answer ((part cs).tree mode) := by
  have hinner : size (strip cs) < Nat.pow 2 31 := Nat.lt_of_le_of_lt (size_strip_le cs) h
  have hnested := isNested_iff cs
  rw [clause?, strip?_trim h, lift_some_bind, part]
  by_cases hsize : size (strip cs) ≠ size (trim cs)
  · have hn := hnested.mpr (.inl hsize)
    rw [if_pos hsize, if_pos hn, hformula hn]
  rw [if_neg hsize, parts?_eq isKeyword_or hinner, lift_some_bind]
  by_cases hors : 1 < (pieces orWord (strip cs)).length
  · have hn := hnested.mpr (.inr hors)
    rw [if_pos hors, if_pos hn, hformula hn]
  rw [if_neg hors, if_neg (mt hnested.mp (not_or.mpr ⟨hsize, hors⟩)), Outline.tree]
  unfold clause
  split
  · rfl
  · rw [sides?_eq hinner, lift_some_bind]
    cases hc : comparison? (strip cs) with
    | none =>
      cases mode with
      | strict => rfl
      | lenient => exact operand?_eq hinner
    | some cut =>
      obtain ⟨left, cmp, right⟩ := cut
      obtain ⟨sign, _, hsides⟩ := comparison?_sound hc
      rw [hsides, size_append, size_append] at hinner
      have hleft : size left < Nat.pow 2 31 := by omega
      have hright : size right < Nat.pow 2 31 := by omega
      cases mode <;> simp only [operand?_eq hleft, operand?_eq hright, answer_bind] <;> rfl

theorem clauses?_eq (depth : Nat) (mode : Mode)
    (h : ∀ p ∈ ps, clause? depth mode p = answer ((part p).tree mode)) :
    ps.mapM (clause? depth mode) = answer (Outline.trees mode (ps.map part)) := by
  induction ps with
  | nil => rfl
  | cons p ps ih =>
    obtain ⟨hp, hps⟩ := List.forall_mem_cons.mp h
    rw [List.mapM_cons, hp, ih hps, List.map_cons, Outline.trees, answer_bind]
    simp only [answer_bind]
    rfl

/-- Joining needs no tree of its own: what was cut has at least one clause. -/
theorem joined?_eq (op : Operator) (source : List Char) {parts : List Outline} (hne : parts ≠ []) :
    (answer (Outline.trees mode parts) >>= joined? mode source op) =
      answer ((Outline.trees mode parts).map (join op)) := by
  obtain ⟨first, rest, rfl⟩ := List.exists_cons_of_ne_nil hne
  rw [Outline.trees]
  cases first.tree mode with
  | error problem => rfl
  | ok t => cases Outline.trees mode rest <;> rfl

theorem Cut.sublist (h : Cut keyword cs ps) : ∀ p ∈ ps, p.Sublist cs := by
  induction h with
  | whole _ => simp
  | @join piece word rest ps _ _ _ _ ih =>
    intro p hp
    rcases List.mem_cons.mp hp with rfl | hp
    · rw [List.append_assoc]
      exact List.sublist_append_left p _
    · exact (ih p hp).trans (List.sublist_append_right _ rest)

theorem size_le_of_mem_pieces (hk : IsKeyword keyword) (hp : p ∈ pieces keyword cs) : size p ≤ size cs :=
  size_le_of_sublist ((cut_pieces hk cs).sublist p hp)

theorem isKeyword_cutWord (text : List Char) : IsKeyword (cutWord text) := by
  unfold cutWord
  split
  · exact isKeyword_and
  · exact isKeyword_or

theorem clausesOf_eq (text : List Char) : clausesOf text (pieces andWord text) (pieces orWord text) =
    if 1 < (pieces (cutWord text) text).length then (cutOperator text, pieces (cutWord text) text)
    else (.and, [text]) := by
  unfold clausesOf cutWord cutOperator occurs
  by_cases hands : 1 < (pieces andWord text).length <;> simp [hands]

theorem not_cut_iff (text : List Char) : ¬ 1 < (pieces (cutWord text) text).length ↔
    ¬ 1 < (pieces andWord text).length ∧ ¬ 1 < (pieces orWord text).length := by
  unfold cutWord occurs
  by_cases hands : 1 < (pieces andWord text).length <;> simp [hands]

theorem not_isNested_strip (hors : ¬ 1 < (pieces orWord (strip cs)).length) :
    ¬ isNested (trim (strip cs)) (strip (strip cs)) = true := by
  rw [isNested_iff, strip_strip, trim_of_trimmed (strip_spec cs).1]
  exact not_or.mpr ⟨not_not.mpr rfl, hors⟩

/-- The descent ends, and reads what the outline of the text says. -/
theorem formula?_eq (depth : Nat) (mode : Mode) (cs : List Char) (hdepth : 2 * cs.length + 2 ≤ depth)
    (h : size cs < Nat.pow 2 31) : formula? depth mode cs = answer ((outline cs).tree mode) := by
  -- A part is shorter than the text that it was cut from, and a text that is not cut is no formula.
  induction hn : cs.length using Nat.strong_induction_on generalizing depth cs with
  | h n ih =>
    obtain ⟨depth, rfl⟩ : ∃ calls, depth = calls + 2 := ⟨depth - 2, by omega⟩
    have htext : size (strip cs) < Nat.pow 2 31 := Nat.lt_of_le_of_lt (size_strip_le cs) h
    rw [formula?, strip?_trim h, lift_some_bind]
    by_cases hempty : strip cs = []
    · rw [outline_tree_blank hempty, if_pos (List.isEmpty_iff.mpr hempty)]
    rw [if_neg (mt List.isEmpty_iff.mp hempty), parts?_eq isKeyword_and htext, lift_some_bind,
      parts?_eq isKeyword_or htext, lift_some_bind, clausesOf_eq]
    by_cases hcut : 1 < (pieces (cutWord (strip cs)) (strip cs)).length
    · have hclauses := clauses?_eq (depth + 1) mode fun p (hp : p ∈ pieces (cutWord (strip cs)) (strip cs)) => by
        have hsize := size_le_of_mem_pieces (isKeyword_cutWord (strip cs)) hp
        have hsize' := size_strip_le p
        have hshort := length_lt_of_mem_pieces hp hcut
        have hstrip := length_strip_le cs
        have hstrip' := length_strip_le p
        exact clause?_eq depth mode (by omega) fun _ => ih _ (by omega) depth (strip p) (by omega) (by omega) rfl
      have hne : (pieces (cutWord (strip cs)) (strip cs)).map part ≠ [] := by
        rw [Ne, List.map_eq_nil_iff]
        exact piecesFrom_ne_nil 0 0 none _
      have hmixed : (occurs andWord (strip cs) && occurs orWord (strip cs) && mode == .strict) = true ↔
          1 < (pieces andWord (strip cs)).length ∧ 1 < (pieces orWord (strip cs)).length ∧ mode = .strict := by
        simp [occurs, and_assoc]
      rw [outline_joined hempty hcut, Outline.tree]
      simp only [hmixed, if_pos hcut]
      split
      · rfl
      · rw [hclauses]
        exact joined?_eq (cutOperator (strip cs)) cs hne
    · obtain ⟨hands, hors⟩ := (not_cut_iff (strip cs)).mp hcut
      have hnested := not_isNested_strip hors
      have hclause := clause?_eq depth mode htext fun h => absurd h hnested
      rw [part, if_neg hnested, strip_strip] at hclause
      rw [outline_whole hempty hcut, if_neg fun h => hands h.1, if_neg hcut]
      dsimp only
      rw [List.mapM_cons, hclause]
      cases (Outline.clause (strip cs) (strip cs)).tree mode <;> rfl

/-- On every text of less than two gibibytes the descent of formulas and clauses ends in both modes, with
at most two calls nested for each character and with all slices taken between characters. Lenient reading
yields a tree of AND and OR over comparisons of two leaves or leaves alone, with finite numbers and every
declared parameter. -/
theorem descent_ends (s : String) (h : s.utf8ByteSize < Nat.pow 2 31) :
    (∀ mode depth, 2 * s.length + 3 ≤ depth → formula? depth mode s.toList = answer (parse mode s) ∧
      clause? depth mode s.toList = answer ((part s.toList).tree mode)) ∧
    ∃ t, parse .lenient s = .ok t ∧ Legible .lenient t ∧ t.Every TidyKind := by
  rw [← size_toList] at h
  constructor
  · intro mode depth hdepth
    rw [← String.length_toList] at hdepth
    obtain ⟨depth, rfl⟩ : ∃ calls, depth = calls + 1 := ⟨depth - 1, by omega⟩
    have hinner := size_strip_le s.toList
    have hshort := length_strip_le s.toList
    refine ⟨formula?_eq (depth + 1) mode s.toList (by omega) h, clause?_eq depth mode h fun _ => ?_⟩
    exact formula?_eq depth mode (strip s.toList) (by omega) (Nat.lt_of_le_of_lt hinner h)
  · obtain ⟨t, ht, hrecovered⟩ := outline_lenient s.toList
    exact ⟨t, ht, hrecovered.legible, hrecovered.tidy⟩

set_option maxRecDepth 4000 in
/-- A clause that OR still joins, a letter of two bytes, a sign of three and a parenthesis too many. -/
theorem descent_ends_mixed :
    "é ≥ close or open AND low < high)".utf8ByteSize < Nat.pow 2 31 ∧
    formula? 69 .lenient "é ≥ close or open AND low < high)".toList = answer (.ok
      (.node (.operator .and)
        [.node (.operator .or)
          [Tree.compare .greaterEqual (Tree.series .close) (Tree.series .close), Tree.series .opening],
        Tree.compare .less (Tree.series .low) (Tree.series .close)])) ∧
    formula? 69 .strict "é ≥ close or open AND low < high)".toList = answer (.error (.formula
      "mixed AND/OR connectives in 'é ≥ close or open AND low < high)'")) ∧
    ∃ t, parse .lenient "é ≥ close or open AND low < high)" = .ok t ∧
      Legible .lenient t ∧ t.Every TidyKind := by
  have hsize : "é ≥ close or open AND low < high)".utf8ByteSize < Nat.pow 2 31 := by decide
  obtain ⟨hends, htree⟩ := descent_ends "é ≥ close or open AND low < high)" hsize
  refine ⟨hsize, ?_, ?_, htree⟩
  · rw [(hends .lenient 69 (by decide)).1]
    exact congrArg answer (by cbv)
  · rw [(hends .strict 69 (by decide)).1]
    exact congrArg answer (by cbv)

end SignalEvolution.Formula

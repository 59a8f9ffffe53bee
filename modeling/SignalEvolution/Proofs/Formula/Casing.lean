import Mathlib
import SignalEvolution.Proofs.Formula.Lenient

/-! # Letter case

Reading looks at names, keywords and numbers in one case, each in its own way, and at signs, digits
and parentheses, which have none. So a text in lower case is cut where the text itself is cut, every
piece in lower case, and is read as the same tree; only what an error shows of the text differs.
-/
namespace SignalEvolution
open Text

namespace Decimal

theorem takeWhile_isDigit_lower (cs : List Char) :
    (lower cs).takeWhile Char.isDigit = cs.takeWhile Char.isDigit := by
  have hdigit : Char.isDigit ∘ Char.toLower = Char.isDigit := funext isDigit_toLower
  rw [lower, List.takeWhile_map, hdigit]
  exact lower_of_isDigit fun c hc => List.mem_takeWhile_imp hc

theorem dropWhile_isDigit_lower (cs : List Char) :
    (lower cs).dropWhile Char.isDigit = lower (cs.dropWhile Char.isDigit) := by
  have hdigit : Char.isDigit ∘ Char.toLower = Char.isDigit := funext isDigit_toLower
  rw [lower, List.dropWhile_map, hdigit]
  rfl

theorem splitSign_cons (c : Char) (cs : List Char) : splitSign (c :: cs) =
    if c = '-' then (true, cs) else if c = '+' then (false, cs) else (false, c :: cs) := by
  split_ifs with hminus hplus
  · rw [hminus, splitSign]
  · rw [hplus, splitSign]
  · rw [splitSign]
    · simpa using hminus
    · simpa using hplus

theorem splitSign_lower (cs : List Char) :
    splitSign (lower cs) = ((splitSign cs).1, lower (splitSign cs).2) := by
  cases cs with
  | nil => rfl
  | cons c cs =>
    have hminus : c.toLower = '-' ↔ c = '-' := toLower_eq_iff (by decide)
    have hplus : c.toLower = '+' ↔ c = '+' := toLower_eq_iff (by decide)
    simp only [lower_cons, splitSign_cons, hminus, hplus]
    split_ifs <;> rfl

theorem exponent?_lower (cs : List Char) : exponent? (lower cs) = exponent? cs := by
  rw [exponent?, exponent?, splitSign_lower]
  cases splitSign cs with
  | mk negative digits =>
    by_cases hdigits : digits.all Char.isDigit = true
    · rw [lower_of_isDigit (List.all_eq_true.mp hdigits)]
    · have hdigits' : ¬ (lower digits).all Char.isDigit = true := by rwa [all_lower isDigit_toLower]
      simp [hdigits, hdigits']

theorem fraction_lower (cs : List Char) : fraction (lower cs) = ((fraction cs).1, lower (fraction cs).2) := by
  cases cs with
  | nil => rfl
  | cons c cs =>
    have hpoint : c.toLower = '.' ↔ c = '.' := toLower_eq_iff (by decide)
    simp only [lower_cons, fraction_cons, hpoint, takeWhile_isDigit_lower, dropWhile_isDigit_lower]
    split_ifs <;> rfl

/-- The letter of an exponent is read in either case. -/
theorem scaled?_lower (digits places : Nat) (cs : List Char) :
    scaled? digits places (lower cs) = scaled? digits places cs := by
  cases cs with
  | nil => rfl
  | cons c cs =>
    have hletter : (c.toLower = 'e' ∨ c.toLower = 'E') ↔ (c = 'e' ∨ c = 'E') := by
      simp only [← Char.toNat_inj, toNat_toLower, Char.reduceToNat]
      split_ifs <;> omega
    simp only [lower_cons, scaled?, Bool.or_eq_true, decide_eq_true_eq, hletter, exponent?_lower]

theorem unsigned?_lower (cs : List Char) : unsigned? (lower cs) = unsigned? cs := by
  simp only [unsigned?_eq, takeWhile_isDigit_lower, dropWhile_isDigit_lower, fraction_lower, scaled?_lower]

theorem read?_lower (cs : List Char) : read? (lower cs) = read? cs := by
  rw [read?, read?, splitSign_lower]
  cases splitSign cs with
  | mk negative body =>
    have hword : (lower body).map Char.toLower = body.map Char.toLower := lower_lower body
    simp only [hword, unsigned?_lower]

end Decimal

namespace Formula

variable {mode : Mode} {keyword : List Char}

theorem finite?_lower (cs : List Char) : finite? (lower cs) = finite? cs := by
  rw [finite?, finite?, Decimal.read?_lower]

theorem nesting_toLower (level : Int) (c : Char) : nesting level c.toLower = nesting level c := by
  have hopen : c.toLower = '(' ↔ c = '(' := toLower_eq_iff (by decide)
  have hclose : c.toLower = ')' ↔ c = ')' := toLower_eq_iff (by decide)
  simp only [nesting, hopen, hclose]

theorem startsWord_lower (keyword : List Char) (previous : Option Char) (cs : List Char) :
    startsWord keyword (previous.map Char.toLower) (lower cs) = startsWord keyword previous cs := by
  have htake : (lower cs).take keyword.length = lower (cs.take keyword.length) := List.map_take.symm
  have hdrop : (lower cs).drop keyword.length = lower (cs.drop keyword.length) := List.map_drop.symm
  rw [startsWord, startsWord, htake, hdrop, upper_lower, head?_lower]
  simp only [Option.any_map, isWordChar_toLower]

theorem consFirst_lower (c : Char) (ps : List (List Char)) :
    consFirst c.toLower (ps.map lower) = (consFirst c ps).map lower := by
  cases ps <;> rfl

theorem piecesFrom_lower (skip : Nat) (level : Int) (previous : Option Char) (cs : List Char) :
    piecesFrom keyword skip level (previous.map Char.toLower) (lower cs) =
      (piecesFrom keyword skip level previous cs).map lower := by
  induction cs generalizing skip level previous with
  | nil => cases skip <;> rfl
  | cons c cs ih =>
    cases skip with
    | succ skip => exact ih skip level (some c)
    | zero =>
      have hstart := startsWord_lower keyword previous (c :: cs)
      rw [lower_cons] at hstart ⊢
      rw [piecesFrom, piecesFrom, nesting_toLower, hstart]
      split
      · exact congrArg _ (ih (keyword.length - 1) (nesting level c) (some c))
      · rw [← consFirst_lower, ← ih 0 (nesting level c) (some c)]
        rfl

theorem pieces_lower (keyword cs : List Char) : pieces keyword (lower cs) = (pieces keyword cs).map lower :=
  piecesFrom_lower 0 0 none cs

/-- The comparator that a text begins with depends on two characters. -/
theorem comparatorAt?_cons (c : Char) (cs : List Char) : comparatorAt? (c :: cs) =
    if c = '≥' then some (.greaterEqual, cs) else if c = '≤' then some (.lessEqual, cs)
    else if c = '≠' then some (.different, cs)
    else if c = '>' then if cs.head? = some '=' then some (.greaterEqual, cs.tail) else some (.greater, cs)
    else if c = '<' then
      if cs.head? = some '=' then some (.lessEqual, cs.tail)
      else if cs.head? = some '>' then some (.different, cs.tail) else some (.less, cs)
    else if c = '=' then if cs.head? = some '=' then some (.equal, cs.tail) else some (.equal, cs)
    else if c = '!' ∧ cs.head? = some '=' then some (.different, cs.tail) else none := by
  unfold comparatorAt?
  split
  case h_12 => cases cs <;> simp_all
  all_goals
    next he =>
      obtain ⟨rfl, rfl⟩ := List.cons.inj he
      first
        | rfl
        | cases cs <;> simp_all

theorem comparatorAt?_lower (cs : List Char) :
    comparatorAt? (lower cs) = (comparatorAt? cs).map (Prod.map id lower) := by
  cases cs with
  | nil => rfl
  | cons c cs =>
    have htail : (lower cs).tail = lower cs.tail := List.map_tail.symm
    rw [lower_cons, comparatorAt?_cons, comparatorAt?_cons, head?_lower, htail]
    simp (disch := decide) only [toLower_eq_iff, map_toLower_eq_some_iff]
    split_ifs <;> rfl

theorem cutFrom_lower (level : Int) (cs : List Char) :
    cutFrom level (lower cs) = (cutFrom level cs).map (Prod.map lower (Prod.map id lower)) := by
  induction cs generalizing level with
  | nil => rfl
  | cons c cs ih =>
    have hat := comparatorAt?_lower (c :: cs)
    rw [lower_cons] at hat ⊢
    simp only [cutFrom, nesting_toLower, ih, hat]
    simp (disch := decide) only [Ne, toLower_eq_iff]
    split_ifs
    · cases comparatorAt? (c :: cs) with
      | none => cases cutFrom (nesting level c) cs <;> rfl
      | some found => rfl
    · cases cutFrom (nesting level c) cs <;> rfl

theorem comparison?_lower (cs : List Char) :
    comparison? (lower cs) = (comparison? cs).map (Prod.map lower (Prod.map id lower)) :=
  cutFrom_lower 0 cs

theorem balancedFrom_lower (level : Int) (cs : List Char) :
    balancedFrom level (lower cs) = balancedFrom level cs := by
  induction cs generalizing level with
  | nil => rfl
  | cons c cs ih =>
    have hclose : c.toLower = ')' ↔ c = ')' := toLower_eq_iff (by decide)
    have hnil : lower cs = [] ↔ cs = [] := List.map_eq_nil_iff
    rw [lower_cons]
    simp only [balancedFrom, hclose, Ne, hnil, nesting_toLower, ih]

theorem inside?_cons (c : Char) (cs : List Char) : inside? (c :: cs) =
    if c = '(' ∧ cs.getLast? = some ')' ∧ balancedFrom 1 cs then some cs.dropLast else none := by
  by_cases hopen : c = '('
  · subst hopen
    simp [inside?]
  · rw [inside?]
    · simp [hopen]
    · simpa using hopen

theorem inside?_lower (cs : List Char) : inside? (lower cs) = (inside? cs).map lower := by
  cases cs with
  | nil => rfl
  | cons c cs =>
    rw [lower_cons, inside?_cons, inside?_cons, getLast?_lower, dropLast_lower]
    simp (disch := decide) only [toLower_eq_iff, map_toLower_eq_some_iff, balancedFrom_lower]
    split_ifs <;> rfl

theorem strip_lower (cs : List Char) : strip (lower cs) = lower (strip cs) := by
  fun_induction strip cs with
  | case1 cs inner h ih =>
    have hinside : inside? (trim (lower cs)) = some (lower inner) := by
      rw [trim_lower, inside?_lower, h]
      rfl
    rw [strip_of_inside hinside, ih]
  | case2 cs h =>
    have hinside : inside? (trim (lower cs)) = none := by
      rw [trim_lower, inside?_lower, h]
      rfl
    rw [strip_of_not_inside hinside, trim_lower]

theorem series_find?_lower (cs : List Char) : Series.find? (lower cs) = Series.find? cs := by
  simp only [Series.find?, trim_lower, lower_lower]

theorem indicator_find?_lower (name : List Char) : Indicator.find? (lower name) = Indicator.find? name := by
  have hname : (lower name).map Char.toLower = name.map Char.toLower := lower_lower name
  rw [Indicator.find?, hname]
  rfl

theorem call?_lower (cs : List Char) : call? (lower cs) = (call? cs).map (Prod.map lower lower) := by
  rw [call?, call?, splitFirst?_lower (by decide)]
  cases splitFirst? '(' cs with
  | none => rfl
  | some cut =>
    obtain ⟨before, after⟩ := cut
    have hdigit : ((trim before).head?.map Char.toLower).any Char.isDigit =
        (trim before).head?.any Char.isDigit := by
      simp only [Option.any_map, isDigit_toLower]
    have hflat : (lower after.dropLast).all (fun c => c != '(' && c != ')') =
        after.dropLast.all fun c => c != '(' && c != ')' := by
      refine all_lower (fun c => ?_) _
      rw [Bool.eq_iff_iff]
      simp (disch := decide) [toLower_eq_iff]
    simp only [Option.map_some, Prod.map, Option.bind_some, trim_lower, getLast?_lower, dropLast_lower,
      head?_lower, isEmpty_lower, all_lower isWordChar_toLower, hdigit, hflat]
    simp (disch := decide) only [map_toLower_eq_some_iff]
    split <;> rfl

theorem argumentTarget?_lower (specs : List (ParamSpec Float)) (position : Nat) (arg : List Char) :
    argumentTarget? specs position (lower arg) =
      (argumentTarget? specs position arg).map (Prod.map id lower) := by
  rw [argumentTarget?, argumentTarget?, splitFirst?_lower (by decide)]
  cases splitFirst? '=' arg with
  | none => cases specs[position]? <;> rfl
  | some cut => simp [trim_lower, lower_lower]

theorem arguments_lower (cs : List Char) : arguments (lower cs) = (arguments cs).map lower := by
  have hsplit : splitOn ',' (lower (trim cs)) = (splitOn ',' (trim cs)).map lower :=
    splitOn_lower (by decide) _
  rw [arguments, arguments, trim_lower]
  simp only [isEmpty_lower, hsplit]
  split <;> rfl

theorem toOption_bind {α β : Type} (outcome : Except Problem α) (next : α → Except Problem β) :
    (outcome >>= next).toOption = outcome.toOption.bind fun x => (next x).toOption := by
  cases outcome <;> rfl

theorem toOption_map {α β : Type} (outcome : Except Problem α) (f : α → β) :
    (outcome.map f).toOption = outcome.toOption.map f := by
  cases outcome <;> rfl

theorem toOption_eq_some_iff {α : Type} {outcome : Except Problem α} {x : α} :
    outcome.toOption = some x ↔ outcome = .ok x := by
  cases outcome <;> simp [Except.toOption]

theorem fallback_toOption (mode : Mode) (reason : String) (cs ds : List Char) :
    (fallback mode reason cs).toOption = (fallback mode reason ds).toOption := by
  cases mode <;> rfl

variable {i : Indicator}

theorem storeArgument_lower (mode : Mode) (params : Table Float) (position : Nat) (arg : List Char) :
    (storeArgument mode i params position (lower arg)).toOption =
      (storeArgument mode i params position arg).toOption := by
  unfold storeArgument
  rw [argumentTarget?_lower]
  cases argumentTarget? i.specs position arg with
  | none => cases mode <;> rfl
  | some target =>
    simp only [Option.map_some, Prod.map, finite?_lower]
    cases finite? target.2 <;> cases mode <;> rfl

theorem storeArguments_lower (mode : Mode) (params : Table Float) (position : Nat) (args : List (List Char)) :
    (storeArguments mode i params position (args.map lower)).toOption =
      (storeArguments mode i params position args).toOption := by
  induction args generalizing params position with
  | nil => rfl
  | cons arg args ih =>
    rw [List.map_cons, storeArguments, storeArguments, toOption_bind, toOption_bind, trim_lower,
      storeArgument_lower]
    exact congrArg _ (funext fun stored => ih stored _)

theorem indicatorCall_lower (mode : Mode) (source name args : List Char) :
    (indicatorCall mode (lower source) (lower name) (lower args)).toOption =
      (indicatorCall mode source name args).toOption := by
  rw [indicatorCall, indicatorCall, indicator_find?_lower, arguments_lower]
  cases Indicator.find? name with
  | none => exact fallback_toOption _ _ _ _
  | some i =>
    dsimp only
    rw [toOption_bind, toOption_bind, storeArguments_lower]

theorem operand_lower (mode : Mode) (cs : List Char) :
    (operand mode (lower cs)).toOption = (operand mode cs).toOption := by
  rw [operand, operand]
  simp only [strip_lower, isEmpty_lower, finite?_lower, series_find?_lower, call?_lower]
  split
  · exact fallback_toOption _ _ _ _
  · cases finite? (strip cs) with
    | some x => rfl
    | none =>
      cases Series.find? (strip cs) with
      | some s => rfl
      | none =>
        cases call? (strip cs) with
        | none => exact fallback_toOption _ _ _ _
        | some call => exact indicatorCall_lower _ _ _ _

theorem clause_lower (mode : Mode) (source cs : List Char) :
    (clause mode (lower source) (lower cs)).toOption = (clause mode source cs).toOption := by
  unfold clause
  rw [isEmpty_lower, comparison?_lower]
  split
  · exact fallback_toOption _ _ _ _
  · cases comparison? cs with
    | none =>
      cases mode with
      | strict => rfl
      | lenient => exact operand_lower _ _
    | some cut =>
      simp only [Option.map_some, Prod.map, id, toOption_bind, operand_lower]

theorem occurs_lower (keyword cs : List Char) : occurs keyword (lower cs) = occurs keyword cs := by
  rw [occurs, occurs, pieces_lower, List.length_map]

theorem cutWord_lower (cs : List Char) : cutWord (lower cs) = cutWord cs := by
  rw [cutWord, cutWord, occurs_lower]

theorem cutOperator_lower (cs : List Char) : cutOperator (lower cs) = cutOperator cs := by
  rw [cutOperator, cutOperator, occurs_lower]

theorem isNested_lower (cs ds : List Char) : isNested (lower cs) (lower ds) = isNested cs ds := by
  have hlength : ∀ es, (lower es).length = es.length := fun es => List.length_map _
  rw [isNested, isNested, pieces_lower, List.length_map, hlength, hlength]

theorem part_tree_lower {p : List Char}
    (h : ((outline (lower (strip p))).tree mode).toOption = ((outline (strip p)).tree mode).toOption) :
    ((part (lower p)).tree mode).toOption = ((part p).tree mode).toOption := by
  rw [part, part, trim_lower, strip_lower, isNested_lower]
  split
  · exact h
  · exact clause_lower _ _ _

theorem trees_lower {ps : List (List Char)}
    (h : ∀ p ∈ ps, ((part (lower p)).tree mode).toOption = ((part p).tree mode).toOption) :
    (Outline.trees mode ((ps.map lower).map part)).toOption = (Outline.trees mode (ps.map part)).toOption := by
  induction ps with
  | nil => rfl
  | cons p ps ih =>
    obtain ⟨hp, hps⟩ := List.forall_mem_cons.mp h
    simp only [List.map_cons, Outline.trees, toOption_bind, hp, ih hps]

theorem outline_tree_lower (mode : Mode) (cs : List Char) :
    ((outline (lower cs)).tree mode).toOption = ((outline cs).tree mode).toOption := by
  -- A part is shorter than the text that it was cut from.
  induction hn : cs.length using Nat.strong_induction_on generalizing cs with
  | h n ih =>
    have hvisible : strip (lower cs) = [] ↔ strip cs = [] := by rw [strip_lower, lower, List.map_eq_nil_iff]
    by_cases hne : strip cs = []
    · rw [outline_tree_blank hne, outline_tree_blank (hvisible.mpr hne)]
      exact fallback_toOption _ _ _ _
    have hpieces : pieces (cutWord (strip (lower cs))) (strip (lower cs)) =
        (pieces (cutWord (strip cs)) (strip cs)).map lower := by
      rw [strip_lower, cutWord_lower, pieces_lower]
    by_cases hmany : 1 < (pieces (cutWord (strip cs)) (strip cs)).length
    · have hmany' : 1 < (pieces (cutWord (strip (lower cs))) (strip (lower cs))).length := by
        rwa [hpieces, List.length_map]
      have hparts : ∀ p ∈ pieces (cutWord (strip cs)) (strip cs),
          ((part (lower p)).tree mode).toOption = ((part p).tree mode).toOption := by
        intro p hp
        have hshort := length_lt_of_mem_pieces hp hmany
        have hstrip := length_strip_le cs
        have hstrip' := length_strip_le p
        exact part_tree_lower (ih _ (by omega) (strip p) rfl)
      rw [outline_joined hne hmany, outline_joined (mt hvisible.mp hne) hmany', hpieces, strip_lower,
        cutOperator_lower, occurs_lower, occurs_lower, Outline.tree, Outline.tree]
      split
      · rfl
      · rw [toOption_map, toOption_map, trees_lower hparts]
    · have hmany' : ¬ 1 < (pieces (cutWord (strip (lower cs))) (strip (lower cs))).length := by
        rwa [hpieces, List.length_map]
      rw [outline_whole hne hmany, outline_whole (mt hvisible.mp hne) hmany', strip_lower]
      exact clause_lower _ _ _

/-- The case of letters is of no account: lenient reading yields the same tree for both texts, and strict
reading yields the same tree for both or refuses both. -/
theorem parse_caseless {s s' : String} (h : lower s.toList = lower s'.toList) :
    (∃ t, parse .lenient s = .ok t ∧ parse .lenient s' = .ok t) ∧
      ∀ t, parse .strict s = .ok t ↔ parse .strict s' = .ok t := by
  have hsame : ∀ mode, (parse mode s).toOption = (parse mode s').toOption := by
    intro mode
    rw [parse, parse, ← outline_tree_lower, h, outline_tree_lower]
  have hiff : ∀ mode t, parse mode s = .ok t ↔ parse mode s' = .ok t := by
    intro mode t
    rw [← toOption_eq_some_iff, hsame, toOption_eq_some_iff]
  obtain ⟨t, ht, _⟩ := outline_lenient s.toList
  exact ⟨⟨t, ht, (hiff .lenient t).mp ht⟩, hiff .strict⟩

set_option maxRecDepth 4000 in
/-- The connective and the series are written in another case each. -/
theorem parse_caseless_spellings :
    let s := "Close > open or HIGH < low"
    let s' := "close > Open OR high < LOW"
    lower s.toList = lower s'.toList ∧ (∃ t, parse .lenient s = .ok t ∧ parse .lenient s' = .ok t) ∧
      ∃ t, parse .strict s = .ok t ∧ parse .strict s' = .ok t := by
  intro s s'
  have h : lower s.toList = lower s'.toList := by decide
  obtain ⟨hlenient, hstrict⟩ := parse_caseless h
  have hread : parse .strict s = .ok (.either (.compare .greater (.series .close) (.series .opening))
      (.compare .less (.series .high) (.series .low))) := by cbv
  exact ⟨h, hlenient, _, hread, (hstrict _).mp hread⟩

end Formula
end SignalEvolution

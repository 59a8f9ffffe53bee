import SignalEvolution.Text.Blank
import SignalEvolution.Tree.Symbol

/-! # Cutting formula text

Formulas are cut at connectives and comparators that stand outside all
parentheses. The nesting level counts from the start of the text that is cut
and is negative after a closing parenthesis too many.
-/
namespace SignalEvolution.Formula

def nesting (level : Int) (c : Char) : Int :=
  if c = '(' then level + 1 else if c = ')' then level - 1 else level

/-- Letters, digits and the underscore, all of ASCII. -/
def isWordChar (c : Char) : Bool := c.isAlphanum || c == '_'

/-- Whether the text goes on with the keyword in any case, as a word of its own. -/
def startsWord (keyword : List Char) (previous : Option Char) (cs : List Char) : Bool :=
  !previous.any isWordChar && Text.upper (cs.take keyword.length) == keyword &&
    !(cs.drop keyword.length).head?.any isWordChar

def consFirst (c : Char) : List (List Char) → List (List Char)
  | [] => [[c]]
  | piece :: rest => (c :: piece) :: rest

/-- Pieces between the keywords at level zero. `skip` characters of a keyword are still to be passed over. -/
def piecesFrom (keyword : List Char) :
    (skip : Nat) → (level : Int) → (previous : Option Char) → List Char → List (List Char)
  | _, _, _, [] => [[]]
  | skip + 1, level, _, c :: rest => piecesFrom keyword skip level (some c) rest
  | 0, level, previous, c :: rest =>
    if nesting level c = 0 ∧ startsWord keyword previous (c :: rest) then
      [] :: piecesFrom keyword (keyword.length - 1) (nesting level c) (some c) rest
    else consFirst c (piecesFrom keyword 0 (nesting level c) (some c) rest)

def pieces (keyword : List Char) (cs : List Char) : List (List Char) :=
  piecesFrom keyword 0 0 none cs

def andWord : List Char := ['A', 'N', 'D']

def orWord : List Char := ['O', 'R']

/-- A comparator at the front of the text, the longest that fits, and what follows it. -/
def comparatorAt? : List Char → Option (Comparator × List Char)
  | '≥' :: rest => some (.greaterEqual, rest)
  | '≤' :: rest => some (.lessEqual, rest)
  | '≠' :: rest => some (.different, rest)
  | '>' :: '=' :: rest => some (.greaterEqual, rest)
  | '<' :: '=' :: rest => some (.lessEqual, rest)
  | '=' :: '=' :: rest => some (.equal, rest)
  | '!' :: '=' :: rest => some (.different, rest)
  | '<' :: '>' :: rest => some (.different, rest)
  | '>' :: rest => some (.greater, rest)
  | '<' :: rest => some (.less, rest)
  | '=' :: rest => some (.equal, rest)
  | _ => none

def cutFrom (level : Int) : List Char → Option (List Char × Comparator × List Char)
  | [] => none
  | c :: rest =>
    let cut := if level = 0 ∧ c ≠ '(' ∧ c ≠ ')' then comparatorAt? (c :: rest) else none
    match cut with
    | some (cmp, after) => some ([], cmp, after)
    | none => (cutFrom (nesting level c) rest).map fun (left, cut) => (c :: left, cut)

def comparison? (cs : List Char) : Option (List Char × Comparator × List Char) := cutFrom 0 cs

/-- Whether every closing parenthesis before the last character leaves a level above zero,
and the last one ends at it. -/
def balancedFrom (level : Int) : List Char → Bool
  | [] => level == 0
  | c :: rest =>
    if c = ')' ∧ level - 1 = 0 ∧ rest ≠ [] then false
    else balancedFrom (nesting level c) rest

def inside? : List Char → Option (List Char)
  | '(' :: rest =>
    if rest.getLast? = some ')' ∧ balancedFrom 1 rest then some rest.dropLast else none
  | _ => none

theorem length_dropWhile_le (p : Char → Bool) (cs : List Char) :
    (cs.dropWhile p).length ≤ cs.length := (List.dropWhile_sublist p).length_le

theorem length_trim_le (cs : List Char) : (Text.trim cs).length ≤ cs.length := by
  have h := length_dropWhile_le Text.isBlank (Text.trimStart cs).reverse
  have h' := length_dropWhile_le Text.isBlank cs
  simp only [Text.trim, Text.trimEnd, Text.trimStart, List.length_reverse] at h h' ⊢
  omega

theorem length_inside_lt {cs inner : List Char} (h : inside? cs = some inner) :
    inner.length < cs.length := by
  unfold inside? at h
  split at h
  · next rest =>
    split at h
    · cases h
      simp only [List.length_dropLast, List.length_cons]
      omega
    · cases h
  · cases h

/-- Takes off white space and enclosing parentheses, again and again. -/
def strip (cs : List Char) : List Char :=
  match _h : inside? (Text.trim cs) with
  | some inner => strip inner
  | none => Text.trim cs
termination_by cs.length
decreasing_by
  exact Nat.lt_of_lt_of_le (length_inside_lt _h) (length_trim_le cs)

theorem length_strip_le (cs : List Char) : (strip cs).length ≤ cs.length := by
  fun_induction strip cs with
  | case1 cs inner h ih =>
    exact Nat.le_trans ih (Nat.le_of_lt (Nat.lt_of_lt_of_le (length_inside_lt h) (length_trim_le cs)))
  | case2 cs => exact length_trim_le cs

theorem length_flatten_consFirst (c : Char) (ps : List (List Char)) :
    (consFirst c ps).flatten.length = ps.flatten.length + 1 := by
  cases ps <;> simp [consFirst]

theorem length_flatten_piecesFrom (keyword : List Char) (cs : List Char) :
    ∀ skip level previous, (piecesFrom keyword skip level previous cs).flatten.length ≤ cs.length ∧
      (1 < (piecesFrom keyword skip level previous cs).length →
        (piecesFrom keyword skip level previous cs).flatten.length < cs.length) := by
  induction cs with
  | nil => intro skip level previous; simp [piecesFrom]
  | cons c rest ih =>
    intro skip level previous
    cases skip with
    | succ skip =>
      have h := (ih skip level (some c)).1
      simp only [piecesFrom, List.length_cons]
      omega
    | zero =>
      simp only [piecesFrom]
      split
      · have h := (ih (keyword.length - 1) (nesting level c) (some c)).1
        simp only [List.flatten_cons, List.nil_append, List.length_cons]
        omega
      · have h := ih 0 (nesting level c) (some c)
        have hlen : ∀ ps : List (List Char), 1 < (consFirst c ps).length → 1 < ps.length := by
          intro ps; cases ps <;> simp [consFirst]
        rw [length_flatten_consFirst, List.length_cons]
        exact ⟨Nat.succ_le_succ h.1, fun h1 => Nat.succ_lt_succ (h.2 (hlen _ h1))⟩

theorem length_le_of_mem_flatten {p : List Char} {ps : List (List Char)} (h : p ∈ ps) :
    p.length ≤ ps.flatten.length := (List.sublist_flatten_of_mem h).length_le

theorem length_lt_of_mem_pieces {keyword cs p : List Char} (h : p ∈ pieces keyword cs)
    (hcut : 1 < (pieces keyword cs).length) : p.length < cs.length :=
  Nat.lt_of_le_of_lt (length_le_of_mem_flatten h)
    ((length_flatten_piecesFrom keyword cs 0 0 none).2 hcut)

end SignalEvolution.Formula

import SignalEvolution.Formula.Reader
import SignalEvolution.Proofs.Formula.Offsets
import SignalEvolution.Proofs.Text.Split

/-! # Clauses, parentheses and calls by byte offsets

The comparator of a clause, the parentheses around a text and the call that an operand
makes are found at byte offsets, and what stands beside and between them is sliced out.
-/
namespace SignalEvolution.Formula
open Text

/-- The comparator that a character begins, by the character after it, and its number of bytes. -/
def signAt? : Char → Option Char → Option (Nat × Comparator)
  | '≥', _ => some ('≥'.utf8Size, .greaterEqual)
  | '≤', _ => some ('≤'.utf8Size, .lessEqual)
  | '≠', _ => some ('≠'.utf8Size, .different)
  | '>', some '=' => some (2, .greaterEqual)
  | '<', some '=' => some (2, .lessEqual)
  | '=', some '=' => some (2, .equal)
  | '!', some '=' => some (2, .different)
  | '<', some '>' => some (2, .different)
  | '>', _ => some (1, .greater)
  | '<', _ => some (1, .less)
  | '=', _ => some (1, .equal)
  | _, _ => none

/-- The scan for a comparator at level zero, from an offset on: its offset and its number of bytes. -/
def signFrom? (offset : Nat) (level : Int) : List Char → Option (Option (Nat × Nat × Comparator))
  | [] => some none
  | c :: rest =>
    if c = '(' ∨ c = ')' then do
      let level ← counted? (nesting level c)
      signFrom? (offset + c.utf8Size) level rest
    else if level ≠ 0 then signFrom? (offset + c.utf8Size) level rest
    else match signAt? c rest.head? with
      | some (width, cmp) => some (some (offset, width, cmp))
      | none => signFrom? (offset + c.utf8Size) level rest

/-- The text beside the first comparator at level zero. -/
def sides? (cs : List Char) : Option (Option (List Char × Comparator × List Char)) := do
  match ← signFrom? 0 0 cs with
  | none => return none
  | some (offset, width, cmp) =>
    let left ← slice? cs 0 offset
    let right ← slice? cs (offset + width) (size cs)
    return some (left, cmp, right)

/-- Whether the parentheses of a text close only at its last byte, scanned from an offset on. -/
def wrapsFrom? (total offset : Nat) (level : Int) : List Char → Option Bool
  | [] => some (level == 0)
  | c :: rest => do
    let next ← counted? (nesting level c)
    if c = ')' ∧ next = 0 ∧ offset ≠ total - 1 then return false
    else wrapsFrom? total (offset + c.utf8Size) next rest

def enclosed? (cs : List Char) : Option Bool :=
  if cs.head? = some '(' ∧ cs.getLast? = some ')' then wrapsFrom? (size cs) 0 0 cs else some false

/-- Takes parentheses and the white space inside them off, again and again. -/
def unwrap? (cs : List Char) : Option (List Char) := do
  if ← enclosed? cs then
    match _h : slice? cs 1 (size cs - 1) with
    | some inner => unwrap? (trim inner)
    | none => none
  else return cs
termination_by cs.length
decreasing_by
  exact Nat.lt_of_le_of_lt (length_trim_le inner) (length_slice?_lt _h (by decide))

def strip? (cs : List Char) : Option (List Char) := unwrap? (trim cs)

def isDigitByte (b : UInt8) : Bool := 48 ≤ b && b ≤ 57

/-- Whether the bytes of a text are a name: letters, digits and underscores with no digit in front. -/
def named? (name : List UInt8) : Option Bool :=
  if !name.isEmpty && name.all isWordByte then name[0]?.map fun b => !isDigitByte b else some false

/-- `NAME(arguments)` without further parentheses. -/
def callAt? (cs : List Char) : Option (Option (List Char × List Char)) :=
  match splitFirst? '(' cs with
  | none => some none
  | some (before, _) =>
    let offset := size before
    if cs.getLast? ≠ some ')' then some none
    else do
      let front ← slice? cs 0 offset
      let name := trim front
      if ← named? (bytes name) then
        let args ← slice? cs (offset + 1) (size cs - 1)
        return if args.contains '(' || args.contains ')' then none else some (name, args)
      else return none

variable {cs rest : List Char} {c : Char} {level : Int} {cmp : Comparator}

/-- The character and the one after it decide which comparator a text begins with. -/
theorem signAt?_eq_some {after : List Char} (h : comparatorAt? (c :: rest) = some (cmp, after)) :
    ∃ sign, c :: rest = sign ++ after ∧ signAt? c rest.head? = some (size sign, cmp) := by
  unfold comparatorAt? at h
  split at h
  case h_12 => cases h
  all_goals
    next he =>
      obtain ⟨rfl, rfl⟩ := List.cons.inj he
      obtain ⟨rfl, rfl⟩ := Prod.mk.inj (Option.some.inj h)
      first
        | exact ⟨[_], rfl, rfl⟩
        | exact ⟨[_, _], rfl, rfl⟩
        | refine ⟨[_], rfl, ?_⟩
          cases rest with
          | nil => rfl
          | cons d rest => simp_all [signAt?, utf8Size_ascii]

theorem signAt?_eq_none (h : comparatorAt? (c :: rest) = none) : signAt? c rest.head? = none := by
  unfold signAt?
  split
  case h_12 => rfl
  all_goals
    exfalso
    cases rest <;> simp_all [comparatorAt?]

/-- What a scan from an offset on finds is where a text is cut. -/
def FindsCut (offset : Nat) (cs : List Char) :
    Option (List Char × Comparator × List Char) → Option (Nat × Nat × Comparator) → Prop
  | none, found => found = none
  | some (left, cmp, right), found =>
    ∃ sign, cs = left ++ sign ++ right ∧ found = some (offset + size left, size sign, cmp)

theorem FindsCut.cons {offset : Nat} {cut : Option (List Char × Comparator × List Char)}
    {found : Option (Nat × Nat × Comparator)} (h : FindsCut (offset + c.utf8Size) rest cut found) :
    FindsCut offset (c :: rest) (cut.map fun (left, cut) => (c :: left, cut)) found := by
  cases cut with
  | none => exact h
  | some cut =>
    obtain ⟨sign, rfl, rfl⟩ := h
    exact ⟨sign, rfl, by rw [size_cons, Nat.add_assoc]⟩

theorem signFrom?_finds (offset : Nat) (level : Int) (cs : List Char)
    (h : level.natAbs + size cs < Nat.pow 2 31) :
    ∃ found, signFrom? offset level cs = some found ∧ FindsCut offset cs (cutFrom level cs) found := by
  induction cs generalizing offset level with
  | nil => exact ⟨none, rfl, rfl⟩
  | cons c rest ih =>
    rw [size_cons] at h
    have hnatAbs := natAbs_nesting_le level c
    obtain ⟨found, hscan, hrest⟩ := ih (offset + c.utf8Size) (nesting level c) (by omega)
    by_cases hparen : c = '(' ∨ c = ')'
    · refine ⟨found, ?_, ?_⟩
      · rw [signFrom?, if_pos hparen, counted?_eq (by omega)]
        exact hscan
      · rw [cutFrom, if_neg fun h => hparen.elim h.2.1 h.2.2]
        exact hrest.cons
    obtain ⟨hopen, hclose⟩ := not_or.mp hparen
    rw [show nesting level c = level by rw [nesting_eq, weight_other hopen hclose, Int.add_zero]] at hscan hrest
    by_cases hzero : level = 0
    · subst hzero
      cases hat : comparatorAt? (c :: rest) with
      | none =>
        refine ⟨found, ?_, ?_⟩
        · rw [signFrom?, if_neg hparen, if_neg (by simp), signAt?_eq_none hat]
          exact hscan
        · rw [cutFrom, if_pos ⟨rfl, hopen, hclose⟩, hat, nesting_eq, weight_other hopen hclose]
          exact hrest.cons
      | some cut =>
        obtain ⟨cmp, after⟩ := cut
        obtain ⟨sign, hsign, hwidth⟩ := signAt?_eq_some hat
        refine ⟨some (offset, size sign, cmp), ?_, ?_⟩
        · rw [signFrom?, if_neg hparen, if_neg (by simp), hwidth]
        · rw [cutFrom, if_pos ⟨rfl, hopen, hclose⟩, hat]
          exact ⟨sign, hsign, rfl⟩
    · refine ⟨found, ?_, ?_⟩
      · rw [signFrom?, if_neg hparen, if_pos hzero]
        exact hscan
      · rw [cutFrom, if_neg fun h => hzero h.1, nesting_eq, weight_other hopen hclose, Int.add_zero]
        exact hrest.cons

theorem sides?_eq (h : size cs < Nat.pow 2 31) : sides? cs = some (comparison? cs) := by
  obtain ⟨found, hscan, hcut⟩ := signFrom?_finds 0 0 cs (by simpa using h)
  rw [comparison?]
  cases hc : cutFrom 0 cs with
  | none =>
    rw [hc] at hcut
    obtain rfl := hcut
    rw [sides?, hscan]
    rfl
  | some cut =>
    obtain ⟨left, cmp, right⟩ := cut
    rw [hc] at hcut
    obtain ⟨sign, rfl, rfl⟩ := hcut
    have hleft := slice?_append [] left (sign ++ right)
    have hright := slice?_append (left ++ sign) right []
    simp only [List.nil_append, List.append_nil, size_nil, ← List.append_assoc] at hleft hright
    rw [size_append left sign] at hright
    simp only [sides?, hscan, Nat.zero_add, hleft, hright, Option.bind_eq_bind, Option.bind_some]
    rfl

theorem wrapsFrom?_eq (offset : Nat) (level : Int) (cs : List Char)
    (h : level.natAbs + size cs < Nat.pow 2 31) :
    wrapsFrom? (offset + size cs) offset level cs = some (balancedFrom level cs) := by
  induction cs generalizing offset level with
  | nil => rfl
  | cons c rest ih =>
    have hnatAbs := natAbs_nesting_le level c
    have hrest := ih (offset + c.utf8Size) (nesting level c) (by rw [size_cons] at h; omega)
    have hcounted : counted? (nesting level c) = some (nesting level c) :=
      counted?_eq (by rw [size_cons] at h; omega)
    have hend : c = ')' ∧ nesting level c = 0 ∧ offset ≠ offset + size (c :: rest) - 1 ↔
        c = ')' ∧ level - 1 = 0 ∧ rest ≠ [] := by
      refine and_congr_right fun hc => ?_
      subst hc
      have hwidth : ')'.utf8Size = 1 := by decide
      have hempty : rest ≠ [] ↔ size rest ≠ 0 := not_iff_not.mpr size_eq_zero_iff.symm
      rw [nesting_eq, weight_close, size_cons, hwidth, hempty]
      omega
    rw [wrapsFrom?, balancedFrom, hcounted]
    simp only [Option.bind_eq_bind, Option.bind_some, hend]
    split
    · rfl
    · rwa [size_cons, ← Nat.add_assoc]

/-- An opening parenthesis does not close a text. -/
theorem getLast?_open_iff (front rest : List Char) :
    (front ++ '(' :: rest).getLast? = some ')' ↔ rest.getLast? = some ')' := by
  cases rest with
  | nil => simp
  | cons c rest => simp [List.getLast?_cons]

theorem enclosed?_eq (h : size cs < Nat.pow 2 31) : enclosed? cs = some (inside? cs).isSome := by
  have hscan := wrapsFrom?_eq 0 0 cs (by simpa using h)
  rw [Nat.zero_add] at hscan
  rw [enclosed?, hscan]
  cases cs with
  | nil => rfl
  | cons c rest =>
    by_cases hopen : c = '('
    · subst hopen
      have hlevel : balancedFrom 0 ('(' :: rest) = balancedFrom 1 rest := rfl
      have hlast := getLast?_open_iff [] rest
      rw [List.nil_append] at hlast
      by_cases hclose : rest.getLast? = some ')' <;> cases hb : balancedFrom 1 rest <;>
        simp [inside?, hlevel, hlast, hclose, hb]
    · rw [if_neg fun h => hopen (Option.some.inj h.1), inside?]
      · rfl
      · rintro rest' he
        exact hopen (List.cons.inj he).1

theorem slice?_inside {inner : List Char} (h : inside? cs = some inner) :
    slice? cs 1 (size cs - 1) = some inner := by
  obtain ⟨rfl, _⟩ := inside?_eq_some_iff.mp h
  refine slice?_eq_some_iff.mpr ⟨['('], [')'], rfl, rfl, ?_⟩
  have hopen : '('.utf8Size = 1 := rfl
  have hclose : ')'.utf8Size = 1 := rfl
  simp [hopen, hclose]
  omega

theorem unwrap?_of_inside {inner : List Char} (h : size cs < Nat.pow 2 31) (hi : inside? cs = some inner) :
    unwrap? cs = strip? inner := by
  have hslice := slice?_inside hi
  rw [unwrap?, enclosed?_eq h, hi]
  simp only [Option.isSome_some, Option.bind_eq_bind, Option.bind_some, if_true]
  split
  · next part hpart =>
    rw [hslice] at hpart
    obtain rfl := Option.some.inj hpart
    rfl
  · next hnone =>
    rw [hslice] at hnone
    cases hnone

theorem unwrap?_of_not_inside (h : size cs < Nat.pow 2 31) (hi : inside? cs = none) : unwrap? cs = some cs := by
  rw [unwrap?, enclosed?_eq h, hi]
  rfl

theorem trim_sublist (cs : List Char) : (trim cs).Sublist cs := by
  obtain ⟨l, r, _, _, hcs⟩ := exists_trim cs
  conv_rhs => rw [hcs]
  exact (List.sublist_append_right l (trim cs)).trans (List.sublist_append_left _ r)

theorem inside?_sublist {inner : List Char} (h : inside? cs = some inner) : inner.Sublist cs := by
  obtain ⟨rfl, _⟩ := inside?_eq_some_iff.mp h
  exact (List.sublist_append_left inner [')']).cons '('

theorem strip_sublist (cs : List Char) : (strip cs).Sublist cs := by
  fun_induction strip cs with
  | case1 cs inner hi ih => exact (ih.trans (inside?_sublist hi)).trans (trim_sublist cs)
  | case2 cs => exact trim_sublist cs

theorem size_trim_le (cs : List Char) : size (trim cs) ≤ size cs := size_le_of_sublist (trim_sublist cs)

theorem size_strip_le (cs : List Char) : size (strip cs) ≤ size cs := size_le_of_sublist (strip_sublist cs)

theorem strip?_eq (h : size cs < Nat.pow 2 31) : strip? cs = some (strip cs) := by
  have htrim := size_trim_le cs
  fun_induction strip cs with
  | case1 cs inner hi ih =>
    have hinner := size_le_of_sublist (inside?_sublist hi)
    rw [strip?, unwrap?_of_inside (by omega) hi]
    exact ih (by omega) (size_trim_le inner)
  | case2 cs hi => exact unwrap?_of_not_inside (by omega) hi

theorem all_bytes (cs : List Char) : (bytes cs).all isWordByte = cs.all isWordChar := by
  induction cs with
  | nil => rfl
  | cons c cs ih =>
    rw [bytes_cons, List.all_append, ih, List.all_cons]
    congr 1
    rw [Bool.eq_iff_iff, List.all_eq_true]
    constructor
    · intro h
      obtain ⟨b, tail, hencode⟩ := exists_encode c
      have hb : b ∈ String.utf8EncodeChar c := by simp [hencode]
      rw [← isWordByte_eq hb]
      exact h b hb
    · intro h b hb
      rw [isWordByte_eq hb, h]

theorem isDigitByte_eq {b : UInt8} (h : b ∈ String.utf8EncodeChar c) : isDigitByte b = c.isDigit := by
  rw [Bool.eq_iff_iff]
  simp only [isDigitByte, Char.isDigit, Bool.and_eq_true, decide_eq_true_eq, ge_iff_le, UInt8.le_iff_toNat_le,
    UInt32.le_iff_toNat_le, Char.toNat_val, Char.reduceToNat, UInt8.reduceToNat]
  rcases toNat_byte h with ⟨_, _⟩ | ⟨_, _⟩ <;> omega

theorem named?_eq (name : List Char) :
    named? (bytes name) = some (!name.isEmpty && name.all isWordChar && !name.head?.any Char.isDigit) := by
  cases name with
  | nil => rfl
  | cons c name =>
    obtain ⟨b, hb, hfirst⟩ := getElem?_bytes [] c name
    rw [List.nil_append, size_nil] at hfirst
    have hempty : (bytes (c :: name)).isEmpty = false := by
      obtain ⟨b, tail, hencode⟩ := exists_encode c
      simp [hencode]
    rw [named?, hempty, all_bytes, hfirst, Option.map_some, isDigitByte_eq hb]
    cases (c :: name).all isWordChar <;> simp

theorem callAt?_eq (cs : List Char) : callAt? cs = some (call? cs) := by
  unfold callAt? call?
  cases hs : splitFirst? '(' cs with
  | none => rfl
  | some cut =>
    obtain ⟨before, after⟩ := cut
    obtain ⟨rfl, _⟩ := splitFirst?_eq_some hs
    have hfront := slice?_append [] before ('(' :: after)
    simp only [List.nil_append, size_nil] at hfront
    simp only [Option.bind_some, ne_eq, getLast?_open_iff, hfront, Option.bind_eq_bind, named?_eq]
    by_cases hclose : after.getLast? = some ')'
    · obtain ⟨args, rfl⟩ : ∃ args, after = args ++ [')'] :=
        ⟨after.dropLast, (List.dropLast_append_getLast? ')' hclose).symm⟩
      have hargs : slice? (before ++ '(' :: (args ++ [')'])) (size before + 1)
          (size (before ++ '(' :: (args ++ [')'])) - 1) = some args := by
        have hopen : '('.utf8Size = 1 := rfl
        have hclose : ')'.utf8Size = 1 := rfl
        refine slice?_eq_some_iff.mpr ⟨before ++ ['('], [')'], by simp, by simp [hopen], ?_⟩
        simp [hopen, hclose]
        omega
      have hplain : args.all (fun c => c != '(' && c != ')') = !(args.contains '(' || args.contains ')') := by
        rw [Bool.eq_iff_iff]
        simp only [List.all_eq_true, Bool.and_eq_true, bne_iff_ne, Bool.not_eq_true', Bool.or_eq_false_iff,
          List.contains_eq_mem, decide_eq_false_iff_not]
        grind
      simp only [hargs, hplain, List.getLast?_concat, List.dropLast_concat, not_true_eq_false, if_false,
        Option.bind_some, true_and]
      cases !(trim before).isEmpty && (trim before).all isWordChar && !(trim before).head?.any Char.isDigit <;>
        cases args.contains '(' || args.contains ')' <;> simp
    · simp [hclose]

end SignalEvolution.Formula

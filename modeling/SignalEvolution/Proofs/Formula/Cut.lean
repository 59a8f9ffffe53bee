import SignalEvolution.Proofs.Formula.Depth
import SignalEvolution.Proofs.Text.Case

/-! # Cuts at connectives

A connective is a keyword in any case at depth zero, with no letter, digit or
underscore next to it. A cut of a text lists what stands between its connectives.
The scan `pieces` yields the only cut there is.
-/
namespace SignalEvolution.Formula
open Text

/-- The word is the keyword in any case, apart from other words on both sides. -/
structure Separates (keyword before word after : List Char) : Prop where
  spelled : upper word = keyword
  apartBefore : ∀ c ∈ before.getLast?, isWordChar c = false
  apartAfter : ∀ c ∈ after.head?, isWordChar c = false

/-- No connective stands at depth zero. -/
def Unbroken (keyword cs : List Char) : Prop :=
  ∀ before word after, cs = before ++ word ++ after → depth before = 0 →
    ¬ Separates keyword before word after

inductive Cut (keyword : List Char) : List Char → List (List Char) → Prop
  | whole {cs} : Unbroken keyword cs → Cut keyword cs [cs]
  | join {piece word rest pieces} : Unbroken keyword piece → depth piece = 0 →
      Separates keyword piece word rest → Cut keyword rest pieces →
      Cut keyword (piece ++ word ++ rest) (piece :: pieces)

/-- A keyword is a word of its own. -/
structure IsKeyword (keyword : List Char) : Prop where
  ne_nil : keyword ≠ []
  wordChars : ∀ c ∈ keyword, isWordChar c = true

theorem isKeyword_and : IsKeyword andWord := ⟨by decide, by decide⟩

theorem isKeyword_or : IsKeyword orWord := ⟨by decide, by decide⟩

/-- Two texts meet without joining a word of one to a word of the other. -/
def Apart (cs ds : List Char) : Prop :=
  (∀ c ∈ cs.getLast?, isWordChar c = false) ∨ (∀ c ∈ ds.head?, isWordChar c = false)

variable {keyword before word after front cs ds piece : List Char} {ps : List (List Char)}

theorem isWordChar_iff {c : Char} : isWordChar c = true ↔
    (48 ≤ c.toNat ∧ c.toNat ≤ 57) ∨ (65 ≤ c.toNat ∧ c.toNat ≤ 90) ∨ (97 ≤ c.toNat ∧ c.toNat ≤ 122) ∨
      c.toNat = 95 := by
  have hunder : c = '_' ↔ c.toNat = 95 := Char.toNat_inj.symm
  simp only [isWordChar, Char.isAlphanum, Char.isAlpha, Char.isUpper, Char.isLower, Char.isDigit,
    Bool.or_eq_true, Bool.and_eq_true, decide_eq_true_eq, beq_iff_eq, hunder, ge_iff_le,
    UInt32.le_iff_toNat_le, Char.toNat_val, Char.reduceToNat]
  omega

theorem isWordChar_toUpper (c : Char) : isWordChar c.toUpper = isWordChar c := by
  rw [Bool.eq_iff_iff, isWordChar_iff, isWordChar_iff, toNat_toUpper]
  split_ifs <;> omega

theorem isWordChar_toLower (c : Char) : isWordChar c.toLower = isWordChar c := by
  rw [Bool.eq_iff_iff, isWordChar_iff, isWordChar_iff, toNat_toLower]
  split_ifs <;> omega

theorem ne_paren_of_isWordChar {c : Char} (h : isWordChar c = true) : c ≠ '(' ∧ c ≠ ')' := by
  constructor <;> rintro rfl <;> exact absurd h (by decide)

theorem toNat_of_isWordChar {c : Char} (h : isWordChar c = true) : 48 ≤ c.toNat ∧ c.toNat ≤ 122 := by
  have hc := isWordChar_iff.mp h
  omega

theorem not_isWordChar_of_isBlank {c : Char} (h : isBlank c = true) : isWordChar c = false := by
  rw [Bool.eq_false_iff]
  intro hw
  have hn := toNat_of_isWordChar hw
  simp only [isBlank, Bool.or_eq_true, Bool.and_eq_true, decide_eq_true_eq, beq_iff_eq] at h
  omega

theorem Separates.length_eq (h : Separates keyword before word after) :
    word.length = keyword.length := by
  rw [← h.spelled, upper, List.length_map]

theorem Separates.wordChars (h : Separates keyword before word after) (hk : IsKeyword keyword) :
    ∀ c ∈ word, isWordChar c = true := by
  intro c hc
  rw [← isWordChar_toUpper]
  apply hk.wordChars
  rw [← h.spelled]
  exact List.mem_map_of_mem hc

theorem Separates.ne_nil (h : Separates keyword before word after) (hk : IsKeyword keyword) :
    word ≠ [] := by
  rintro rfl
  exact hk.ne_nil h.spelled.symm

theorem Separates.flat (h : Separates keyword before word after) (hk : IsKeyword keyword) :
    Flat word := fun c hc => ne_paren_of_isWordChar (h.wordChars hk c hc)

theorem startsWord_iff : startsWord keyword before.getLast? cs = true ↔
    ∃ word after, cs = word ++ after ∧ Separates keyword before word after := by
  simp only [startsWord, Bool.and_eq_true, Bool.not_eq_true', Option.any_eq_false, beq_iff_eq]
  constructor
  · rintro ⟨⟨hb, hs⟩, ha⟩
    exact ⟨cs.take keyword.length, cs.drop keyword.length, (List.take_append_drop _ cs).symm,
      hs, fun c hc => by simpa using hb c hc, fun c hc => by simpa using ha c hc⟩
  · rintro ⟨word, after, rfl, h⟩
    have hl := h.length_eq
    rw [← hl, List.take_left, List.drop_left]
    exact ⟨⟨fun c hc => by simpa using h.apartBefore c hc, h.spelled⟩,
      fun c hc => by simpa using h.apartAfter c hc⟩

/-- Where a text begins, every longer one does. -/
theorem forall_head_of_append {P : Char → Prop} (h : ∀ c ∈ (cs ++ ds).head?, P c) : ∀ c ∈ cs.head?, P c := by
  intro c hc
  apply h
  rw [List.head?_append, Option.mem_def.mp hc]
  rfl

/-- Where a text ends, every one with more in front does. -/
theorem forall_last_of_append {P : Char → Prop} (h : ∀ c ∈ (cs ++ ds).getLast?, P c) : ∀ c ∈ ds.getLast?, P c := by
  intro c hc
  apply h
  rw [List.getLast?_append, Option.mem_def.mp hc]
  rfl

theorem Apart.suffix {mid : List Char} (h : Apart (cs ++ mid) ds) : Apart mid ds := h.imp forall_last_of_append id

theorem Apart.left {mid : List Char} (h : Apart cs (mid ++ ds)) : Apart cs mid := h.imp id forall_head_of_append

theorem Separates.dropFront (hs : Separates keyword (cs ++ before) word after) :
    Separates keyword before word after :=
  ⟨hs.spelled, forall_last_of_append hs.apartBefore, hs.apartAfter⟩

theorem Separates.dropBack (hs : Separates keyword before word (after ++ cs)) :
    Separates keyword before word after :=
  ⟨hs.spelled, hs.apartBefore, forall_head_of_append hs.apartAfter⟩

/-- A connective that begins in the first of two texts apart ends in it. -/
theorem Separates.restrict (hs : Separates keyword before word after) (hk : IsKeyword keyword)
    (he : cs ++ ds = word ++ after) (hcs : cs ≠ []) (ha : Apart cs ds) :
    ∃ rest, cs = word ++ rest ∧ Separates keyword before word rest := by
  rcases List.append_eq_append_iff.mp he with ⟨mid, rfl, rfl⟩ | ⟨rest, rfl, rfl⟩
  · cases mid with
    | nil => exact ⟨[], by simp, hs.spelled, hs.apartBefore, by simp⟩
    | cons d mid =>
      -- The keyword would reach from one text into the other.
      have hw := hs.wordChars hk
      rcases ha with ha | ha
      · have hlast := ha (cs.getLast hcs) (List.getLast?_eq_some_getLast hcs)
        rw [hw _ (List.mem_append_left _ (List.getLast_mem hcs))] at hlast
        cases hlast
      · have hhead := ha d rfl
        rw [hw d (by simp)] at hhead
        cases hhead
  · exact ⟨rest, rfl, hs.dropBack⟩

theorem Separates.extend (hs : Separates keyword before word after) (hk : IsKeyword keyword)
    (ha : Apart (word ++ after) ds) : Separates keyword before word (after ++ ds) := by
  refine ⟨hs.spelled, hs.apartBefore, fun c hc => ?_⟩
  cases after with
  | cons d after => exact hs.apartAfter c hc
  | nil =>
    rcases ha with ha | ha
    · have hne := hs.ne_nil hk
      have hlast := ha (word.getLast hne) (by rw [List.append_nil]; exact List.getLast?_eq_some_getLast hne)
      rw [hs.wordChars hk _ (List.getLast_mem hne)] at hlast
      cases hlast
    · exact ha c hc

theorem Separates.addFront (hs : Separates keyword before word after) (hk : IsKeyword keyword)
    (ha : Apart cs (before ++ word)) : Separates keyword (cs ++ before) word after := by
  refine ⟨hs.spelled, fun c hc => ?_, hs.apartAfter⟩
  cases before with
  | cons d before =>
    apply hs.apartBefore c
    simpa [List.getLast?_append, List.getLast?_cons] using hc
  | nil =>
    rcases ha with ha | ha
    · exact ha c (by simpa using hc)
    · obtain ⟨d, rest, rfl⟩ := List.exists_cons_of_ne_nil (hs.ne_nil hk)
      have hhead := ha d rfl
      rw [hs.wordChars hk d List.mem_cons_self] at hhead
      cases hhead

/-- There is no connective in an empty text. -/
theorem Separates.not_nil (h : Separates keyword front word after) (hk : IsKeyword keyword)
    (before : List Char) : [] ≠ before ++ word ++ after := by
  intro he
  have hword : word = [] := (List.append_eq_nil_iff.mp (List.append_eq_nil_iff.mp he.symm).1).2
  exact h.ne_nil hk hword

theorem unbroken_nil (hk : IsKeyword keyword) : Unbroken keyword [] := by
  intro before word after h _ hs
  exact hs.not_nil hk before h

theorem Unbroken.left (h : Unbroken keyword (cs ++ ds)) (hk : IsKeyword keyword) (ha : Apart cs ds) :
    Unbroken keyword cs := by
  rintro before word after rfl h0 hs
  rw [List.append_assoc] at ha
  exact h before word (after ++ ds) (by simp) h0 (hs.extend hk ha.suffix)

/-- Texts that meet without joining words share no connective. -/
theorem unbroken_append_iff (hk : IsKeyword keyword) (hd : depth cs = 0) (ha : Apart cs ds) :
    Unbroken keyword (cs ++ ds) ↔ Unbroken keyword cs ∧ Unbroken keyword ds := by
  constructor
  · intro h
    refine ⟨h.left hk ha, ?_⟩
    · rintro before word after rfl h0 hs
      exact h (cs ++ before) word after (by simp) (by simp [hd, h0]) (hs.addFront hk ha.left)
  · rintro ⟨hc, hds⟩ before word after h h0 hs
    rw [List.append_assoc] at h
    rcases List.append_eq_append_iff.mp h with ⟨mid, rfl, hmid⟩ | ⟨mid, rfl, hmid⟩
    · have h0' : depth mid = 0 := by simpa [hd] using h0
      exact hds mid word after (by simpa using hmid) h0' hs.dropFront
    · by_cases hne : mid = []
      · subst hne
        have hs' : Separates keyword (before ++ []) word after := by simpa using hs
        exact hds [] word after (by simpa using hmid.symm) rfl hs'.dropFront
      · obtain ⟨rest, rfl, hrest⟩ := hs.restrict hk hmid.symm hne ha.suffix
        exact hc before word rest (by simp) h0 hrest

theorem unbroken_of_forall_not_mem (hk : IsKeyword keyword) (h : ∀ c ∈ cs, c.toUpper ∉ keyword) :
    Unbroken keyword cs := by
  rintro before word after rfl _ hs
  obtain ⟨c, rest, rfl⟩ := List.exists_cons_of_ne_nil (hs.ne_nil hk)
  apply h c (by simp)
  rw [← hs.spelled]
  exact List.mem_map_of_mem List.mem_cons_self

theorem unbroken_of_not_wordChars (hk : IsKeyword keyword) (h : ∀ c ∈ cs, isWordChar c = false) :
    Unbroken keyword cs := by
  apply unbroken_of_forall_not_mem hk
  intro c hc hmem
  have hw := hk.wordChars _ hmem
  rw [isWordChar_toUpper, h c hc] at hw
  cases hw

theorem unbroken_of_blank (hk : IsKeyword keyword) (h : Blank cs) : Unbroken keyword cs :=
  unbroken_of_not_wordChars hk fun c hc => not_isWordChar_of_isBlank (h c hc)

/-- A single word is not cut unless it is the keyword. -/
theorem unbroken_of_wordChars (hw : ∀ c ∈ cs, isWordChar c = true) (hne : upper cs ≠ keyword) :
    Unbroken keyword cs := by
  rintro before word after rfl _ hs
  have hbefore : before = [] := by
    rw [← List.getLast?_eq_none_iff, Option.eq_none_iff_forall_ne_some]
    intro c hc
    have hfalse := hs.apartBefore c hc
    rw [hw c (by simp [List.mem_of_getLast? hc])] at hfalse
    cases hfalse
  have hafter : after = [] := by
    rw [← List.head?_eq_none_iff, Option.eq_none_iff_forall_ne_some]
    intro c hc
    have hfalse := hs.apartAfter c hc
    rw [hw c (by simp [List.mem_of_mem_head? hc])] at hfalse
    cases hfalse
  subst hbefore hafter
  exact hne (by simpa using hs.spelled)

theorem unbroken_enclosed (hk : IsKeyword keyword) (h : Balanced cs) :
    Unbroken keyword ('(' :: (cs ++ [')'])) := by
  intro before word after he h0 hs
  obtain ⟨d, rest, rfl⟩ := List.exists_cons_of_ne_nil (hs.ne_nil hk)
  have hd := (ne_paren_of_isWordChar (hs.wordChars hk d List.mem_cons_self)).1
  cases before with
  | nil => exact hd (List.cons.inj he).1.symm
  | cons c before =>
    rw [List.append_assoc] at he
    have hpos := h.depth_pos_of_enclosed he (by simp) (by simp)
    omega

theorem apart_of_front (h : ∀ c ∈ ds.head?, isWordChar c = false) : Apart cs ds := .inr h

theorem apart_of_back (h : ∀ c ∈ cs.getLast?, isWordChar c = false) : Apart cs ds := .inl h

/-- Behind a further text in front, a text is apart as it is behind the nearer one. -/
theorem Apart.prepend (h : Apart cs ds) (hhead : ∀ c ∈ (cs ++ ds).head?, isWordChar c = false) (front : List Char) :
    Apart (front ++ cs) ds := by
  cases cs with
  | nil => exact .inr hhead
  | cons d cs =>
    refine h.imp (fun hlast c hc => hlast c ?_) id
    simpa [List.getLast?_append, List.getLast?_cons] using hc

theorem apart_of_blank_left (h : Blank cs) : Apart cs ds :=
  .inl fun c hc => not_isWordChar_of_isBlank (h c (List.mem_of_getLast? hc))

theorem apart_of_blank_right (h : Blank ds) : Apart cs ds :=
  .inr fun c hc => not_isWordChar_of_isBlank (h c (List.mem_of_mem_head? hc))

theorem unbroken_pad_iff (hk : IsKeyword keyword) {l r : List Char} (hl : Blank l) (hr : Blank r)
    (hd : depth cs = 0) : Unbroken keyword (l ++ cs ++ r) ↔ Unbroken keyword cs := by
  have hdl := (flat_of_blank hl).depth_eq
  rw [unbroken_append_iff hk (by simp [hdl, hd]) (apart_of_blank_right hr),
    unbroken_append_iff hk hdl (apart_of_blank_left hl)]
  have hbl := unbroken_of_blank hk hl
  have hbr := unbroken_of_blank hk hr
  tauto

/-- Without the white space around it a text shows no other connective. -/
theorem Unbroken.trim (h : Unbroken keyword cs) (hk : IsKeyword keyword) : Unbroken keyword (trim cs) := by
  obtain ⟨l, r, hl, hr, hcs⟩ := exists_trim cs
  rw [hcs] at h
  have hleft := h.left hk (apart_of_blank_right hr)
  exact ((unbroken_append_iff hk (flat_of_blank hl).depth_eq (apart_of_blank_left hl)).mp hleft).2

theorem Balanced.unbroken_trim_iff (hb : Balanced cs) (hk : IsKeyword keyword) :
    Unbroken keyword (trim cs) ↔ Unbroken keyword cs := by
  obtain ⟨l, r, hl, hr, hcs⟩ := exists_trim cs
  have hd : depth (trim cs) = 0 := by
    have h0 := hb.even
    rw [hcs, depth_append, depth_append, (flat_of_blank hl).depth_eq, (flat_of_blank hr).depth_eq] at h0
    omega
  conv_rhs => rw [hcs]
  exact (unbroken_pad_iff hk hl hr hd).symm

/-- The pieces of a text that stands after `front`. -/
def piecesAfter (keyword front cs : List Char) : List (List Char) :=
  piecesFrom keyword 0 (depth front) front.getLast? cs

theorem not_startsWord (hk : IsKeyword keyword) {previous : Option Char} {c : Char}
    (hc : isWordChar c = false) : startsWord keyword previous (c :: cs) = false := by
  rw [Bool.eq_false_iff]
  intro h
  simp only [startsWord, Bool.and_eq_true, beq_iff_eq] at h
  obtain ⟨k, rest, rfl⟩ := List.exists_cons_of_ne_nil hk.ne_nil
  have hk' : c.toUpper = k := by
    have h2 := h.1.2
    simp only [List.length_cons, List.take_succ_cons, upper, List.map_cons] at h2
    exact (List.cons.inj h2).1
  have hw := hk.wordChars k List.mem_cons_self
  rw [← hk', isWordChar_toUpper, hc] at hw
  cases hw

/-- What stands before a text matters to the scan only where the text begins with a word. -/
theorem piecesFrom_previous (hk : IsKeyword keyword) (level : Int) (previous previous' : Option Char)
    (h : ∀ c ∈ cs.head?, isWordChar c = false) :
    piecesFrom keyword 0 level previous cs = piecesFrom keyword 0 level previous' cs := by
  cases cs with
  | nil => rfl
  | cons c rest => simp [piecesFrom, not_startsWord hk (h c rfl)]

theorem piecesFrom_skip (word rest : List Char) (level : Int) (previous : Option Char) :
    piecesFrom keyword word.length level previous (word ++ rest) =
      piecesFrom keyword 0 level (word.getLast?.or previous) rest := by
  induction word generalizing previous with
  | nil => rfl
  | cons c word ih =>
    rw [List.length_cons, List.cons_append, piecesFrom, ih]
    cases word <;> simp [List.getLast?_cons]

/-- The scan starts afresh after a connective. -/
theorem piecesAfter_word (hk : IsKeyword keyword) (h0 : depth front = 0) {rest : List Char}
    (hs : Separates keyword front word rest) :
    piecesAfter keyword front (word ++ rest) = [] :: pieces keyword rest := by
  have hstart : startsWord keyword front.getLast? (word ++ rest) = true :=
    startsWord_iff.mpr ⟨word, rest, rfl, hs⟩
  obtain ⟨c, tail, rfl⟩ := List.exists_cons_of_ne_nil (hs.ne_nil hk)
  have hc := ne_paren_of_isWordChar (hs.wordChars hk c List.mem_cons_self)
  have hlevel : nesting (depth front) c = 0 := by rw [nesting_eq, h0, weight_other hc.1 hc.2]; rfl
  have hlen : keyword.length - 1 = tail.length := by rw [← hs.length_eq]; rfl
  rw [List.cons_append] at hstart ⊢
  rw [piecesAfter, piecesFrom, if_pos ⟨hlevel, hstart⟩, hlevel, hlen, piecesFrom_skip]
  exact congrArg _ (piecesFrom_previous hk 0 _ none hs.apartAfter)

theorem piecesAfter_cons (hk : IsKeyword keyword) {c : Char}
    (h : depth front = 0 → startsWord keyword front.getLast? (c :: cs) = false) :
    piecesAfter keyword front (c :: cs) = consFirst c (piecesAfter keyword (front ++ [c]) cs) := by
  have hmiss : ¬ (nesting (depth front) c = 0 ∧
      startsWord keyword front.getLast? (c :: cs) = true) := by
    rintro ⟨hlevel, hstart⟩
    obtain ⟨word, after, he, hs⟩ := startsWord_iff.mp hstart
    obtain ⟨d, tail, rfl⟩ := List.exists_cons_of_ne_nil (hs.ne_nil hk)
    have hd : c = d := (List.cons.inj he).1
    have hc := ne_paren_of_isWordChar (hs.wordChars hk d List.mem_cons_self)
    rw [hd, nesting_eq, weight_other hc.1 hc.2] at hlevel
    rw [h (by omega)] at hstart
    cases hstart
  rw [piecesAfter, piecesFrom, if_neg hmiss, piecesAfter, nesting_eq]
  simp

theorem foldr_consFirst (cs piece : List Char) (rest : List (List Char)) :
    cs.foldr consFirst (piece :: rest) = (cs ++ piece) :: rest := by
  induction cs with
  | nil => rfl
  | cons c cs ih => rw [List.foldr_cons, ih]; rfl

/-- The scan passes over a text in which no connective begins. -/
theorem piecesAfter_append (hk : IsKeyword keyword)
    (h : ∀ before after, cs = before ++ after → after ≠ [] → depth (front ++ before) = 0 →
      startsWord keyword (front ++ before).getLast? (after ++ ds) = false) :
    piecesAfter keyword front (cs ++ ds) = cs.foldr consFirst (piecesAfter keyword (front ++ cs) ds) := by
  induction cs generalizing front with
  | nil => simp
  | cons c rest ih =>
    have hc := h [] (c :: rest) rfl (by simp)
    rw [List.append_nil, List.cons_append] at hc
    rw [List.cons_append, piecesAfter_cons hk hc, List.foldr_cons, ih]
    · simp
    · intro before after hrest ha h0
      have hnext := h (c :: before) after (by rw [hrest, List.cons_append]) ha
      simp only [List.append_assoc, List.singleton_append] at h0 ⊢
      exact hnext h0

theorem pieces_of_unbroken (hk : IsKeyword keyword) (h : Unbroken keyword cs) :
    pieces keyword cs = [cs] := by
  have hscan : piecesAfter keyword [] (cs ++ []) = cs.foldr consFirst [[]] := by
    refine piecesAfter_append hk ?_
    rintro before after rfl _ h0
    rw [Bool.eq_false_iff]
    intro hstart
    obtain ⟨word, rest, he, hs⟩ := startsWord_iff.mp hstart
    rw [List.append_nil] at he
    exact h before word rest (by simp [he]) (by simpa using h0) (by simpa using hs)
  rw [List.append_nil, foldr_consFirst, List.append_nil] at hscan
  exact hscan

theorem pieces_join (hk : IsKeyword keyword) {rest : List Char} (h : Unbroken keyword piece)
    (h0 : depth piece = 0) (hs : Separates keyword piece word rest) :
    pieces keyword (piece ++ word ++ rest) = piece :: pieces keyword rest := by
  have hscan : piecesAfter keyword [] (piece ++ (word ++ rest)) =
      piece.foldr consFirst (piecesAfter keyword ([] ++ piece) (word ++ rest)) := by
    refine piecesAfter_append hk ?_
    rintro before after rfl hne h0'
    rw [Bool.eq_false_iff]
    intro hstart
    obtain ⟨found, tail, he, hf⟩ := startsWord_iff.mp hstart
    have ha : Apart after (word ++ rest) := (apart_of_back hs.apartBefore).suffix
    obtain ⟨tail', rfl, hin⟩ := hf.restrict hk he hne ha
    exact h before found tail' (by simp) (by simpa using h0') (by simpa using hin)
  rw [List.nil_append, piecesAfter_word hk h0 hs, foldr_consFirst, List.append_nil] at hscan
  rw [List.append_assoc]
  exact hscan

theorem piecesFrom_ne_nil (skip : Nat) (level : Int) (previous : Option Char) (cs : List Char) :
    piecesFrom keyword skip level previous cs ≠ [] := by
  induction cs generalizing skip level previous with
  | nil => cases skip <;> simp [piecesFrom]
  | cons c rest ih =>
    cases skip with
    | succ skip => exact ih skip level (some c)
    | zero =>
      rw [piecesFrom]
      split
      · simp
      · cases piecesFrom keyword 0 (nesting level c) (some c) rest <;> simp [consFirst]

/-- A connective that opens a piece opens the text that the piece begins as well. -/
theorem Separates.not_miss (hk : IsKeyword keyword) (hs : Separates keyword front word after)
    (hopen : ∃ tail, cs = word ++ after ++ tail ∧ Apart (word ++ after) tail) :
    ¬ startsWord keyword front.getLast? cs = false := by
  obtain ⟨tail, rfl, ha⟩ := hopen
  have hstart := startsWord_iff.mpr ⟨word, after ++ tail, rfl, hs.extend hk ha⟩
  rw [List.append_assoc, hstart]
  decide

/-- The first piece holds no connective, and one follows it unless it is all of the text. -/
theorem piecesAfter_eq_cons (hk : IsKeyword keyword) {rest : List (List Char)}
    (h : piecesAfter keyword front cs = piece :: rest) :
    (∀ before word after, piece = before ++ word ++ after → depth (front ++ before) = 0 →
        ¬ Separates keyword (front ++ before) word after) ∧
      ((piece = cs ∧ rest = []) ∨ ∃ word after, cs = piece ++ word ++ after ∧
        depth (front ++ piece) = 0 ∧ Separates keyword (front ++ piece) word after ∧
        pieces keyword after = rest) := by
  induction cs generalizing front piece with
  | nil =>
    obtain ⟨rfl, rfl⟩ : piece = [] ∧ rest = [] := by
      have h' : [[]] = piece :: rest := h
      exact ⟨(List.cons.inj h').1.symm, (List.cons.inj h').2.symm⟩
    refine ⟨?_, .inl ⟨rfl, rfl⟩⟩
    intro before word after he _ hs
    exact hs.not_nil hk before he
  | cons c cs ih =>
    by_cases hhit : depth front = 0 ∧ startsWord keyword front.getLast? (c :: cs) = true
    · obtain ⟨h0, hstart⟩ := hhit
      obtain ⟨word, after, he, hs⟩ := startsWord_iff.mp hstart
      rw [he, piecesAfter_word hk h0 hs] at h
      obtain ⟨rfl, rfl⟩ := List.cons.inj h
      refine ⟨?_, .inr ⟨word, after, by simpa using he, by simpa using h0, by simpa using hs, rfl⟩⟩
      intro before word after he _ hs
      exact hs.not_nil hk before he
    · have hmiss : depth front = 0 → startsWord keyword front.getLast? (c :: cs) = false := by
        intro h0
        simpa [h0] using hhit
      rw [piecesAfter_cons hk hmiss] at h
      obtain ⟨p, ps, hnext⟩ := List.exists_cons_of_ne_nil
        (piecesFrom_ne_nil 0 (depth (front ++ [c])) (front ++ [c]).getLast? cs)
      rw [piecesAfter, hnext] at h
      obtain ⟨rfl, rfl⟩ := List.cons.inj h
      obtain ⟨hnone, hrest⟩ := ih hnext
      have hfront : front ++ c :: p = front ++ [c] ++ p := by simp
      refine ⟨?_, ?_⟩
      · intro before word after he h0 hs
        cases before with
        | cons d before =>
          obtain ⟨rfl, hp⟩ := List.cons.inj he
          refine hnone before word after hp ?_ ?_
          · simpa using h0
          · simpa using hs
        | nil =>
          rw [List.nil_append] at he
          rw [List.append_nil] at h0 hs
          have hopen : ∃ tail, c :: cs = word ++ after ++ tail ∧ Apart (word ++ after) tail := by
            rw [← he]
            rcases hrest with ⟨rfl, _⟩ | ⟨w, a, rfl, _, hw, _⟩
            · exact ⟨[], by simp, .inr (by simp)⟩
            · rw [← hfront] at hw
              exact ⟨w ++ a, by simp, apart_of_back hw.dropFront.apartBefore⟩
          exact hs.not_miss hk hopen (hmiss h0)
      · rcases hrest with ⟨rfl, hps⟩ | ⟨w, a, rfl, h0, hw, hps⟩
        · exact .inl ⟨rfl, hps⟩
        · rw [← hfront] at h0 hw
          exact .inr ⟨w, a, by simp, h0, hw, hps⟩

/-- The pieces that the scan yields are those of the only cut. -/
theorem pieces_eq_iff (hk : IsKeyword keyword) :
    pieces keyword cs = ps ↔ Cut keyword cs ps := by
  constructor
  · intro h
    induction ps generalizing cs with
    | nil => exact absurd h (piecesFrom_ne_nil 0 0 none cs)
    | cons piece rest ih =>
      obtain ⟨hnone, hrest⟩ := piecesAfter_eq_cons hk (show piecesAfter keyword [] cs = _ from h)
      have hpiece : Unbroken keyword piece := hnone
      rcases hrest with ⟨rfl, rfl⟩ | ⟨word, after, rfl, h0, hs, hps⟩
      · exact .whole hpiece
      · exact .join hpiece h0 hs (ih hps)
  · intro h
    induction h with
    | whole h => exact pieces_of_unbroken hk h
    | join h h0 hs _ ih => rw [pieces_join hk h h0 hs, ih]

theorem cut_pieces (hk : IsKeyword keyword) (cs : List Char) : Cut keyword cs (pieces keyword cs) :=
  (pieces_eq_iff hk).mp rfl

theorem Cut.ne_nil (h : Cut keyword cs ps) : ps ≠ [] := by
  cases h <;> simp

theorem length_pieces_iff (hk : IsKeyword keyword) :
    1 < (pieces keyword cs).length ↔ ¬ Unbroken keyword cs := by
  constructor
  · intro h hu
    simp [pieces_of_unbroken hk hu] at h
  · intro h
    have hcut := cut_pieces hk cs
    generalize pieces keyword cs = ps at hcut
    cases hcut with
    | whole hu => exact absurd hu h
    | join _ _ _ hrest =>
      have hpos := List.length_pos_iff.mpr hrest.ne_nil
      rw [List.length_cons]
      omega

/-- The pieces of a text without one connective have none of it either. -/
theorem Cut.unbroken (h : Cut keyword cs ps) (hk : IsKeyword keyword) {other : List Char}
    (ho : IsKeyword other) (hu : Unbroken other cs) :
    ∀ p ∈ ps, Unbroken other p := by
  induction h with
  | whole _ => simpa using hu
  | join _ h0 hs _ ih =>
    rw [List.append_assoc] at hu
    obtain ⟨hpiece, htail⟩ := (unbroken_append_iff ho h0 (apart_of_back hs.apartBefore)).mp hu
    have hrest := ((unbroken_append_iff ho (hs.flat hk).depth_eq
      (apart_of_front hs.apartAfter)).mp htail).2
    intro p hp
    rcases List.mem_cons.mp hp with rfl | hp
    · exact hpiece
    · exact ih hrest p hp

theorem Separates.not_blank (hs : Separates keyword before word after) (hk : IsKeyword keyword) :
    ∀ c ∈ word, isBlank c = false := by
  intro c hc
  rw [Bool.eq_false_iff]
  intro hb
  have hw := hs.wordChars hk c hc
  rw [not_isWordChar_of_isBlank hb] at hw
  cases hw

theorem Cut.unbroken_self (h : Cut keyword cs ps) : ∀ p ∈ ps, Unbroken keyword p := by
  induction h with
  | whole hu => simpa using hu
  | join hu _ _ _ ih => simpa using ⟨hu, ih⟩

theorem Cut.trimStart (h : Cut keyword cs ps) (hk : IsKeyword keyword) :
    ∃ qs, Cut keyword (trimStart cs) qs ∧ qs.map Text.trim = ps.map Text.trim := by
  cases h with
  | whole hu =>
    obtain ⟨l, hl, hcs⟩ := exists_trimStart cs
    rw [hcs, unbroken_append_iff hk (flat_of_blank hl).depth_eq (apart_of_blank_left hl)] at hu
    exact ⟨[Text.trimStart cs], .whole hu.2, by simp [trim_trimStart]⟩
  | @join piece word rest ps hu h0 hs hrest =>
    obtain ⟨l, hl, hpiece⟩ := exists_trimStart piece
    have hd := (flat_of_blank hl).depth_eq
    have hfront : ∀ c ∈ (word ++ rest).head?, isBlank c = false := by
      rw [List.head?_append_of_ne_nil _ (hs.ne_nil hk)]
      exact fun c hc => hs.not_blank hk c (List.mem_of_mem_head? hc)
    rw [hpiece] at hu h0 hs
    rw [depth_append, hd, Int.zero_add] at h0
    rw [unbroken_append_iff hk hd (apart_of_blank_left hl)] at hu
    refine ⟨Text.trimStart piece :: ps, ?_, by simp [trim_trimStart]⟩
    rw [List.append_assoc, trimStart_append_of_front _ hfront, ← List.append_assoc]
    exact .join hu.2 h0 hs.dropFront hrest

theorem Cut.trimEnd (h : Cut keyword cs ps) (hk : IsKeyword keyword) :
    ∃ qs, Cut keyword (trimEnd cs) qs ∧ qs.map Text.trim = ps.map Text.trim := by
  induction h with
  | @whole cs hu =>
    obtain ⟨r, hr, hcs⟩ := exists_trimEnd cs
    rw [hcs] at hu
    exact ⟨[Text.trimEnd cs], .whole (hu.left hk (apart_of_blank_right hr)), by simp [trim_trimEnd]⟩
  | @join piece word rest ps hu h0 hs _ ih =>
    obtain ⟨qs, hqs, htrim⟩ := ih
    have hne := hs.ne_nil hk
    have hback : ∀ c ∈ (piece ++ word).getLast?, isBlank c = false := by
      rw [List.getLast?_append_of_ne_nil _ hne]
      exact fun c hc => hs.not_blank hk c (List.mem_of_getLast? hc)
    obtain ⟨r, _, hrest⟩ := exists_trimEnd rest
    rw [hrest] at hs
    refine ⟨piece :: qs, ?_, by simp [htrim]⟩
    rw [trimEnd_append_of_back _ hback]
    exact .join hu h0 hs.dropBack hqs

/-- White space around a text stands around its first and its last piece. -/
theorem Cut.trim (h : Cut keyword cs ps) (hk : IsKeyword keyword) :
    ∃ qs, Cut keyword (trim cs) qs ∧ qs.map Text.trim = ps.map Text.trim := by
  obtain ⟨qs, hqs, hstart⟩ := h.trimStart hk
  obtain ⟨rs, hrs, hend⟩ := hqs.trimEnd hk
  exact ⟨rs, hrs, hend.trans hstart⟩

end SignalEvolution.Formula

import Mathlib.Data.List.Basic
import Mathlib.Data.List.TakeWhile
import SignalEvolution.Text.Blank

/-! # White space around texts

A text is trimmed when it neither begins nor ends with white space. Every text is
its trimmed part with white space around it, and white space that is added around
a text does not change that part.
-/
namespace SignalEvolution.Text

-- A condition on the characters of a text is decided by the text, and never by a search
-- through all characters there are.
instance (priority := high) decidableForallMem {P : Char → Prop} [DecidablePred P] (cs : List Char) :
    Decidable (∀ c ∈ cs, P c) := List.decidableBAll P cs

instance (priority := high) decidableForallSome {P : Char → Prop} [DecidablePred P] :
    (o : Option Char) → Decidable (∀ c ∈ o, P c)
  | none => isTrue (by simp)
  | some c => decidable_of_iff (P c) (by simp)

/-- Nothing but white space. -/
def Blank (cs : List Char) : Prop := ∀ c ∈ cs, isBlank c = true

instance (cs : List Char) : Decidable (Blank cs) := inferInstanceAs (Decidable (∀ c ∈ cs, isBlank c = true))

structure Trimmed (cs : List Char) : Prop where
  front : ∀ c ∈ cs.head?, isBlank c = false
  back : ∀ c ∈ cs.getLast?, isBlank c = false

variable {l r cs : List Char}

theorem blank_nil : Blank [] := by simp [Blank]

theorem Blank.append (hl : Blank l) (hr : Blank r) : Blank (l ++ r) := by
  intro c hc
  rcases List.mem_append.mp hc with hc | hc
  · exact hl c hc
  · exact hr c hc

theorem trimStart_append (hl : Blank l) (cs : List Char) : trimStart (l ++ cs) = trimStart cs :=
  List.dropWhile_append_of_pos hl

theorem trimEnd_append (cs : List Char) (hr : Blank r) : trimEnd (cs ++ r) = trimEnd cs := by
  have hr' : Blank r.reverse := fun c hc => hr c (List.mem_reverse.mp hc)
  rw [trimEnd, List.reverse_append, trimStart_append hr', trimEnd]

theorem head?_trimStart (cs : List Char) : ∀ c ∈ (trimStart cs).head?, isBlank c = false := by
  intro c hc
  have h := List.head?_dropWhile_not isBlank cs
  rw [trimStart, Option.mem_def] at hc
  simpa [hc] using h

theorem getLast?_trimEnd (cs : List Char) : ∀ c ∈ (trimEnd cs).getLast?, isBlank c = false := by
  intro c hc
  rw [trimEnd, List.getLast?_reverse] at hc
  exact head?_trimStart _ c hc

theorem trimStart_eq_self (h : ∀ c ∈ cs.head?, isBlank c = false) : trimStart cs = cs := by
  cases cs with
  | nil => rfl
  | cons c rest =>
    have hc := h c rfl
    simp [trimStart, hc]

theorem trimEnd_eq_self (h : ∀ c ∈ cs.getLast?, isBlank c = false) : trimEnd cs = cs := by
  rw [trimEnd, trimStart_eq_self (by simpa using h), List.reverse_reverse]

/-- A text is white space before its front-trimmed part. -/
theorem exists_trimStart (cs : List Char) : ∃ l, Blank l ∧ cs = l ++ trimStart cs :=
  ⟨cs.takeWhile isBlank, fun _ hc => List.mem_takeWhile_imp hc,
    List.takeWhile_append_dropWhile.symm⟩

theorem exists_trimEnd (cs : List Char) : ∃ r, Blank r ∧ cs = trimEnd cs ++ r := by
  obtain ⟨l, hl, hcs⟩ := exists_trimStart cs.reverse
  refine ⟨l.reverse, fun c hc => hl c (List.mem_reverse.mp hc), ?_⟩
  have h := congrArg List.reverse hcs
  rwa [List.reverse_reverse, List.reverse_append] at h

/-- A text is its trimmed part with white space around it. -/
theorem exists_trim (cs : List Char) : ∃ l r, Blank l ∧ Blank r ∧ cs = l ++ trim cs ++ r := by
  obtain ⟨l, hl, hcs⟩ := exists_trimStart cs
  obtain ⟨r, hr, hmid⟩ := exists_trimEnd (trimStart cs)
  refine ⟨l, r, hl, hr, ?_⟩
  rw [trim, List.append_assoc, ← hmid]
  exact hcs

/-- White space is only taken off the first of two texts when the second does not begin with it. -/
theorem trimStart_append_of_front (cs : List Char) (h : ∀ c ∈ r.head?, isBlank c = false) :
    trimStart (cs ++ r) = trimStart cs ++ r := by
  obtain ⟨l, hl, hcs⟩ := exists_trimStart cs
  have hstep : trimStart (cs ++ r) = trimStart (trimStart cs ++ r) := by
    rw [hcs, List.append_assoc, trimStart_append hl, ← hcs]
  rw [hstep]
  apply trimStart_eq_self
  intro c hc
  cases hmid : trimStart cs with
  | nil => exact h c (by simpa [hmid] using hc)
  | cons d rest => exact head?_trimStart cs c (by rw [hmid] at hc ⊢; exact hc)

theorem trimEnd_append_of_back (cs : List Char) (h : ∀ c ∈ l.getLast?, isBlank c = false) :
    trimEnd (l ++ cs) = l ++ trimEnd cs := by
  have hl : ∀ c ∈ l.reverse.head?, isBlank c = false := by simpa using h
  rw [trimEnd, List.reverse_append, trimStart_append_of_front _ hl, List.reverse_append,
    List.reverse_reverse, trimEnd]

theorem trim_of_trimmed (h : Trimmed cs) : trim cs = cs := by
  rw [trim, trimStart_eq_self h.front, trimEnd_eq_self h.back]

theorem trimStart_of_blank (h : Blank cs) : trimStart cs = [] := by
  simpa [trimStart] using trimStart_append h []

theorem trim_append (hl : Blank l) (hr : Blank r) (cs : List Char) :
    trim (l ++ cs ++ r) = trim cs := by
  obtain ⟨b, hb, hcs⟩ := exists_trimStart cs
  rw [trim, List.append_assoc, trimStart_append hl, trim, hcs, List.append_assoc,
    trimStart_append hb, trimStart_append hb]
  by_cases hempty : trimStart cs = []
  · -- Nothing is left of the text, and so nothing of the white space behind it.
    rw [hempty, List.nil_append, trimStart_of_blank hr]
    rfl
  · have hfront : ∀ c ∈ (trimStart cs ++ r).head?, isBlank c = false := by
      rw [List.head?_append_of_ne_nil _ hempty]
      exact head?_trimStart cs
    rw [trimStart_eq_self hfront, trimEnd_append _ hr, trimStart_eq_self (head?_trimStart cs)]

theorem trim_trimStart (cs : List Char) : trim (trimStart cs) = trim cs := by
  obtain ⟨l, hl, hcs⟩ := exists_trimStart cs
  have h := trim_append hl blank_nil (trimStart cs)
  rwa [List.append_nil, ← hcs, eq_comm] at h

theorem trim_trimEnd (cs : List Char) : trim (trimEnd cs) = trim cs := by
  obtain ⟨r, hr, hcs⟩ := exists_trimEnd cs
  have h := trim_append blank_nil hr (trimEnd cs)
  rwa [List.nil_append, ← hcs, eq_comm] at h

theorem trimmed_trim (cs : List Char) : Trimmed (trim cs) := by
  refine ⟨?_, getLast?_trimEnd (trimStart cs)⟩
  obtain ⟨r, _, hmid⟩ := exists_trimEnd (trimStart cs)
  intro c hc
  have hne : trimEnd (trimStart cs) ≠ [] := by rintro h; simp [trim, h] at hc
  apply head?_trimStart cs c
  rw [hmid, List.head?_append_of_ne_nil _ hne]
  exact hc

theorem trim_trim (cs : List Char) : trim (trim cs) = trim cs := trim_of_trimmed (trimmed_trim cs)

theorem trim_eq_nil_iff : trim cs = [] ↔ Blank cs := by
  constructor
  · intro h
    obtain ⟨l, r, hl, hr, hcs⟩ := exists_trim cs
    rw [hcs, h, List.append_nil]
    exact hl.append hr
  · intro h
    simpa [trim, trimStart, trimEnd] using trim_append h blank_nil []

end SignalEvolution.Text

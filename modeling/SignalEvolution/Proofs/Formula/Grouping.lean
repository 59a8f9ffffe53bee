import Mathlib
import SignalEvolution.Proofs.Formula.Language
import SignalEvolution.Proofs.Formula.Modes

/-! # Clauses in groups

Clauses are joined by OR to groups, and the groups by AND. Nothing gives AND a precedence: both
connectives are looked for in the same text, AND is where it is cut, and a piece that still shows an OR
is read as a formula of its own. So the cut finds the groups, since a group shows no AND, and
strict reading refuses the text where both connectives show.
-/
namespace SignalEvolution.Formula
open Text

variable {mode : Mode} {keyword cs l r : List Char} {css : List (List Char)} {s : String} {t : Tree}
variable {ts : List Tree} {tss trees : List (List Tree)} {groups : List (List String)}

/-- Texts between the occurrences of a keyword, in any case and with any white space around each of them. -/
inductive Joining (keyword : List Char) : List (List Char) → List Char → Prop
  | one {l cs r : List Char} : Blank l → Blank r → Joining keyword [cs] (l ++ cs ++ r)
  | more {l cs r word rest : List Char} {css} : Blank l → Blank r →
      Separates keyword (l ++ cs ++ r) word rest → Joining keyword css rest →
      Joining keyword (cs :: css) (l ++ cs ++ r ++ word ++ rest)

/-- Strict reading accepts the text, and no connective stands outside its parentheses. -/
structure IsClauseText (s : String) (t : Tree) : Prop where
  read : parse .strict s = .ok t
  unbroken : ∀ keyword ∈ connectives, Unbroken keyword s.toList

/-- The text joins groups by AND, and each group joins its clauses by OR. -/
def Groups (groups : List (List String)) (s : String) : Prop :=
  ∃ texts, List.Forall₂ (fun group text => Joining orWord (group.map String.toList) text) groups texts ∧
    Joining andWord texts s.toList

/-- Both connectives show: there are several groups, and several clauses in one of them. -/
def Mixed {α : Type} (groups : List (List α)) : Prop :=
  1 < groups.length ∧ ∃ group ∈ groups, 1 < group.length

theorem Joining.ne_nil (h : Joining keyword css cs) : css ≠ [] := by
  cases h <;> simp

theorem joining_intercalate (hupper : upper keyword = keyword) (hne : css ≠ []) (hl : Blank l) :
    Joining keyword css (l ++ (' ' :: (keyword ++ [' '])).intercalate css) := by
  have hblank : Blank [' '] := by decide
  induction css generalizing l with
  | nil => exact absurd rfl hne
  | cons cs css ih =>
    cases css with
    | nil =>
      have hone : Joining keyword [cs] (l ++ cs ++ []) := .one hl blank_nil
      simpa using hone
    | cons ds css =>
      have hs : Separates keyword (l ++ cs ++ [' ']) keyword
          ([' '] ++ (' ' :: (keyword ++ [' '])).intercalate (ds :: css)) := by
        refine ⟨hupper, fun c hc => ?_, fun c hc => ?_⟩
        · rw [List.getLast?_concat] at hc
          obtain rfl := Option.some.inj hc
          decide
        · obtain rfl := Option.some.inj hc
          decide
      have hmore := Joining.more hl hblank hs (ih (by simp) hblank)
      simpa [List.intercalate_cons_cons] using hmore

theorem groups_intercalate (hne : groups ≠ []) (hgroups : ∀ group ∈ groups, group ≠ []) :
    Groups groups (" AND ".intercalate (groups.map " OR ".intercalate)) := by
  have hand : " AND ".toList = ' ' :: (andWord ++ [' ']) := rfl
  have hor : " OR ".toList = ' ' :: (orWord ++ [' ']) := rfl
  refine ⟨(groups.map " OR ".intercalate).map String.toList, ?_, ?_⟩
  · rw [List.map_map, List.forall₂_map_right_iff, List.forall₂_same]
    intro group hgroup
    have hjoin : Joining orWord (group.map String.toList) _ :=
      joining_intercalate (by decide) (by simpa using hgroups group hgroup) blank_nil
    rwa [← hor, List.nil_append, ← String.toList_intercalate] at hjoin
  · have hjoin : Joining andWord ((groups.map " OR ".intercalate).map String.toList) _ :=
      joining_intercalate (by decide) (by simpa using hne) blank_nil
    rwa [← hand, List.nil_append, ← String.toList_intercalate] at hjoin

theorem IsClauseText.clauseRead (h : IsClauseText s t) : ClauseRead mode s.toList t := by
  have hstrict := (isFormula_of_outline h.read).formulaRead
  refine FormulaRead.clauseRead ⟨hstrict.balanced, hstrict.visible, ?_⟩ h.unbroken
  cases mode with
  | strict => exact hstrict.read
  | lenient => exact tree_fills _ _ hstrict.read

theorem joinedRead_of_joining (h : Joining orWord css cs) (hclauses : List.Forall₂ (ClauseRead mode) css ts) :
    JoinedRead mode .or cs ts := by
  induction h generalizing ts with
  | one hl hr =>
    obtain ⟨t, us, ht, hus, rfl⟩ := List.forall₂_cons_left_iff.mp hclauses
    obtain rfl := List.forall₂_nil_left_iff.mp hus
    exact (ht.pad hl hr).joined .or
  | more hl hr hs _ ih =>
    obtain ⟨t, us, ht, hus, rfl⟩ := List.forall₂_cons_left_iff.mp hclauses
    exact .more (ht.pad hl hr) (.inr ⟨rfl, hs⟩) (ih hus)

/-- A group can stand between the words AND; it shows an OR if it has several clauses. -/
structure GroupRead (mode : Mode) (cs : List Char) (ts : List Tree) : Prop
    extends FormulaRead mode cs (join .or ts) where
  unbroken : Unbroken andWord cs
  unbroken_or_iff : Unbroken orWord cs ↔ ts.length ≤ 1
  readPart : (part cs).tree mode = .ok (join .or ts)

theorem JoinedRead.groupRead (h : JoinedRead mode .or cs ts) : GroupRead mode cs ts := by
  have hiff : Unbroken orWord cs ↔ ts.length ≤ 1 := by
    obtain ⟨ps, hcut, hparts⟩ := h.cut
    rw [← hparts.length_eq, ← (pieces_eq_iff isKeyword_or).mpr hcut, ← not_lt,
      length_pieces_iff isKeyword_or, not_not]
  refine ⟨h.toFormulaRead, h.unbroken, hiff, ?_⟩
  by_cases hu : Unbroken orWord cs
  · refine (h.toFormulaRead.clauseRead fun keyword hk => ?_).readPart
    rcases List.mem_pair.mp hk with rfl | rfl
    · exact h.unbroken
    · exact hu
  · have htrim := mt (h.balanced.unbroken_trim_iff isKeyword_or).mp hu
    have hnested : isNested (trim cs) (strip cs) = true := by
      have hcut := (length_pieces_iff isKeyword_or).mpr htrim
      simp [isNested, strip_of_not_unbroken isKeyword_or htrim, hcut]
    rw [part, if_pos hnested]
    exact outline_tree_congr (strip_strip cs).symm h.read

theorem GroupRead.pad (hl : Blank l) (hr : Blank r) (h : GroupRead mode cs ts) :
    GroupRead mode (l ++ cs ++ r) ts where
  toFormulaRead := h.toFormulaRead.pad hl hr
  unbroken := (unbroken_pad_iff isKeyword_and hl hr h.balanced.even).mpr h.unbroken
  unbroken_or_iff := (unbroken_pad_iff isKeyword_or hl hr h.balanced.even).trans h.unbroken_or_iff
  readPart := part_tree_congr (trim_append hl hr cs).symm h.readPart

/-- Groups under AND, cut into parts that are read as those groups. -/
structure GroupsRead (mode : Mode) (cs : List Char) (tss : List (List Tree)) : Prop where
  balanced : Balanced cs
  cut : ∃ ps, Cut andWord cs ps ∧ List.Forall₂ (fun p ts => (part p).tree mode = .ok (join .or ts)) ps tss
  unbroken_or_iff : Unbroken orWord cs ↔ ∀ ts ∈ tss, ts.length ≤ 1

theorem GroupRead.single (h : GroupRead mode cs ts) : GroupsRead mode cs [ts] where
  balanced := h.balanced
  cut := ⟨[cs], .whole h.unbroken, .cons h.readPart .nil⟩
  unbroken_or_iff := by rw [List.forall_mem_singleton, h.unbroken_or_iff]

theorem GroupsRead.more {word rest : List Char} (h : GroupRead mode cs ts)
    (hs : Separates andWord cs word rest) (hrest : GroupsRead mode rest tss) :
    GroupsRead mode (cs ++ word ++ rest) (ts :: tss) where
  balanced := (h.balanced.append (hs.flat isKeyword_and).balanced).append hrest.balanced
  cut := by
    obtain ⟨ps, hcut, hparts⟩ := hrest.cut
    exact ⟨cs :: ps, .join h.unbroken h.balanced.even hs hcut, .cons h.readPart hparts⟩
  unbroken_or_iff := by
    rw [hs.unbroken_iff isKeyword_and isKeyword_or (by decide) h.balanced.even, List.forall_mem_cons,
      h.unbroken_or_iff, hrest.unbroken_or_iff]

theorem groupsRead_of_joining (h : Joining andWord css cs) (hgroups : List.Forall₂ (GroupRead mode) css tss) :
    GroupsRead mode cs tss := by
  induction h generalizing tss with
  | one hl hr =>
    obtain ⟨ts, us, ht, hus, rfl⟩ := List.forall₂_cons_left_iff.mp hgroups
    obtain rfl := List.forall₂_nil_left_iff.mp hus
    exact (ht.pad hl hr).single
  | more hl hr hs _ ih =>
    obtain ⟨ts, us, ht, hus, rfl⟩ := List.forall₂_cons_left_iff.mp hgroups
    exact .more (ht.pad hl hr) hs (ih hus)

/-- Several groups are the parts that the text is cut into. OR shows where one of them has several clauses. -/
theorem GroupsRead.outline_eq (h : GroupsRead mode cs tss) (hlen : 1 < tss.length) :
    ∃ parts mixed, outline cs = .joined cs mixed .and parts ∧
      Outline.trees mode parts = .ok (tss.map (join .or)) ∧ (mixed = true ↔ Mixed tss) := by
  obtain ⟨ps, hcut, hparts⟩ := h.cut
  have hcut' : Cut (keywordOf .and) cs ps := hcut
  obtain ⟨_, qs, mixed, hmap, hmixed, hjoined⟩ :=
    outline_of_cut (.inl rfl) h.balanced hcut' (by rwa [hparts.length_eq]) (by simp)
  have hor : mixed = true ↔ ¬ Unbroken orWord cs := hmixed
  refine ⟨qs.map part, mixed, hjoined, ?_, ?_⟩
  · exact trees_eq_ok_iff.mpr (forall₂_part_congr hmap.symm (List.forall₂_map_right_iff.mpr hparts))
  · rw [hor, h.unbroken_or_iff, Mixed]
    simp [hlen]

/-- What is read of one group is read of it alone; of several, their join, unless strict reading finds
them mixed. -/
theorem tree_of_joining (h : Joining andWord css cs) (hgroups : List.Forall₂ (GroupRead mode) css tss) :
    (¬ (mode = .strict ∧ Mixed tss) → (outline cs).tree mode = .ok (join .and (tss.map (join .or)))) ∧
      (mode = .strict ∧ Mixed tss → (outline cs).tree mode =
        .error (.formula ("mixed AND/OR connectives in '" ++ String.ofList cs ++ "'"))) := by
  by_cases hlen : 1 < tss.length
  · obtain ⟨parts, mixed, hjoined, htrees, hmixed⟩ := (groupsRead_of_joining h hgroups).outline_eq hlen
    have hrefused : (mixed && mode == .strict) = true ↔ mode = .strict ∧ Mixed tss := by
      rw [Bool.and_eq_true, beq_iff_eq, hmixed, and_comm]
    rw [hjoined, Outline.tree, htrees]
    exact ⟨fun hok => if_neg (mt hrefused.mp hok), fun herror => if_pos (hrefused.mpr herror)⟩
  · refine ⟨fun _ => ?_, fun herror => absurd herror.2.1 hlen⟩
    cases h with
    | one hl hr =>
      obtain ⟨ts, us, ht, hus, rfl⟩ := List.forall₂_cons_left_iff.mp hgroups
      obtain rfl := List.forall₂_nil_left_iff.mp hus
      exact (ht.pad hl hr).read
    | more _ _ _ hrest =>
      have hpos := List.length_pos_iff.mpr hrest.ne_nil
      rw [← hgroups.length_eq, List.length_cons] at hlen
      omega

theorem mixed_congr {α β : Type} {xss : List (List α)} {yss : List (List β)}
    (h : xss.map List.length = yss.map List.length) : Mixed xss ↔ Mixed yss := by
  have hlengths : ∀ {γ : Type} (zss : List (List γ)),
      Mixed zss ↔ 1 < (zss.map List.length).length ∧ ∃ n ∈ zss.map List.length, 1 < n := by
    simp [Mixed]
  rw [hlengths, h, ← hlengths]

theorem forall₂_groupRead {texts : List (List Char)}
    (htexts : List.Forall₂ (fun group text => Joining orWord (group.map String.toList) text) groups texts)
    (h : List.Forall₂ (List.Forall₂ IsClauseText) groups trees) :
    List.Forall₂ (GroupRead mode) texts trees := by
  induction htexts generalizing trees with
  | nil =>
    obtain rfl := List.forall₂_nil_left_iff.mp h
    exact .nil
  | cons htext _ ih =>
    obtain ⟨ts, tss, hts, htss, rfl⟩ := List.forall₂_cons_left_iff.mp h
    have hclauses : List.Forall₂ (ClauseRead mode) _ ts :=
      List.forall₂_map_left_iff.mpr (hts.imp fun _ _ hc => hc.clauseRead)
    exact .cons (joinedRead_of_joining htext hclauses).groupRead (ih htss)

/-- Clauses joined by OR to groups and groups joined by AND, however the connectives are written and
spaced: lenient reading folds the groups from the left with AND, each of them folded from the left with OR.
Strict reading yields the same tree, and an error exactly where there are several groups and one of them
has several clauses. -/
theorem parse_groups (h : List.Forall₂ (List.Forall₂ IsClauseText) groups trees) (hne : groups ≠ [])
    (hgroups : ∀ group ∈ groups, group ≠ []) :
    Groups groups (" AND ".intercalate (groups.map " OR ".intercalate)) ∧
    ∀ s, Groups groups s →
      parse .lenient s = .ok (join .and (trees.map (join .or))) ∧
      (¬ Mixed groups → parse .strict s = .ok (join .and (trees.map (join .or)))) ∧
      (Mixed groups → parse .strict s = .error (.formula ("mixed AND/OR connectives in '" ++ s ++ "'"))) := by
  refine ⟨groups_intercalate hne hgroups, ?_⟩
  rintro s ⟨texts, htexts, hs⟩
  have hmixed : Mixed trees ↔ Mixed groups := by
    refine (mixed_congr ?_).symm
    rw [← List.forall₂_eq_eq_eq, List.forall₂_map_left_iff, List.forall₂_map_right_iff]
    exact h.imp fun _ _ hgroup => hgroup.length_eq
  have hread : ∀ mode, List.Forall₂ (GroupRead mode) texts trees := fun _ => forall₂_groupRead htexts h
  obtain ⟨hlenient, _⟩ := tree_of_joining hs (hread .lenient)
  obtain ⟨hok, herror⟩ := tree_of_joining hs (hread .strict)
  rw [String.ofList_toList] at herror
  rw [hmixed] at hok herror
  exact ⟨hlenient (by simp), fun hn => hok fun hm => hn hm.2, fun hm => herror ⟨rfl, hm⟩⟩

theorem isClauseText_of_pieces (hread : parse .strict s = .ok t)
    (hcut : ∀ keyword ∈ connectives, (pieces keyword s.toList).length ≤ 1) : IsClauseText s t where
  read := hread
  unbroken keyword hk := by
    rw [← not_not (a := Unbroken keyword s.toList), ← length_pieces_iff (isKeyword_of_mem hk), not_lt]
    exact hcut keyword hk

set_option maxRecDepth 4000 in
/-- A group of two clauses before a group of one. -/
theorem parse_groups_mixed :
    let groups := [["close > open", "(high < low and volume >= low)"], ["open = low"]]
    let trees := [[.compare .greater (.series .close) (.series .opening),
        .both (.compare .less (.series .high) (.series .low))
          (.compare .greaterEqual (.series .volume) (.series .low))],
      [.compare .equal (.series .opening) (.series .low)]]
    List.Forall₂ (List.Forall₂ IsClauseText) groups trees ∧ groups ≠ [] ∧ (∀ group ∈ groups, group ≠ []) ∧
      ∃ s, Groups groups s ∧ Mixed groups ∧ parse .lenient s = .ok (join .and (trees.map (join .or))) ∧
        parse .strict s = .error (.formula ("mixed AND/OR connectives in '" ++ s ++ "'")) := by
  intro groups trees
  have h : List.Forall₂ (List.Forall₂ IsClauseText) groups trees := by
    refine .cons (.cons ?_ (.cons ?_ .nil)) (.cons (.cons ?_ .nil) .nil)
    all_goals exact isClauseText_of_pieces (by cbv) (by decide)
  have hne : groups ≠ [] := by simp [groups]
  have hgroups : ∀ group ∈ groups, group ≠ [] := by simp [groups]
  have hmixed : Mixed groups := ⟨by decide, _, List.mem_cons_self, by decide⟩
  obtain ⟨hplain, hall⟩ := parse_groups h hne hgroups
  obtain ⟨hlenient, _, herror⟩ := hall _ hplain
  exact ⟨h, hne, hgroups, _, hplain, hmixed, hlenient, herror hmixed⟩

end SignalEvolution.Formula

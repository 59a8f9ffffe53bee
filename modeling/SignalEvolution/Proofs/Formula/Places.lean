import SignalEvolution.Proofs.Formula.Operand
import SignalEvolution.Proofs.Formula.Slices

/-! # Places of keywords

A keyword stands at a byte offset of a text, outside all parentheses and with no byte of a word
next to it. A text is its parts with such keywords between them. In a part every keyword stands
where it stands in the text, so nothing is left in a part at which it could be cut once more.
-/
namespace SignalEvolution.Formula
open Text

/-- Parentheses that are opened less those that are closed. -/
def byteDepth (text : List UInt8) : Int := text.count 40 - text.count 41

/-- A keyword at a byte offset of a text, in any case. -/
structure StandsAt (keyword text : List UInt8) (i : Nat) : Prop where
  spelled : ((text.drop i).take keyword.length).map upperByte = keyword
  outside : byteDepth (text.take i) = 0
  apartBefore : 0 < i → ∀ b ∈ text[i - 1]?, isWordByte b = false
  apartAfter : ∀ b ∈ text[i + keyword.length]?, isWordByte b = false

/-- Parts of a text with words between them. -/
def rejoin : List (List Char) → List (List Char) → List Char
  | part :: parts, word :: words => part ++ word ++ rejoin parts words
  | parts, _ => parts.flatten

def offsetOf (width : Nat) (parts : List (List Char)) (n : Nat) : Nat :=
  ((parts.take n).map fun part => size part + width).sum

variable {keyword other before word after front back part cs ds : List Char} {ps : List (List Char)}
variable {b : UInt8} {i n width : Nat}

theorem byteDepth_append (text rest : List UInt8) :
    byteDepth (text ++ rest) = byteDepth text + byteDepth rest := by
  simp only [byteDepth, List.count_append]
  omega

theorem byteDepth_encode (c : Char) : byteDepth (String.utf8EncodeChar c) = weight c := by
  by_cases hc : c.toNat < 128
  · have hopen : UInt8.ofNat c.toNat = 40 ↔ c = '(' := byte_eq_iff (by simp [encode_ascii hc]) rfl (by decide)
    have hclose : UInt8.ofNat c.toNat = 41 ↔ c = ')' := byte_eq_iff (by simp [encode_ascii hc]) rfl (by decide)
    simp only [byteDepth, encode_ascii hc, List.count_singleton, beq_iff_eq, hopen, hclose, weight]
    split_ifs <;> simp_all
  · have habsent : ∀ a : UInt8, a.toNat < 128 → (String.utf8EncodeChar c).count a = 0 := by
      intro a ha
      apply List.count_eq_zero_of_not_mem
      intro hmem
      have hbyte := toNat_byte hmem
      omega
    have hparen : c ≠ '(' ∧ c ≠ ')' := by
      constructor <;> rintro rfl <;> exact hc (by decide)
    rw [byteDepth, habsent 40 (by decide), habsent 41 (by decide), weight_other hparen.1 hparen.2]
    rfl

theorem byteDepth_bytes (cs : List Char) : byteDepth (bytes cs) = depth cs := by
  induction cs with
  | nil => rfl
  | cons c cs ih => rw [bytes_cons, byteDepth_append, byteDepth_encode, ih, depth_cons]

theorem StandsAt.fits {keyword text : List UInt8} (h : StandsAt keyword text i) (hne : keyword ≠ []) :
    i + keyword.length ≤ text.length := by
  have hlen := congrArg List.length h.spelled
  have hpos := List.length_pos_iff.mpr hne
  simp only [List.length_map, List.length_take, List.length_drop] at hlen
  omega

theorem apartAt?_before_iff {text : List UInt8} (h : i ≤ text.length) :
    apartAt? text (i == 0) (i - 1) = some true ↔ (0 < i → ∀ b ∈ text[i - 1]?, isWordByte b = false) := by
  cases i with
  | zero => simp [apartAt?]
  | succ i => simp [apartAt?, List.getElem?_eq_getElem h]

theorem apartAt?_after_iff {text : List UInt8} (h : i ≤ text.length) :
    apartAt? text (i == text.length) i = some true ↔ ∀ b ∈ text[i]?, isWordByte b = false := by
  rcases Nat.eq_or_lt_of_le h with rfl | hlt
  · simp [apartAt?]
  · simp [apartAt?, Nat.ne_of_lt hlt, hlt]

theorem keywordAt?_eq_true_iff {keyword text : List UInt8} : keywordAt? keyword text i = some true ↔
    (i + keyword.length ≤ text.length ∧ ((text.drop i).take keyword.length).map upperByte = keyword) ∧
      apartAt? text (i == 0) (i - 1) = some true ∧
      apartAt? text (i + keyword.length == text.length) (i + keyword.length) = some true := by
  simp only [keywordAt?]
  split
  · next hword => simp [hword, Option.bind_eq_some_iff]
  · next hword =>
    simp only [Option.some_inj, Bool.false_eq_true, false_iff]
    exact fun h => hword h.1

theorem standsAt_iff_keywordAt? {keyword text : List UInt8} (hne : keyword ≠ []) :
    StandsAt keyword text i ↔ byteDepth (text.take i) = 0 ∧ keywordAt? keyword text i = some true := by
  rw [keywordAt?_eq_true_iff]
  constructor
  · intro h
    have hfits := h.fits hne
    exact ⟨h.outside, ⟨hfits, h.spelled⟩, (apartAt?_before_iff (by omega)).mpr h.apartBefore,
      (apartAt?_after_iff hfits).mpr h.apartAfter⟩
  · rintro ⟨houtside, ⟨hfits, hspelled⟩, hbefore, hafter⟩
    exact ⟨hspelled, houtside, (apartAt?_before_iff (by omega)).mp hbefore, (apartAt?_after_iff hfits).mp hafter⟩

/-- Keywords stand where characters begin, as words of their own. -/
theorem standsAt_iff (hk : IsKeyword keyword) : StandsAt (bytes keyword) (bytes cs) i ↔
    ∃ before word after, cs = before ++ word ++ after ∧ size before = i ∧ depth before = 0 ∧
      Separates keyword before word after := by
  have hne : bytes keyword ≠ [] := by
    rw [Ne, ← List.length_eq_zero_iff, length_bytes, size_eq_zero_iff]
    exact hk.ne_nil
  have htake : ∀ front rest, (bytes (front ++ rest)).take (size front) = bytes front := by
    intro front rest
    rw [bytes_append, ← length_bytes, List.take_left]
  constructor
  · intro h
    have hfits := h.fits hne
    obtain ⟨houtside, hfound⟩ := (standsAt_iff_keywordAt? hne).mp h
    rw [length_bytes, length_bytes] at hfits
    rcases boundary_or_inside (by omega : i ≤ size cs) with ⟨front, rest, rfl, rfl⟩ | ⟨b, hb, hhigh⟩
    · rw [keywordAt?_eq hk, Option.some_inj] at hfound
      obtain ⟨word, after, rfl, hs⟩ := startsWord_iff.mp hfound
      rw [htake, byteDepth_bytes] at houtside
      exact ⟨front, word, after, by simp, rfl, houtside, hs⟩
    · rw [keywordAt?_high hk hb hhigh] at hfound
      simp at hfound
  · rintro ⟨before, word, after, rfl, rfl, h0, hs⟩
    rw [standsAt_iff_keywordAt? hne, List.append_assoc, htake, byteDepth_bytes, keywordAt?_eq hk,
      startsWord_iff.mpr ⟨word, after, rfl, hs⟩]
    exact ⟨h0, rfl⟩

/-- A part of a text that stands between two others outside all parentheses and joins no words with them. -/
structure Fits (front part back : List Char) : Prop where
  even : depth front = 0
  apartFront : Apart front (part ++ back)
  apartBack : Apart part back

/-- In such a part the keywords stand where they stand in the text. -/
theorem Fits.agrees (h : Fits front part back) (hk : IsKeyword keyword) (hi : i < size part) :
    StandsAt (bytes keyword) (bytes part) i ↔
      StandsAt (bytes keyword) (bytes (front ++ part ++ back)) (size front + i) := by
  rw [standsAt_iff hk, standsAt_iff hk]
  constructor
  · rintro ⟨before, word, after, rfl, rfl, h0, hs⟩
    have hback : Apart (word ++ after) back := by
      have hapart := h.apartBack
      rw [List.append_assoc] at hapart
      exact hapart.suffix
    have hfront := h.apartFront.left.left
    refine ⟨front ++ before, word, after ++ back, by simp, by simp, by simp [h.even, h0], ?_⟩
    exact (hs.extend hk hback).addFront hk hfront
  · rintro ⟨ahead, word, rest, he, hsize, h0, hs⟩
    -- The keyword begins behind the front and, as the part is apart from the back, ends in the part.
    rw [List.append_assoc, List.append_assoc] at he
    obtain ⟨before, rfl, hpart⟩ := exists_of_size_le he (by omega)
    rw [size_append] at hsize
    obtain ⟨mid, rfl, hmid⟩ := exists_of_size_le hpart.symm (by omega)
    have hne : mid ≠ [] := by
      rintro rfl
      simp only [List.append_nil] at hi
      omega
    obtain ⟨after, rfl, hin⟩ := hs.restrict hk hmid.symm hne h.apartBack.suffix
    refine ⟨before, word, after, by simp, by omega, ?_, hin.dropFront⟩
    simpa [h.even] using h0

@[simp] theorem offsetOf_zero (width : Nat) (ps : List (List Char)) : offsetOf width ps 0 = 0 := rfl

@[simp] theorem offsetOf_succ (width : Nat) (part : List Char) (ps : List (List Char)) (n : Nat) :
    offsetOf width (part :: ps) (n + 1) = size part + width + offsetOf width ps n := by
  simp [offsetOf]

theorem Cut.fits (h : Cut keyword cs ps) (hk : IsKeyword keyword) (hn : ps[n]? = some part) :
    ∃ front back, cs = front ++ part ++ back ∧ size front = offsetOf keyword.length ps n ∧
      Fits front part back := by
  induction h generalizing n with
  | @whole cs _ =>
    obtain ⟨rfl, rfl⟩ : n = 0 ∧ cs = part := by
      cases n <;> simp_all
    exact ⟨[], [], by simp, rfl, rfl, .inl (by simp), .inr (by simp)⟩
  | @join piece word rest pieces _ h0 hs _ ih =>
    cases n with
    | zero =>
      obtain rfl : piece = part := by simpa using hn
      exact ⟨[], word ++ rest, by simp, rfl, rfl, .inl (by simp), .inl hs.apartBefore⟩
    | succ n =>
      obtain ⟨front, back, rfl, hsize, hfits⟩ := ih (by simpa using hn)
      refine ⟨piece ++ word ++ front, back, by simp, ?_, ?_, ?_, hfits.apartBack⟩
      · rw [size_append, size_append, hk.size_of_upper hs.spelled, hsize, offsetOf_succ]
      · rw [depth_append, depth_append, h0, (hs.flat hk).depth_eq, hfits.even]
        rfl
      · exact hfits.apartFront.prepend (by simpa using hs.apartAfter) (piece ++ word)

/-- The words between the parts of a text are keywords that stand behind the parts. -/
theorem Cut.exists_words (h : Cut keyword cs ps) (hk : IsKeyword keyword) :
    ∃ words, words.length + 1 = ps.length ∧ cs = rejoin ps words ∧
      ∀ (n : Nat) (part word : List Char), ps[n]? = some part → words[n]? = some word →
        ∃ front back, cs = front ++ word ++ back ∧
          size front = offsetOf keyword.length ps n + size part ∧ depth front = 0 ∧
          Separates keyword front word back := by
  induction h with
  | whole _ => exact ⟨[], rfl, by simp [rejoin], by simp⟩
  | @join piece word rest pieces _ h0 hs _ ih =>
    obtain ⟨words, hlen, hrest, hwords⟩ := ih
    refine ⟨word :: words, by simpa using hlen, by rw [rejoin, ← hrest], ?_⟩
    intro n part next hpart hnext
    cases n with
    | zero =>
      obtain ⟨rfl, rfl⟩ : piece = part ∧ word = next := by simpa using And.intro hpart hnext
      exact ⟨piece, rest, rfl, by simp, h0, hs⟩
    | succ n =>
      obtain ⟨front, back, hcut, hsize, hfront, hnext'⟩ :=
        hwords n part next (by simpa using hpart) (by simpa using hnext)
      refine ⟨piece ++ word ++ front, back, by rw [hcut]; simp, ?_, ?_, ?_⟩
      · rw [size_append, size_append, hk.size_of_upper hs.spelled, hsize, offsetOf_succ]
        omega
      · rw [depth_append, depth_append, h0, (hs.flat hk).depth_eq, hfront]
        rfl
      · have hapart : Apart (piece ++ word) (front ++ next ++ back) := apart_of_front (hcut ▸ hs.apartAfter)
        exact hnext'.addFront hk hapart.left

/-- A part that begins at a byte offset of a text: it is cut out between characters, keywords stand in it
where they stand in the text, and none is left at which it could be cut. -/
structure IsPart (keyword cs part : List Char) (start : Nat) : Prop where
  slice : slice? cs start (start + size part) = some part
  agrees : ∀ other ∈ connectives, ∀ i < size part,
    (StandsAt (bytes other) (bytes part) i ↔ StandsAt (bytes other) (bytes cs) (start + i))
  free : ∀ i < size part, ¬ StandsAt (bytes keyword) (bytes cs) (start + i)
  again : parts? keyword part = some [part]
  again_trim : parts? keyword (trim part) = some [trim part]

theorem isPart_of_fits (hk : keyword ∈ connectives) (hu : Unbroken keyword part)
    (h : Fits front part back) (hsize : size part < Nat.pow 2 31) :
    IsPart keyword (front ++ part ++ back) part (size front) := by
  have hword := isKeyword_of_mem hk
  have htrim : size (trim part) < Nat.pow 2 31 := Nat.lt_of_le_of_lt (size_trim_le part) hsize
  exact {
    slice := by simpa using slice?_append front part back
    agrees := fun other ho i hi => h.agrees (isKeyword_of_mem ho) hi
    free := by
      intro i hi hstands
      obtain ⟨before, word, after, hpart, -, h0, hs⟩ :=
        (standsAt_iff hword).mp ((h.agrees hword hi).mpr hstands)
      exact hu before word after hpart h0 hs
    again := by rw [parts?_eq hword hsize, pieces_of_unbroken hword hu]
    again_trim := by rw [parts?_eq hword htrim, pieces_of_unbroken hword (hu.trim hword)] }

/-- The parts of a text with the keywords between them are the text. Each keyword stands where a part
ends, and the parts hold no other. -/
theorem parts_in_place (hk : keyword ∈ connectives) (h : size cs < Nat.pow 2 31) :
    ∃ parts words, parts? keyword cs = some parts ∧ parts = pieces keyword cs ∧
      words.length + 1 = parts.length ∧ cs = rejoin parts words ∧
      (∀ (n : Nat) (part word : List Char), parts[n]? = some part → words[n]? = some word →
        upper word = keyword ∧
          StandsAt (bytes keyword) (bytes cs) (offsetOf keyword.length parts n + size part)) ∧
      ∀ (n : Nat) (part : List Char), parts[n]? = some part →
        IsPart keyword cs part (offsetOf keyword.length parts n) := by
  have hword := isKeyword_of_mem hk
  have hcut := cut_pieces hword cs
  obtain ⟨words, hlen, hjoin, hwords⟩ := hcut.exists_words hword
  refine ⟨pieces keyword cs, words, parts?_eq hword h, rfl, hlen, hjoin, ?_, ?_⟩
  · intro n part word hpart hbetween
    obtain ⟨front, back, he, hsize, h0, hs⟩ := hwords n part word hpart hbetween
    exact ⟨hs.spelled, (standsAt_iff hword).mpr ⟨front, word, back, he, hsize, h0, hs⟩⟩
  · intro n part hpart
    have hmem := List.mem_of_getElem? hpart
    obtain ⟨front, back, he, hsize, hfits⟩ := hcut.fits hword hpart
    have hle : size part ≤ size cs := by
      rw [he, size_append, size_append]
      omega
    rw [← hsize, he]
    exact isPart_of_fits hk (hcut.unbroken_self part hmem) hfits (Nat.lt_of_le_of_lt hle h)

/-- A keyword behind a parenthesis too many is passed over, and so is one that ends a longer word. -/
theorem parts_in_place_uneven :
    andWord ∈ connectives ∧ size "x) AND y( or é aNd BAND".toList < Nat.pow 2 31 ∧
    parts? andWord "x) AND y( or é aNd BAND".toList = some ["x) AND y( or é ".toList, " BAND".toList] ∧
    StandsAt (bytes andWord) (bytes "x) AND y( or é aNd BAND".toList) 16 ∧
    IsPart andWord "x) AND y( or é aNd BAND".toList " BAND".toList 19 := by
  have hk : andWord ∈ connectives := by decide
  have hsize : size "x) AND y( or é aNd BAND".toList < Nat.pow 2 31 := by decide
  obtain ⟨parts, words, hparts, hpieces, hlen, -, hwords, hall⟩ := parts_in_place hk hsize
  have hcut : parts = ["x) AND y( or é ".toList, " BAND".toList] := hpieces.trans (by cbv)
  subst hcut
  obtain ⟨word, rfl⟩ : ∃ word, words = [word] := List.length_eq_one_iff.mp (by simpa using hlen)
  have hfirst : offsetOf andWord.length ["x) AND y( or é ".toList, " BAND".toList] 0 +
      size "x) AND y( or é ".toList = 16 := by cbv
  have hsecond : offsetOf andWord.length ["x) AND y( or é ".toList, " BAND".toList] 1 = 19 := by cbv
  exact ⟨hk, hsize, hparts, hfirst ▸ (hwords 0 _ word rfl rfl).2, hsecond ▸ hall 1 _ rfl⟩

end SignalEvolution.Formula

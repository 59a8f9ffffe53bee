import SignalEvolution.Proofs.Formula.Comparison
import SignalEvolution.Proofs.Text.Encoding

/-! # Cuts by byte offsets

A reader that works on the encoded text scans its bytes, counts levels in 32 bits and
slices parts out by offsets. It has no answer where an offset leaves the text or falls inside
a character, or where a level leaves its range. On texts of less than two gibibytes it always
answers, with the same parts that the scan of the characters finds.
-/
namespace SignalEvolution.Formula
open Text

/-- A level in its range. -/
def counted? (level : Int) : Option Int :=
  if -2147483648 ≤ level ∧ level ≤ 2147483647 then some level else none

def nestingByte (level : Int) (b : UInt8) : Int :=
  if b = 40 then level + 1 else if b = 41 then level - 1 else level

def isWordByte (b : UInt8) : Bool :=
  (48 ≤ b && b ≤ 57) || (65 ≤ b && b ≤ 90) || (97 ≤ b && b ≤ 122) || b == 95

def upperByte (b : UInt8) : UInt8 := if 97 ≤ b ∧ b ≤ 122 then b - 32 else b

/-- Whether a byte next to a keyword leaves it a word of its own. Nothing stands outside the text. -/
def apartAt? (text : List UInt8) (outside : Bool) (i : Nat) : Option Bool :=
  if outside then some true else text[i]?.map fun b => !isWordByte b

/-- Whether the keyword, in capitals, stands at an offset in any case, as a word of its own. -/
def keywordAt? (keyword text : List UInt8) (i : Nat) : Option Bool :=
  let stop := i + keyword.length
  if stop ≤ text.length ∧ ((text.drop i).take keyword.length).map upperByte = keyword then do
    let before ← apartAt? text (i == 0) (i - 1)
    let after ← apartAt? text (stop == text.length) stop
    return before && after
  else some false

/-- The loop over the bytes from offset `i` on; `start` is where the part begins that is under way.
It would not get on behind an empty keyword. -/
def partsFrom? (keyword : List UInt8) (cs : List Char) (i start : Nat) (level : Int) :
    Option (List (List Char)) :=
  if h : i < (bytes cs).length then do
    let level ← counted? (nestingByte level (bytes cs)[i])
    let found ← if level = 0 then keywordAt? keyword (bytes cs) i else some false
    if found then
      if hempty : keyword.length = 0 then none
      else do
        let part ← slice? cs start i
        let rest ← partsFrom? keyword cs (i + keyword.length) (i + keyword.length) level
        return part :: rest
    else partsFrom? keyword cs (i + 1) start level
  else (slice? cs start (size cs)).map fun part => [part]
termination_by (bytes cs).length - i

/-- The parts between the keywords at level zero. -/
def parts? (keyword cs : List Char) : Option (List (List Char)) := partsFrom? (bytes keyword) cs 0 0 0

variable {keyword cs ds front piece rest : List Char} {c : Char} {b : UInt8} {level : Int}

theorem counted?_eq (h : level.natAbs < Nat.pow 2 31) : counted? level = some level := by
  have hpow : Nat.pow 2 31 = 2147483648 := rfl
  rw [counted?, if_pos (by omega)]

theorem natAbs_nesting_le (level : Int) (c : Char) : (nesting level c).natAbs ≤ level.natAbs + c.utf8Size := by
  have hpos := c.utf8Size_pos
  unfold nesting
  split_ifs <;> omega

theorem byte_eq_iff (h : b ∈ String.utf8EncodeChar c) {a : UInt8} {d : Char} (ha : a.toNat = d.toNat)
    (hd : d.toNat < 128) : b = a ↔ c = d := by
  rw [← UInt8.toNat_inj, ← Char.toNat_inj]
  rcases toNat_byte h with ⟨_, _⟩ | ⟨_, _⟩ <;> omega

theorem nestingByte_eq (h : b ∈ String.utf8EncodeChar c) : nestingByte level b = nesting level c := by
  have hopen : b = 40 ↔ c = '(' := byte_eq_iff h rfl (by decide)
  have hclose : b = 41 ↔ c = ')' := byte_eq_iff h rfl (by decide)
  simp only [nestingByte, nesting, hopen, hclose]

theorem isWordByte_iff : isWordByte b = true ↔
    (48 ≤ b.toNat ∧ b.toNat ≤ 57) ∨ (65 ≤ b.toNat ∧ b.toNat ≤ 90) ∨ (97 ≤ b.toNat ∧ b.toNat ≤ 122) ∨
      b.toNat = 95 := by
  simp only [isWordByte, Bool.or_eq_true, Bool.and_eq_true, decide_eq_true_eq, beq_iff_eq,
    UInt8.le_iff_toNat_le, ← UInt8.toNat_inj, UInt8.reduceToNat]
  omega

theorem isWordByte_eq (h : b ∈ String.utf8EncodeChar c) : isWordByte b = isWordChar c := by
  rw [Bool.eq_iff_iff, isWordByte_iff, isWordChar_iff]
  rcases toNat_byte h with ⟨_, _⟩ | ⟨_, _⟩ <;> omega

theorem toNat_upperByte (b : UInt8) :
    (upperByte b).toNat = if 97 ≤ b.toNat ∧ b.toNat ≤ 122 then b.toNat - 32 else b.toNat := by
  simp only [upperByte, UInt8.le_iff_toNat_le, UInt8.reduceToNat]
  split
  · next h => exact UInt8.toNat_sub_of_le b 32 (UInt8.le_iff_toNat_le.mpr (Nat.le_trans (by decide) h.1))
  · rfl

/-- The bytes of a text begin with a keyword exactly where its characters do. -/
theorem take_bytes_iff (hk : ∀ k ∈ keyword, k.toNat < 128) (cs : List Char) :
    ((bytes cs).take keyword.length).map upperByte = bytes keyword ↔ upper (cs.take keyword.length) = keyword := by
  induction keyword generalizing cs with
  | nil => simp [upper]
  | cons k keyword ih =>
    obtain ⟨hk0, hk⟩ := List.forall_mem_cons.mp hk
    have hkey : bytes (k :: keyword) = UInt8.ofNat k.toNat :: bytes keyword := by
      rw [bytes_cons, encode_ascii hk0]
      rfl
    have hbyte : (UInt8.ofNat k.toNat).toNat = k.toNat := by
      rw [UInt8.toNat_ofNat']
      omega
    rw [hkey]
    cases cs with
    | nil => simp [upper]
    | cons c cs =>
      by_cases hc : c.toNat < 128
      · have hhead : upperByte (UInt8.ofNat c.toNat) = UInt8.ofNat k.toNat ↔ c.toUpper = k := by
          rw [← UInt8.toNat_inj, ← Char.toNat_inj, toNat_upperByte, toNat_toUpper, hbyte, UInt8.toNat_ofNat']
          split_ifs <;> omega
        have htail := ih hk cs
        simp only [upper] at htail
        rw [bytes_cons, encode_ascii hc]
        simp only [List.length_cons, List.singleton_append, List.take_succ_cons, List.map_cons, upper,
          List.cons.injEq, hhead, htail]
      · -- No byte of the first character is a letter.
        obtain ⟨b, tail, hencode⟩ := exists_encode c
        have hb : b ∈ String.utf8EncodeChar c := by
          rw [hencode]
          exact List.mem_cons_self
        have hhead : upperByte b ≠ UInt8.ofNat k.toNat := by
          rw [Ne, ← UInt8.toNat_inj, toNat_upperByte, hbyte]
          rcases toNat_byte hb with ⟨_, _⟩ | ⟨_, _⟩ <;> split_ifs <;> omega
        have hchar : c.toUpper ≠ k := by
          rw [Ne, ← Char.toNat_inj, toNat_toUpper]
          split_ifs <;> omega
        rw [bytes_cons, hencode]
        simp only [List.length_cons, List.cons_append, List.take_succ_cons, List.map_cons, upper, List.cons.injEq,
          hhead, hchar, false_and]

theorem apartAt?_before (front rest : List Char) :
    apartAt? (bytes (front ++ rest)) (size front == 0) (size front - 1) =
      some (!front.getLast?.any isWordChar) := by
  rcases List.eq_nil_or_concat front with rfl | ⟨front, c, rfl⟩
  · rfl
  · have hpos := c.utf8Size_pos
    obtain ⟨b, hb, hbyte⟩ := getElem?_bytes_pred front c rest
    have hsize : size (front ++ [c]) = size front + c.utf8Size := by simp
    have hinside : (size (front ++ [c]) == 0) = false := by
      rw [beq_eq_false_iff_ne]
      omega
    rw [List.concat_eq_append, apartAt?, hinside, hsize, List.append_assoc, List.singleton_append, hbyte,
      List.getLast?_concat, Option.any_some, ← isWordByte_eq hb]
    rfl

theorem apartAt?_after (front rest : List Char) :
    apartAt? (bytes (front ++ rest)) (size front == (bytes (front ++ rest)).length) (size front) =
      some (!rest.head?.any isWordChar) := by
  rw [length_bytes, size_append]
  cases rest with
  | nil => simp [apartAt?]
  | cons c rest =>
    have hpos := c.utf8Size_pos
    obtain ⟨b, hb, hbyte⟩ := getElem?_bytes front c rest
    have hinside : (size front == size front + size (c :: rest)) = false := by
      rw [beq_eq_false_iff_ne, size_cons]
      omega
    rw [apartAt?, hinside, hbyte, List.head?_cons, Option.any_some, ← isWordByte_eq hb]
    rfl

theorem IsKeyword.toNat_lt (hk : IsKeyword keyword) : ∀ k ∈ keyword, k.toNat < 128 := by
  intro k hmem
  have hle := toNat_of_isWordChar (hk.wordChars k hmem)
  omega

theorem IsKeyword.size_eq (hk : IsKeyword keyword) : size keyword = keyword.length := size_ascii hk.toNat_lt

theorem IsKeyword.size_of_upper {word : List Char} (hk : IsKeyword keyword) (h : upper word = keyword) :
    size word = keyword.length := by
  have hascii : ∀ c ∈ word, c.toNat < 128 := by
    intro c hc
    have hupper : isWordChar c.toUpper = true := hk.wordChars _ (h ▸ List.mem_map_of_mem hc)
    have hle := toNat_of_isWordChar (isWordChar_toUpper c ▸ hupper)
    omega
  rw [size_ascii hascii, ← h, upper, List.length_map]

theorem keywordAt?_eq (hk : IsKeyword keyword) (front rest : List Char) :
    keywordAt? (bytes keyword) (bytes (front ++ rest)) (size front) =
      some (startsWord keyword front.getLast? rest) := by
  have hlen : (bytes keyword).length = keyword.length := by rw [length_bytes, hk.size_eq]
  have hdrop : (bytes (front ++ rest)).drop (size front) = bytes rest := by
    rw [bytes_append, ← length_bytes front, List.drop_left]
  have hiff := take_bytes_iff hk.toNat_lt rest
  simp only [keywordAt?, hlen, hdrop]
  by_cases hword : upper (rest.take keyword.length) = keyword
  · -- The text goes on behind the word, which has as many bytes as the keyword.
    have hsize := hk.size_of_upper hword
    have hsplit : front ++ rest = (front ++ rest.take keyword.length) ++ rest.drop keyword.length := by
      rw [List.append_assoc, List.take_append_drop]
    have hstop : size front + keyword.length = size (front ++ rest.take keyword.length) := by
      rw [size_append, hsize]
    have hfits : size front + keyword.length ≤ (bytes (front ++ rest)).length := by
      rw [hsplit, hstop, length_bytes, size_append (front ++ _)]
      exact Nat.le_add_right _ _
    have hafter := apartAt?_after (front ++ rest.take keyword.length) (rest.drop keyword.length)
    rw [← hsplit, ← hstop] at hafter
    rw [if_pos ⟨hfits, hiff.mpr hword⟩, apartAt?_before, hafter, startsWord, hword]
    simp
  · rw [if_neg fun h => hword (hiff.mp h.2), startsWord, beq_eq_false_iff_ne.mpr hword]
    simp

/-- Inside a character no keyword begins. -/
theorem keywordAt?_high (hk : IsKeyword keyword) {text : List UInt8} {i : Nat} (hi : text[i]? = some b)
    (hb : 128 ≤ b.toNat) : keywordAt? (bytes keyword) text i = some false := by
  obtain ⟨k, keyword, rfl⟩ := List.exists_cons_of_ne_nil hk.ne_nil
  have hle := toNat_of_isWordChar (hk.wordChars k List.mem_cons_self)
  obtain ⟨hlt, hget⟩ := List.getElem?_eq_some_iff.mp hi
  rw [keywordAt?, if_neg]
  rintro ⟨_, hword⟩
  rw [List.drop_eq_getElem_cons hlt, hget, bytes_cons, encode_ascii (by omega)] at hword
  simp only [List.singleton_append, List.length_cons, List.take_succ_cons, List.map_cons, List.cons.injEq,
    ← UInt8.toNat_inj, toNat_upperByte, UInt8.toNat_ofNat'] at hword
  split_ifs at hword <;> omega

variable {start : Nat}

/-- The loop goes on behind a byte at which no keyword begins. -/
theorem partsFrom?_byte {word : List UInt8} {i : Nat} (hi : (bytes cs)[i]? = some b)
    (hlevel : (nestingByte level b).natAbs < Nat.pow 2 31)
    (hmiss : nestingByte level b = 0 → keywordAt? word (bytes cs) i = some false) :
    partsFrom? word cs i start level = partsFrom? word cs (i + 1) start (nestingByte level b) := by
  obtain ⟨hlt, rfl⟩ := List.getElem?_eq_some_iff.mp hi
  have hcounted := counted?_eq hlevel
  rw [partsFrom?, dif_pos hlt]
  simp only [hcounted, Option.bind_eq_bind, Option.bind_some]
  split
  · next hzero => simp only [hmiss hzero, Option.bind_some, if_false, Bool.false_eq_true]
  · rfl

theorem partsFrom?_high (hk : IsKeyword keyword) (start : Nat) (hlevel : level.natAbs < Nat.pow 2 31)
    {high : List UInt8} (hhigh : ∀ b ∈ high, 128 ≤ b.toNat) (before after : List UInt8)
    (hcs : bytes cs = before ++ high ++ after) :
    partsFrom? (bytes keyword) cs before.length start level =
      partsFrom? (bytes keyword) cs (before.length + high.length) start level := by
  induction high generalizing before with
  | nil => rfl
  | cons b high ih =>
    obtain ⟨hb, hhigh⟩ := List.forall_mem_cons.mp hhigh
    have hi : (bytes cs)[before.length]? = some b := by simp [hcs]
    have hnesting : nestingByte level b = level := by
      rw [nestingByte, if_neg, if_neg]
      · rintro rfl
        exact absurd hb (by decide)
      · rintro rfl
        exact absurd hb (by decide)
    have hnext := ih hhigh (before ++ [b]) (by simp [hcs])
    rw [partsFrom?_byte hi (by rwa [hnesting]) fun _ => keywordAt?_high hk hi hb, hnesting]
    simpa [Nat.add_assoc, Nat.add_comm, Nat.add_left_comm] using hnext

theorem partsFrom?_char (hk : IsKeyword keyword) (start : Nat) (front : List Char) (c : Char) (rest : List Char)
    (hlevel : level.natAbs + c.utf8Size < Nat.pow 2 31)
    (hmiss : nesting level c = 0 → startsWord keyword front.getLast? (c :: rest) = false) :
    partsFrom? (bytes keyword) (front ++ c :: rest) (size front) start level =
      partsFrom? (bytes keyword) (front ++ c :: rest) (size front + c.utf8Size) start (nesting level c) := by
  obtain ⟨b, tail, hencode⟩ := exists_encode c
  have hb : b ∈ String.utf8EncodeChar c := by
    rw [hencode]
    exact List.mem_cons_self
  have hbytes : bytes (front ++ c :: rest) = bytes front ++ [b] ++ tail ++ bytes rest := by
    simp [hencode]
  have hi : (bytes (front ++ c :: rest))[size front]? = some b := by
    rw [hbytes, ← length_bytes]
    simp
  have hlen : tail.length + 1 = c.utf8Size := by
    rw [← String.length_utf8EncodeChar, hencode, List.length_cons]
  have hnesting : nestingByte level b = nesting level c := nestingByte_eq hb
  have hnatAbs := natAbs_nesting_le level c
  have hskip := partsFrom?_high hk start (by omega : (nesting level c).natAbs < Nat.pow 2 31)
    (le_of_mem_tail hencode) (bytes front ++ [b]) (bytes rest) hbytes
  rw [partsFrom?_byte hi (by rw [hnesting]; omega), hnesting]
  · rw [List.length_append, length_bytes, List.length_singleton] at hskip
    rw [hskip]
    congr 1
    omega
  · intro hzero
    rw [keywordAt?_eq hk, hmiss (hnesting ▸ hzero)]

theorem partsFrom?_word (hk : IsKeyword keyword) {done piece word after : List Char}
    (hs : Separates keyword (done ++ piece) word after) :
    partsFrom? (bytes keyword) (done ++ piece ++ (word ++ after)) (size (done ++ piece)) (size done) 0 =
      (partsFrom? (bytes keyword) (done ++ piece ++ (word ++ after)) (size (done ++ piece ++ word))
        (size (done ++ piece ++ word)) 0).map fun rest => piece :: rest := by
  have hword : size word = size keyword := by rw [hk.size_of_upper hs.spelled, hk.size_eq]
  have hstart := startsWord_iff.mpr ⟨word, after, rfl, hs⟩
  have hfound := keywordAt?_eq hk (done ++ piece) (word ++ after)
  have hpart := slice?_append done piece (word ++ after)
  have hnext : size (done ++ piece) + (bytes keyword).length = size (done ++ piece ++ word) := by
    rw [size_append (done ++ piece), length_bytes, hword]
  obtain ⟨c, tail, rfl⟩ := List.exists_cons_of_ne_nil (hs.ne_nil hk)
  obtain ⟨hopen, hclose⟩ := ne_paren_of_isWordChar (hs.wordChars hk c List.mem_cons_self)
  obtain ⟨b, hb, hi⟩ := getElem?_bytes (done ++ piece) c (tail ++ after)
  have hlevel : nestingByte 0 b = 0 := by rw [nestingByte_eq hb, nesting_eq, weight_other hopen hclose]; rfl
  have hcounted : counted? 0 = some 0 := counted?_eq (by decide)
  have hnonempty : (bytes keyword).length ≠ 0 := by
    rw [length_bytes, Ne, size_eq_zero_iff]
    exact hk.ne_nil
  rw [List.cons_append] at hfound hstart hpart ⊢
  obtain ⟨hlt, rfl⟩ := List.getElem?_eq_some_iff.mp hi
  rw [partsFrom?, dif_pos hlt]
  simp only [hlevel, hcounted, hfound, hstart, hnonempty, hpart, hnext, Option.bind_eq_bind, Option.bind_some,
    if_true, dite_false]
  exact Option.map_eq_bind.symm

theorem partsFrom?_eq (hk : IsKeyword keyword) (done piece rest : List Char)
    (level : Int) (hlevel : level.natAbs + size rest < Nat.pow 2 31) :
    partsFrom? (bytes keyword) (done ++ piece ++ rest) (size (done ++ piece)) (size done) level =
      some (piece.foldr consFirst (piecesFrom keyword 0 level (done ++ piece).getLast? rest)) := by
  -- A part ends at a keyword, and the text behind the keyword is shorter.
  induction hn : rest.length using Nat.strong_induction_on generalizing done piece rest level with
  | h n ih =>
    cases rest with
    | nil =>
      have hpart := slice?_append done piece []
      rw [List.append_nil] at hpart ⊢
      have hend : ¬ size (done ++ piece) < (bytes (done ++ piece)).length := Nat.lt_irrefl _
      rw [partsFrom?, dif_neg hend, piecesFrom, foldr_consFirst, List.append_nil, hpart, Option.map_some]
    | cons c rest =>
      rw [size_cons] at hlevel
      have hnatAbs := natAbs_nesting_le level c
      have hpos := c.utf8Size_pos
      by_cases hfound : nesting level c = 0 ∧ startsWord keyword (done ++ piece).getLast? (c :: rest) = true
      · obtain ⟨hzero, hstart⟩ := hfound
        obtain ⟨word, after, hword, hs⟩ := startsWord_iff.mp hstart
        obtain ⟨d, tail, rfl⟩ := List.exists_cons_of_ne_nil (hs.ne_nil hk)
        obtain ⟨hopen, hclose⟩ := ne_paren_of_isWordChar (hs.wordChars hk d List.mem_cons_self)
        rw [List.cons_append] at hword
        obtain ⟨rfl, rfl⟩ := List.cons.inj hword
        obtain rfl : level = 0 := by rwa [nesting_eq, weight_other hopen hclose, Int.add_zero] at hzero
        have hlen : keyword.length - 1 = tail.length := by rw [← hs.length_eq]; rfl
        have hshort : after.length < n := by
          rw [← hn, List.length_cons, List.length_append]
          omega
        rw [size_append] at hlevel
        have hafter := ih after.length hshort (done ++ piece ++ c :: tail) [] after 0 (by omega) rfl
        have hlast : (done ++ piece ++ c :: tail).getLast? = tail.getLast?.or (some c) := by
          cases tail <;> simp [List.getLast?_cons]
        rw [List.append_nil, List.append_assoc, List.foldr_nil, hlast] at hafter
        have hstep := partsFrom?_word hk hs
        rw [hafter, List.cons_append, Option.map_some] at hstep
        rw [hstep, piecesFrom, if_pos ⟨hzero, hstart⟩, hzero, hlen, piecesFrom_skip, foldr_consFirst,
          List.append_nil]
      · have hmiss : nesting level c = 0 → startsWord keyword (done ++ piece).getLast? (c :: rest) = false :=
          fun hzero => Bool.eq_false_iff.mpr fun hstart => hfound ⟨hzero, hstart⟩
        have hstep := partsFrom?_char hk (size done) (done ++ piece) c rest (by omega) hmiss
        have hshort : rest.length < n := by
          rw [← hn]
          exact Nat.lt_succ_self _
        have hrest := ih rest.length hshort done (piece ++ [c]) rest (nesting level c) (by omega) rfl
        rw [hstep, piecesFrom, if_neg hfound]
        simpa [Nat.add_assoc] using hrest

theorem parts?_eq (hk : IsKeyword keyword) (h : size cs < Nat.pow 2 31) :
    parts? keyword cs = some (pieces keyword cs) :=
  partsFrom?_eq hk [] [] cs 0 (by simpa using h)

end SignalEvolution.Formula

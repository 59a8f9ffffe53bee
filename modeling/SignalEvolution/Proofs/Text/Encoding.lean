import Mathlib.Data.List.Basic
import SignalEvolution.Text.Blank

/-! # Texts as bytes

A text is encoded in UTF-8, and its parts are cut out by byte offsets. Such a cut
succeeds only where both offsets lie in the text, in order, and between two characters.
-/
namespace SignalEvolution.Text

/-- The encoding of a text. -/
def bytes (cs : List Char) : List UInt8 := cs.flatMap String.utf8EncodeChar

/-- Number of bytes of a text. -/
def size (cs : List Char) : Nat := (bytes cs).length

/-- Cuts a text in two at a byte offset; none past the end or inside a character. -/
def splitAt? : List Char → Nat → Option (List Char × List Char)
  | cs, 0 => some ([], cs)
  | [], _ + 1 => none
  | c :: rest, n + 1 =>
    if c.utf8Size ≤ n + 1 then
      (splitAt? rest (n + 1 - c.utf8Size)).map fun (front, back) => (c :: front, back)
    else none

/-- The part of a text from one byte offset to another. -/
def slice? (cs : List Char) (start stop : Nat) : Option (List Char) := do
  let (upTo, _) ← splitAt? cs stop
  let (_, part) ← splitAt? upTo start
  return part

variable {cs ds front back part : List Char} {c : Char} {b : UInt8} {n start stop : Nat}

@[simp] theorem bytes_nil : bytes [] = [] := rfl

@[simp] theorem bytes_cons (c : Char) (cs : List Char) :
    bytes (c :: cs) = String.utf8EncodeChar c ++ bytes cs := rfl

@[simp] theorem bytes_append (cs ds : List Char) : bytes (cs ++ ds) = bytes cs ++ bytes ds :=
  List.flatMap_append

theorem length_bytes (cs : List Char) : (bytes cs).length = size cs := rfl

@[simp] theorem size_nil : size [] = 0 := rfl

@[simp] theorem size_cons (c : Char) (cs : List Char) : size (c :: cs) = c.utf8Size + size cs := by
  rw [size, bytes_cons, List.length_append, String.length_utf8EncodeChar, length_bytes]

@[simp] theorem size_append (cs ds : List Char) : size (cs ++ ds) = size cs + size ds := by
  rw [size, bytes_append, List.length_append, length_bytes, length_bytes]

theorem size_toList (s : String) : size s.toList = s.utf8ByteSize := by
  rw [← String.size_toByteArray, ← String.utf8Encode_toList, List.utf8Encode, List.size_toByteArray]
  rfl

theorem size_add_length_le (h : cs.Sublist ds) : size cs + ds.length ≤ size ds + cs.length := by
  induction h with
  | slnil => exact Nat.le_refl _
  | cons c _ ih =>
    have hpos := c.utf8Size_pos
    rw [size_cons, List.length_cons]
    omega
  | cons_cons c _ ih =>
    rw [size_cons, size_cons, List.length_cons, List.length_cons]
    omega

theorem size_le_of_sublist (h : cs.Sublist ds) : size cs ≤ size ds := by
  have hle := size_add_length_le h
  have hlen := h.length_le
  omega

theorem size_eq_zero_iff : size cs = 0 ↔ cs = [] := by
  cases cs with
  | nil => simp
  | cons c cs =>
    have hpos := c.utf8Size_pos
    rw [size_cons]
    simp only [List.cons_ne_nil, iff_false]
    omega

/-- Of two beginnings of a text the one with fewer bytes begins the other. -/
theorem exists_of_size_le (h : front ++ cs = back ++ ds) (hle : size front ≤ size back) :
    ∃ mid, back = front ++ mid ∧ cs = mid ++ ds := by
  rcases List.append_eq_append_iff.mp h with ⟨mid, hback, hcs⟩ | ⟨mid, rfl, rfl⟩
  · exact ⟨mid, hback, hcs⟩
  · rw [size_append] at hle
    obtain rfl := size_eq_zero_iff.mp (by omega : size mid = 0)
    exact ⟨[], by simp, by simp⟩

theorem utf8Size_ascii (h : c.toNat < 128) : c.utf8Size = 1 := by
  rw [Char.utf8Size_eq_one_iff, UInt32.le_iff_toNat_le]
  exact Nat.le_of_lt_succ h

theorem size_ascii (h : ∀ c ∈ cs, c.toNat < 128) : size cs = cs.length := by
  induction cs with
  | nil => rfl
  | cons c cs ih =>
    obtain ⟨hc, hcs⟩ := List.forall_mem_cons.mp h
    rw [size_cons, utf8Size_ascii hc, ih hcs, List.length_cons]
    omega

theorem toNat_byte (h : b ∈ String.utf8EncodeChar c) :
    (c.toNat < 128 ∧ b.toNat = c.toNat) ∨ (128 ≤ c.toNat ∧ 128 ≤ b.toNat) := by
  have hval : c.val.toNat = c.toNat := rfl
  unfold String.utf8EncodeChar at h
  simp only [hval] at h
  split at h
  · obtain rfl := List.mem_singleton.mp h
    left
    rw [UInt8.toNat_ofNat']
    omega
  · right
    refine ⟨by omega, ?_⟩
    split_ifs at h <;>
      · simp only [List.mem_cons, List.not_mem_nil, or_false] at h
        rcases h with rfl | rfl | rfl | rfl <;> rw [UInt8.toNat_ofNat'] <;> omega

theorem encode_ascii (h : c.toNat < 128) : String.utf8EncodeChar c = [UInt8.ofNat c.toNat] := by
  have hval : c.val.toNat = c.toNat := rfl
  unfold String.utf8EncodeChar
  simp only [hval]
  rw [if_pos (by omega)]

theorem exists_encode (c : Char) : ∃ b tail, String.utf8EncodeChar c = b :: tail := by
  apply List.exists_cons_of_ne_nil
  rw [← List.length_pos_iff, String.length_utf8EncodeChar]
  exact c.utf8Size_pos

/-- Behind the first byte of a character all of its bytes are outside ASCII. -/
theorem le_of_mem_tail {tail : List UInt8} (h : String.utf8EncodeChar c = b :: tail) :
    ∀ x ∈ tail, 128 ≤ x.toNat := by
  intro x hx
  rcases toNat_byte (h ▸ List.mem_cons_of_mem b hx) with ⟨hc, _⟩ | ⟨_, hx⟩
  · simp_all [encode_ascii hc]
  · exact hx

/-- The byte at the beginning of a character is one of its bytes. -/
theorem getElem?_bytes (front : List Char) (c : Char) (back : List Char) :
    ∃ b ∈ String.utf8EncodeChar c, (bytes (front ++ c :: back))[size front]? = some b := by
  obtain ⟨b, tail, hb⟩ := exists_encode c
  refine ⟨b, by rw [hb]; exact List.mem_cons_self, ?_⟩
  rw [bytes_append, ← length_bytes front, List.getElem?_append_right (Nat.le_refl _), Nat.sub_self, bytes_cons,
    hb]
  rfl

/-- So is the byte before the end of a character. -/
theorem getElem?_bytes_pred (front : List Char) (c : Char) (back : List Char) :
    ∃ b ∈ String.utf8EncodeChar c, (bytes (front ++ c :: back))[size front + c.utf8Size - 1]? = some b := by
  have hpos := c.utf8Size_pos
  have hlt : c.utf8Size - 1 < (String.utf8EncodeChar c).length := by
    rw [String.length_utf8EncodeChar]
    omega
  have hindex : size front + c.utf8Size - 1 - size front = c.utf8Size - 1 := by omega
  refine ⟨_, List.getElem_mem hlt, ?_⟩
  rw [bytes_append, List.getElem?_append_right (by rw [length_bytes]; omega), length_bytes, hindex, bytes_cons,
    List.getElem?_append_left hlt, List.getElem?_eq_getElem hlt]

/-- An offset in a text lies between two characters or at a byte inside of one. -/
theorem boundary_or_inside (h : n ≤ size cs) : (∃ front back, cs = front ++ back ∧ size front = n) ∨
    ∃ b, (bytes cs)[n]? = some b ∧ 128 ≤ b.toNat := by
  induction cs generalizing n with
  | nil => exact .inl ⟨[], [], rfl, (Nat.le_zero.mp h).symm⟩
  | cons c cs ih =>
    rw [size_cons] at h
    have hlen := String.length_utf8EncodeChar c
    rcases Nat.lt_or_ge n c.utf8Size with hlt | hge
    · cases n with
      | zero => exact .inl ⟨[], c :: cs, rfl, rfl⟩
      | succ n =>
        obtain ⟨b, tail, hencode⟩ := exists_encode c
        rw [hencode, List.length_cons] at hlen
        have hn : n < tail.length := by omega
        refine .inr ⟨tail[n], ?_, le_of_mem_tail hencode _ (List.getElem_mem hn)⟩
        rw [bytes_cons, hencode, List.cons_append, List.getElem?_cons_succ, List.getElem?_append_left hn,
          List.getElem?_eq_getElem hn]
    · rcases ih (n := n - c.utf8Size) (by omega) with ⟨front, back, rfl, hfront⟩ | ⟨b, hb, hhigh⟩
      · exact .inl ⟨c :: front, back, rfl, by rw [size_cons]; omega⟩
      · exact .inr ⟨b, by rwa [bytes_cons, List.getElem?_append_right (by omega), hlen], hhigh⟩

theorem splitAt?_append (front back : List Char) :
    splitAt? (front ++ back) (size front) = some (front, back) := by
  induction front with
  | nil => cases back <;> rfl
  | cons c front ih =>
    have hpos := c.utf8Size_pos
    obtain ⟨n, hn⟩ : ∃ n, size (c :: front) = n + 1 := ⟨size (c :: front) - 1, by rw [size_cons]; omega⟩
    have hrest : n + 1 - c.utf8Size = size front := by
      rw [← hn, size_cons]
      omega
    rw [List.cons_append, hn, splitAt?, if_pos (by rw [← hn, size_cons]; omega), hrest, ih]
    rfl

theorem splitAt?_eq_some_iff : splitAt? cs n = some (front, back) ↔ cs = front ++ back ∧ size front = n := by
  constructor
  · intro h
    fun_induction splitAt? cs n generalizing front with
    | case1 cs =>
      obtain ⟨rfl, rfl⟩ := Prod.mk.inj (Option.some.inj h)
      exact ⟨rfl, rfl⟩
    | case2 => cases h
    | case3 c rest n hle ih =>
      obtain ⟨⟨front, back⟩, hsplit, heq⟩ := Option.map_eq_some_iff.mp h
      obtain ⟨rfl, rfl⟩ := Prod.mk.inj heq
      obtain ⟨rfl, hsize⟩ := ih hsplit
      refine ⟨rfl, ?_⟩
      rw [size_cons]
      omega
    | case4 => cases h
  · rintro ⟨rfl, rfl⟩
    exact splitAt?_append front back

/-- A part is cut out exactly where the offsets are the ends of a run of characters. -/
theorem slice?_eq_some_iff : slice? cs start stop = some part ↔
    ∃ front back, cs = front ++ part ++ back ∧ size front = start ∧ size (front ++ part) = stop := by
  constructor
  · intro h
    obtain ⟨⟨upTo, back⟩, hstop, h⟩ := Option.bind_eq_some_iff.mp h
    obtain ⟨⟨front, part'⟩, hstart, h⟩ := Option.bind_eq_some_iff.mp h
    obtain rfl := Option.some.inj h
    obtain ⟨rfl, hsize⟩ := splitAt?_eq_some_iff.mp hstop
    obtain ⟨rfl, hfront⟩ := splitAt?_eq_some_iff.mp hstart
    exact ⟨front, back, rfl, hfront, hsize⟩
  · rintro ⟨front, back, rfl, rfl, rfl⟩
    have hstop := splitAt?_append (front ++ part) back
    have hstart := splitAt?_append front part
    simp only [slice?, hstop, hstart, Option.bind_eq_bind, Option.bind_some]
    rfl

theorem slice?_append (front part back : List Char) :
    slice? (front ++ part ++ back) (size front) (size (front ++ part)) = some part :=
  slice?_eq_some_iff.mpr ⟨front, back, rfl, rfl, rfl⟩

theorem length_slice?_lt (h : slice? cs start stop = some part) (hstart : 0 < start) : part.length < cs.length := by
  obtain ⟨front, back, rfl, rfl, _⟩ := slice?_eq_some_iff.mp h
  have hfront : front ≠ [] := by
    rintro rfl
    exact absurd hstart (Nat.lt_irrefl 0)
  have hpos := List.length_pos_iff.mpr hfront
  rw [List.length_append, List.length_append]
  omega

end SignalEvolution.Text

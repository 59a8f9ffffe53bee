import SignalEvolution.Arithmetic.Binary
import SignalEvolution.Proofs.Arithmetic.Rounding

/-! # Bits of binary64 numbers

A canonical number keeps its sign, significand and exponent when it is packed into
bits, and the bits of a finite number show those of a canonical one.
-/
namespace SignalEvolution.Binary
open Float.Model Float.Model.UnpackedFloat

variable {m : Nat} {q : Int} {s : Sign} {x y : Float}

theorem toNat_append_eq {i j : Nat} (b : BitVec i) (c : BitVec j) :
    (b ++ c).toNat = b.toNat * 2 ^ j + c.toNat := by
  rw [BitVec.toNat_append, ← Nat.shiftLeft_add_eq_or_of_lt c.isLt, Nat.shiftLeft_eq]

theorem toNat_unpackSign (b : BitVec 64) : (@unpackSign Format.binary64 b).toNat = b.toNat / 2 ^ 63 := by
  have hb := b.isLt
  rw [unpackSign, BitVec.toNat_cast, BitVec.extractLsb_toNat, Nat.shiftRight_eq_div_pow]
  change b.toNat / 2 ^ 63 % 2 ^ 1 = _
  omega

theorem toNat_unpackExponent (b : BitVec 64) :
    (@unpackExponent Format.binary64 b).toNat = b.toNat / 2 ^ 52 % 2 ^ 11 := by
  rw [unpackExponent, BitVec.toNat_cast, BitVec.extractLsb_toNat, Nat.shiftRight_eq_div_pow]
  rfl

theorem toNat_unpackMantissa (b : BitVec 64) :
    (@unpackMantissa Format.binary64 b).toNat = b.toNat % 2 ^ 52 := by
  rw [unpackMantissa, BitVec.toNat_cast, BitVec.extractLsb_toNat]
  rfl

/-- What unpacking finds in three fields. -/
def ofFields (s : Sign) (e : BitVec 11) (f : BitVec 52) : UnpackedFloat :=
  if e = -1#11 then if f = 0#52 then .infinity s else .notANumber
  else if e = 0#11 then
    if h : f = 0#52 then .zero s
    else .finite s f.toNat (-1074) (by simpa [BitVec.toNat_pos, BitVec.pos_iff_ne_zero] using h)
  else .finite s (2 ^ 52 + f.toNat) (e.toNat - 1075) (by omega)

theorem unpack_eq (b : BitVec 64) : UnpackedFloat.unpack Format.binary64 b =
    ofFields (Sign.ofBitVec (@unpackSign Format.binary64 b)) (@unpackExponent Format.binary64 b)
      (@unpackMantissa Format.binary64 b) := by
  by_cases hall : @unpackExponent Format.binary64 b = -1#11
  · simp only [UnpackedFloat.unpack, ofFields, hall, if_true]
  by_cases hzero : @unpackExponent Format.binary64 b = 0#11
  · have hall' : ¬ 0#11 = -1#11 := by decide
    simp only [UnpackedFloat.unpack, ofFields, hzero, hall', if_true, if_false]
    rfl
  · have h := toNat_append_eq 1#1 (@unpackMantissa Format.binary64 b)
    simp only [UnpackedFloat.unpack, ofFields, hall, hzero, if_false]
    congr 1

theorem unpack_packComponents (s : Sign) (e : BitVec 11) (f : BitVec 52) :
    UnpackedFloat.unpack Format.binary64 (packComponents Format.binary64 s e f) = ofFields s e f := by
  have he : @unpackExponent Format.binary64 (packComponents Format.binary64 s e f) = e :=
    unpackExponent_packComponents
  have hf : @unpackMantissa Format.binary64 (packComponents Format.binary64 s e f) = f :=
    unpackMantissa_packComponents
  rw [unpack_eq, unpackSign_packComponents, Sign.ofBitVec_toBitVec, he, hf]

theorem ofFields_normal {e : BitVec 11} {f : BitVec 52} (hpos : 0 < e.toNat) (hlt : e.toNat < 2047) :
    ofFields s e f = .finite s (2 ^ 52 + f.toNat) (e.toNat - 1075) (by omega) := by
  have hall : e ≠ -1#11 := by
    rintro rfl
    exact absurd hlt (by decide)
  have hzero : e ≠ 0#11 := by
    rintro rfl
    exact absurd hpos (by decide)
  rw [ofFields, if_neg hall, if_neg hzero]

theorem ofFields_subnormal {f : BitVec 52} (hpos : 0 < f.toNat) :
    ofFields s 0#11 f = .finite s f.toNat (-1074) hpos := by
  have hzero : f ≠ 0#52 := by
    rintro rfl
    exact absurd hpos (by decide)
  rw [ofFields, if_neg (by decide), if_pos rfl, dif_neg hzero]

/-- A canonical number is not changed by packing. -/
theorem unpack_pack (hc : Canonical m q) (s : Sign) :
    (Float.Model.pack (.finite s m q hc.pos)).unpack = .finite s m q hc.pos := by
  have hleast := hc.least
  have hgreatest := hc.greatest
  have hlt := hc.lt
  have hpos := Nat.ne_of_gt hc.pos
  have hfits : ¬ 2 ^ 11 ≤ (q + 1023 + 52).toNat + 1 := by omega
  change UnpackedFloat.unpack Format.binary64 (UnpackedFloat.pack Format.binary64 _) = _
  by_cases hfull : 2 ^ 52 ≤ m
  · have hlog : m.log2 + 1 = 53 := by
      rw [(Nat.log2_eq_iff hpos).mpr ⟨hfull, hlt⟩]
    have hpack : UnpackedFloat.pack Format.binary64 (.finite s m q hc.pos) =
        packComponents Format.binary64 s (BitVec.ofNat 11 (q + 1023 + 52).toNat) (BitVec.ofNat 52 m) := by
      rw [UnpackedFloat.pack]
      exact (if_neg hfits).trans (if_pos hlog)
    have he : (BitVec.ofNat 11 (q + 1023 + 52).toNat).toNat = (q + 1023 + 52).toNat := by
      rw [BitVec.toNat_ofNat]
      omega
    have hf : (BitVec.ofNat 52 m).toNat = m - 2 ^ 52 := by
      rw [BitVec.toNat_ofNat]
      omega
    rw [hpack, unpack_packComponents, ofFields_normal (by omega) (by omega)]
    congr 1 <;> omega
  · obtain rfl : q = -1074 := hc.full.resolve_left hfull
    have hlog : ¬ m.log2 + 1 = 53 := by
      have h52 : m.log2 < 52 := (Nat.log2_lt hpos).mpr (by omega)
      omega
    have hpack : UnpackedFloat.pack Format.binary64 (.finite s m (-1074) hc.pos) =
        packComponents Format.binary64 s 0#11 (BitVec.ofNat 52 m) := by
      rw [UnpackedFloat.pack]
      exact (if_neg hfits).trans (if_neg hlog)
    have hf : (BitVec.ofNat 52 m).toNat = m := by
      rw [BitVec.toNat_ofNat]
      omega
    rw [hpack, unpack_packComponents, ofFields_subnormal (by rw [hf]; exact hc.pos)]
    congr 1

theorem unpack_pack_zero (s : Sign) : (Float.Model.pack (.zero s)).unpack = .zero s :=
  unpack_packComponents s 0#11 0#52

theorem fraction_eq (x : Float) :
    fraction x = (@unpackMantissa Format.binary64 x.toBits.toBitVec).toNat := by
  have h := Nat.and_two_pow_sub_one_eq_mod x.toBits.toNat 52
  rw [toNat_unpackMantissa, fraction, UInt64.toNat_and]
  exact h

theorem biasedExponent_eq (x : Float) :
    biasedExponent x = (@unpackExponent Format.binary64 x.toBits.toBitVec).toNat := by
  have h := Nat.and_two_pow_sub_one_eq_mod (x.toBits.toNat / 2 ^ 52) 11
  rw [toNat_unpackExponent, biasedExponent, UInt64.toNat_and, UInt64.toNat_shiftRight,
    Nat.shiftRight_eq_div_pow]
  exact h

theorem isNegative_iff (x : Float) :
    isNegative x = true ↔ Sign.ofBitVec (@unpackSign Format.binary64 x.toBits.toBitVec) = .negative := by
  have hb := x.toBits.toBitVec.isLt
  have hbit : isNegative x = true ↔ x.toBits.toNat / 2 ^ 63 = 1 := by
    rw [isNegative, beq_iff_eq, ← UInt64.toNat_inj, UInt64.toNat_shiftRight, Nat.shiftRight_eq_div_pow]
    rfl
  have hsign : Sign.ofBitVec (@unpackSign Format.binary64 x.toBits.toBitVec) = .negative ↔
      (@unpackSign Format.binary64 x.toBits.toBitVec).toNat ≠ 0 := by
    rw [Sign.ofBitVec]
    split
    · next h => simp [h]
    · next h => simpa using mt BitVec.eq_of_toNat_eq h
  rw [hbit, hsign, toNat_unpackSign]
  change x.toBits.toNat < 2 ^ 64 at hb
  change x.toBits.toNat / 2 ^ 63 = 1 ↔ x.toBits.toNat / 2 ^ 63 ≠ 0
  omega

/-- A finite number is zero or canonical, and `parts` shows which. -/
theorem unpack_cases (h : x.isFinite = true) :
    (∃ s, x.toModel.unpack = .zero s ∧ parts x = (0, -1074) ∧ (isNegative x = true ↔ s = .negative)) ∨
      ∃ s m q, ∃ hc : Canonical m q, x.toModel.unpack = .finite s m q hc.pos ∧ parts x = (m, q) ∧
        (isNegative x = true ↔ s = .negative) := by
  have hunpack : x.toModel.unpack = _ := unpack_eq x.toBits.toBitVec
  have hfinite : x.toModel.unpack.isFinite = true := h
  have hf := fraction_eq x
  have he := biasedExponent_eq x
  have hlt := (@unpackMantissa Format.binary64 x.toBits.toBitVec).isLt
  rw [hunpack] at hfinite
  rw [hunpack, isNegative_iff]
  generalize Sign.ofBitVec (@unpackSign Format.binary64 x.toBits.toBitVec) = s at hfinite ⊢
  generalize @unpackExponent Format.binary64 x.toBits.toBitVec = e at hfinite he ⊢
  generalize @unpackMantissa Format.binary64 x.toBits.toBitVec = f at hfinite hf hlt ⊢
  have hlt' : f.toNat < 2 ^ 52 := hlt
  by_cases hall : e = -1#11
  · rw [ofFields, if_pos hall] at hfinite
    split at hfinite <;> cases hfinite
  by_cases hzero : e = 0#11
  · subst hzero
    have hparts : parts x = (f.toNat, -1074) := by rw [parts, he, hf]; rfl
    by_cases hnone : f = 0#52
    · subst hnone
      exact .inl ⟨s, rfl, hparts, Iff.rfl⟩
    · have hpos : 0 < f.toNat := Nat.pos_of_ne_zero fun h0 => hnone (BitVec.eq_of_toNat_eq h0)
      have hc : Canonical f.toNat (-1074) := ⟨hpos, by omega, le_refl _, by omega, .inr rfl⟩
      exact .inr ⟨s, f.toNat, -1074, hc, ofFields_subnormal hpos, hparts, Iff.rfl⟩
  · have hpos : 0 < e.toNat := Nat.pos_of_ne_zero fun h0 => hzero (BitVec.eq_of_toNat_eq h0)
    have hmax : e.toNat < 2047 := by
      have hlt11 : e.toNat < 2 ^ 11 := e.isLt
      have hne : e.toNat ≠ 2047 := fun h0 => hall (BitVec.eq_of_toNat_eq h0)
      omega
    have hparts : parts x = (2 ^ 52 + f.toNat, (e.toNat : Int) - 1075) := by
      rw [parts, he, hf, if_neg (by omega), Nat.add_comm]
      rfl
    have hc : Canonical (2 ^ 52 + f.toNat) ((e.toNat : Int) - 1075) :=
      ⟨by omega, by omega, by omega, by omega, .inl (by omega)⟩
    exact .inr ⟨s, _, _, hc, ofFields_normal hpos hmax, hparts, Iff.rfl⟩

theorem unpack_of_parts (h : x.isFinite = true) (hs : isNegative x = false) (hp : parts x = (m, q))
    (hm : 0 < m) : x.toModel.unpack = .finite .positive m q hm := by
  rcases unpack_cases h with ⟨s, _, hparts, _⟩ | ⟨s, m', q', hc, hunpack, hparts, hsign⟩
  · obtain ⟨rfl, _⟩ := Prod.mk.inj (hparts.symm.trans hp)
    exact absurd hm (by decide)
  · obtain ⟨rfl, rfl⟩ := Prod.mk.inj (hparts.symm.trans hp)
    cases s with
    | positive => exact hunpack
    | negative =>
      rw [hsign.mpr rfl] at hs
      cases hs

end SignalEvolution.Binary

import Lox.Number
import Mathlib

set_option autoImplicit false

/-!
# Numbers and their bit patterns

A bit pattern is turned into a number by taking it apart into a sign, an exponent and a mantissa,
and by putting these together again. Only the payload of what is not a number is lost on the way, so
that every other pattern is the pattern of the number that is made from it.

## Main results

* `Lox.Binary64.pack_unpack` — a pattern that is taken apart is put together again.
* `Lox.Number.toNat_toBits` — a pattern is its magnitude, with the sign above it.
* `Lox.Number.toBits_ofBits` — the pattern of a number that is made from a pattern.
* `Lox.Number.eq_of_toBits_eq` — a number is determined by its pattern.
-/

namespace Lox

namespace Binary64

open Float.Model.UnpackedFloat
open Float.Model.Format (binary64)

/-! ## Taking patterns apart -/

/-- The two signs are the two values of the sign bit. -/
theorem toBitVec_ofBitVec (b : BitVec 1) : (Sign.ofBitVec b).toBitVec = b := by
  rcases BitVec.eq_zero_or_eq_one b with rfl | rfl <;> rfl

/-- A pattern consists of its sign, its exponent and its mantissa.

**Proof sketch.** Bit by bit: the lowest 52 bits come from the mantissa, the next 11 bits from the
exponent, and only bit 63 is left. -/
theorem packComponents_components (b : BitVec binary64.numBits) :
    packComponents binary64 (Sign.ofBitVec (unpackSign b)) (unpackExponent b) (unpackMantissa b) =
      b := by
  rw [packComponents, toBitVec_ofBitVec]
  refine BitVec.eq_of_getLsbD_eq fun i hi => ?_
  simp only [BitVec.getLsbD_append, unpackSign, unpackExponent, unpackMantissa, BitVec.extractLsb,
    BitVec.getLsbD_cast, BitVec.getLsbD_extractLsb']
  by_cases hmantissa : i < 52
  · simp [hmantissa]
  by_cases hexponent : i - 52 < 11
  · have hi' : 52 + (i - 52) = i := by omega
    simp [hmantissa, hexponent, hi']
  · obtain rfl : i = 63 := by simp only at hi hexponent; omega
    simp
    rfl

/-- The exponent of a pattern stands above 52 bits and below the sign. -/
theorem toNat_unpackExponent (b : BitVec binary64.numBits) :
    (unpackExponent b).toNat = b.toNat / 2 ^ 52 % 2 ^ 11 := by
  simp [unpackExponent, Nat.shiftRight_eq_div_pow]

/-- The mantissa of a pattern is its lowest 52 bits. -/
theorem toNat_unpackMantissa (b : BitVec binary64.numBits) :
    (unpackMantissa b).toNat = b.toNat % 2 ^ 52 := by
  simp [unpackMantissa]

/-! ## Putting patterns together -/

/-- A mantissa without a leading one is packed with the lowest exponent. -/
theorem pack_subnormal (s : Sign) {m : BitVec 52} (hm : 0 < m.toNat) :
    pack binary64 (.finite s m.toNat (-1074) hm) = packComponents binary64 s 0 m := by
  have hlog : m.toNat.log2 < 52 := (Nat.log2_lt (by omega)).mpr m.isLt
  rw [pack]
  simp [Float.Model.Format.exponentBias, Float.Model.Format.mantissaBits, Nat.ne_of_lt, hlog]

/-- A mantissa with a leading one is packed without it, together with its exponent. -/
theorem pack_normal (s : Sign) {x : BitVec 11} {m : BitVec 52} (hx : x ≠ -1)
    (hm : 0 < (1#1 ++ m).toNat) :
    pack binary64 (.finite s (1#1 ++ m).toNat (x.toNat - 1075) hm) =
      packComponents binary64 s x m := by
  have hnat : (1#1 ++ m).toNat = 2 ^ 52 + m.toNat := by
    rw [BitVec.toNat_append, Nat.shiftLeft_eq, Nat.mul_comm, ← Nat.two_pow_add_eq_or_of_lt m.isLt]
    simp
  have hlog : (1#1 ++ m).toNat.log2 = 52 := by
    rw [Nat.log2_eq_iff (by omega), hnat]
    omega
  have hfinite : ¬2 ^ 11 ≤ x.toNat + 1 := by
    have hlast : x.toNat ≠ 2 ^ 11 - 1 := fun h => hx (BitVec.eq_of_toNat_eq h)
    omega
  have hexponent : ((x.toNat : Int) - 1075 + binary64.exponentBias + (52 : Nat)).toNat = x.toNat := by
    have hbias : (binary64.exponentBias : Int) = 1023 := rfl
    omega
  have hmantissa : BitVec.ofNat 52 (1#1 ++ m).toNat = m := by
    rw [hnat]
    exact BitVec.eq_of_toNat_eq (by simp [m.isLt])
  have hbits : 52 + 1 = binary64.mantissaBits := rfl
  simp only [pack, hexponent, if_neg hfinite, hlog, if_pos hbits, hmantissa, BitVec.ofNat_toNat,
    BitVec.setWidth_eq]

/-- **A pattern that is taken apart is put together again**, if it is the pattern of a number.

**Proof sketch.** By the exponent: all ones stand for infinity, since the mantissa is then zero; all
zeros stand for zero or for a mantissa without a leading one; any other exponent stands for a
mantissa with one. In each case the three components come back. -/
theorem pack_unpack {b : BitVec binary64.numBits}
    (h : unpackExponent b = -1 → unpackMantissa b = 0) :
    pack binary64 (unpack binary64 b) = b := by
  conv_rhs => rw [← packComponents_components b]
  unfold unpack
  dsimp only
  split
  · next hones =>
    have hmantissa : unpackMantissa b = 0#52 := h hones
    rw [if_pos hmantissa, hmantissa, hones]
    rfl
  split
  · next hzeros =>
    split
    · next hmantissa =>
      rw [hzeros, hmantissa]
      rfl
    · simp only [hzeros]
      exact pack_subnormal _ _
  · next hones _ => exact pack_normal _ hones _

end Binary64

namespace Number

open Float.Model.UnpackedFloat

/-- **The pattern of a number that is made from a pattern** is that pattern, if its magnitude is at
most infinity. -/
theorem toBits_ofBits {b : UInt64} (h : b.toNat % signPattern ≤ Binary64.infinity) :
    (Float.ofBits b).toBits = b := by
  have hpack : pack .binary64 (unpack .binary64 b.toBitVec) = b.toBitVec := by
    refine Binary64.pack_unpack fun hones => BitVec.eq_of_toNat_eq ?_
    have hexponent := congrArg BitVec.toNat hones
    rw [Binary64.toNat_unpackExponent] at hexponent
    rw [Binary64.toNat_unpackMantissa]
    simp only [signPattern, Binary64.infinity, ← UInt64.toNat_toBitVec] at h
    have hones' : (-1 : BitVec 11).toNat = 2047 := rfl
    have hzero : (0 : BitVec 52).toNat = 0 := rfl
    omega
  exact congrArg UInt64.ofBitVec hpack

/-- **A number is determined by its pattern.** -/
theorem eq_of_toBits_eq {x y : Number} (h : x.toBits = y.toBits) : x = y := by
  obtain ⟨⟨bits, valid⟩⟩ := x
  obtain ⟨⟨bits', valid'⟩⟩ := y
  obtain rfl : bits = bits' := h
  rfl

/-- A pattern is its magnitude, with the sign above it. -/
theorem toNat_toBits (x : Number) :
    x.toBits.toNat = (if x.signBit then signPattern else 0) + x.magnitude := by
  have hwidth : x.toBits.toNat < 2 ^ 64 := x.toBits.toBitVec.isLt
  rw [signBit, magnitude, signPattern]
  by_cases h : 0x8000000000000000 ≤ x.toBits.toNat
  · rw [decide_eq_true h, if_pos rfl]
    omega
  · rw [decide_eq_false h, if_neg Bool.false_ne_true]
    omega

/-- The pattern of a number that is made from a magnitude. -/
theorem toNat_toBits_ofBits {m : Nat} (h : m ≤ Binary64.infinity) :
    (Float.ofBits (UInt64.ofNat m)).toBits.toNat = m := by
  have hm : (UInt64.ofNat m).toNat = m := by
    simp only [Binary64.infinity] at h
    rw [UInt64.toNat_ofNat']
    omega
  rw [toBits_ofBits, hm]
  simp only [hm, signPattern, Binary64.infinity] at h ⊢
  omega

end Number

end Lox

import Lox.Proofs.Number.Text

set_option autoImplicit false

/-!
# Signs of numbers

A pattern is its magnitude below the sign bit. Negation changes nothing but that bit, so that a number
with a sign is the negation of its magnitude, zero included, and is written like its magnitude behind
a minus.

## Main definitions

* `Lox.Number.abs` — a number without its sign.

## Main results

* `Lox.Binary64.unpack_neg` — a pattern with the other sign is taken apart as the negation.
* `Lox.Number.neg_abs` — a finite number with a sign is the negation of its magnitude.
* `Lox.Number.display_abs` — a finite number with a sign is written like its magnitude behind a minus.
-/

namespace Lox

namespace Binary64

open Float.Model.UnpackedFloat
open Float.Model.Format (binary64)

/-- The sign of a pattern is its highest bit. -/
theorem toNat_unpackSign (b : BitVec binary64.numBits) :
    (unpackSign b).toNat = b.toNat / 2 ^ 63 % 2 := by
  simp [unpackSign, Nat.shiftRight_eq_div_pow]

/-- A pattern with the other sign is taken apart as the negation. -/
theorem unpack_neg {b c : BitVec binary64.numBits}
    (sign : Sign.ofBitVec (unpackSign c) = -Sign.ofBitVec (unpackSign b))
    (exponent : unpackExponent c = unpackExponent b)
    (mantissa : unpackMantissa c = unpackMantissa b) :
    unpack binary64 c = (unpack binary64 b).neg := by
  unfold unpack
  simp only [sign, exponent, mantissa]
  split
  · split <;> rfl
  · split
    · split <;> rfl
    · rfl

/-- A pattern with the sign bit is taken apart as the negation of the pattern without it. -/
theorem unpack_of_toNat_eq {b c : BitVec binary64.numBits} (hb : b.toNat < 2 ^ 63)
    (hc : c.toNat = 2 ^ 63 + b.toNat) : unpack binary64 c = (unpack binary64 b).neg := by
  refine unpack_neg ?_ (BitVec.eq_of_toNat_eq ?_) (BitVec.eq_of_toNat_eq ?_)
  · have hzero : unpackSign b = 0#1 := BitVec.eq_of_toNat_eq (by
      rw [toNat_unpackSign, Nat.div_eq_of_lt hb]
      rfl)
    have hone : unpackSign c = 1#1 := BitVec.eq_of_toNat_eq (by
      rw [toNat_unpackSign, hc, Nat.add_div_left _ (by decide), Nat.div_eq_of_lt hb]
      rfl)
    rw [hzero, hone]
    rfl
  · rw [toNat_unpackExponent, toNat_unpackExponent, hc]
    omega
  · rw [toNat_unpackMantissa, toNat_unpackMantissa, hc]
    omega

end Binary64

namespace Number

open Float.Model.UnpackedFloat

/-- A number without its sign. -/
def abs (x : Number) : Number :=
  Float.ofBits (UInt64.ofNat x.magnitude)

/-- A number without its sign has the same magnitude. -/
theorem magnitude_abs {x : Number} (finite : x.Finite) : x.abs.magnitude = x.magnitude := by
  rw [magnitude, abs, toNat_toBits_ofBits (Nat.le_of_lt finite)]
  exact Nat.mod_eq_of_lt (Nat.mod_lt _ (by decide))

/-- A number without its sign has no sign. -/
theorem signBit_abs {x : Number} (finite : x.Finite) : x.abs.signBit = false := by
  have hlt : x.magnitude < signPattern := Nat.mod_lt _ (by decide)
  rw [signBit, abs, toNat_toBits_ofBits (Nat.le_of_lt finite), decide_eq_false_iff_not]
  omega

/-- A finite number without its sign is finite. -/
theorem finite_abs {x : Number} (finite : x.Finite) : x.abs.Finite := by
  rw [Finite, magnitude_abs finite]
  exact finite

/-- A number that has no sign is itself without its sign. -/
theorem abs_of_positive {x : Number} (finite : x.Finite) (positive : x.signBit = false) : x.abs = x :=
  ofBits_magnitude finite positive

/-- **A finite number with a sign is the negation of its magnitude.** -/
theorem neg_abs {x : Number} (finite : x.Finite) (negative : x.signBit = true) : -x.abs = x := by
  have habs : x.abs.toBits.toBitVec.toNat = x.magnitude :=
    toNat_toBits_ofBits (Nat.le_of_lt finite)
  have hlt : x.magnitude < 2 ^ 63 := Nat.mod_lt _ (by decide)
  have hbits : x.toBits.toBitVec.toNat = 2 ^ 63 + x.abs.toBits.toBitVec.toNat := by
    rw [habs, UInt64.toNat_toBitVec, toNat_toBits, negative, if_pos rfl]
    rfl
  have hunpack := Binary64.unpack_of_toNat_eq (habs ▸ hlt) hbits
  have hpack : pack .binary64 (unpack .binary64 x.toBits.toBitVec) = x.toBits.toBitVec :=
    congrArg UInt64.toBitVec (toBits_ofBits (Nat.le_of_lt finite))
  refine eq_of_toBits_eq (UInt64.toBitVec_inj.mp ?_)
  calc (-x.abs).toBits.toBitVec
      = pack .binary64 (unpack .binary64 x.abs.toBits.toBitVec).neg := rfl
    _ = x.toBits.toBitVec := by rw [← hunpack, hpack]

/-- **A finite number with a sign is written like its magnitude behind a minus.** -/
theorem display_abs {x : Number} (finite : x.Finite) (negative : x.signBit = true) :
    x.display = "-" ++ x.abs.display := by
  have hnan : ¬Binary64.infinity < x.magnitude := Nat.lt_asymm finite
  rw [display, display, text, text, magnitude_abs finite, signBit_abs finite, negative, if_neg hnan,
    if_neg hnan, if_pos rfl, if_neg Bool.false_ne_true, String.empty_append]

end Number

end Lox

import Lox.Proofs.Binary64.Whole
import Lox.Proofs.Number.Sign

set_option autoImplicit false

/-!
# The exact values of numbers

A finite number stands for a fraction: its mantissa times a power of two, with its sign. This is how the
arithmetic of the format understands a bit pattern. The count of smallest steps, on which reading and
writing are based, is the same fraction, so that what is written without places is exactly what is
whole.

## Main definitions

* `Lox.Number.value` — the fraction that a finite number stands for.

## Main results

* `Lox.Number.isNaN_iff`, `Lox.Number.isFinite_iff`, `Lox.Number.isInf_iff` — what kind of number a
  pattern is.
* `Lox.Number.value_eq` — the fraction is a count of smallest steps.
* `Lox.Number.fraction_eq_nil_iff` — a number is written without a fraction if and only if it is whole.
-/

namespace Lox

namespace Binary64

open Float.Model.UnpackedFloat
open Float.Model.Format (binary64)

/-! ## Patterns -/

/-- **The fraction that a pattern stands for** once it has been taken apart. It is zero for what is not
finite. -/
def fractionOf : Float.Model.UnpackedFloat → ℚ
  | .finite s m e _ => s.apply m * 2 ^ e
  | _ => 0

/-- A mantissa with a leading one. -/
theorem toNat_one_append (m : BitVec 52) : (1#1 ++ m).toNat = binade + m.toNat := by
  rw [BitVec.toNat_append, Nat.shiftLeft_eq, Nat.mul_comm, ← Nat.two_pow_add_eq_or_of_lt m.isLt]
  simp [binade]

/-- A sign is applied to one of two factors. -/
theorem apply_mul (s : Sign) (m n : Int) : s.apply (m * n) = s.apply m * n := by
  cases s with
  | negative => exact (neg_mul m n).symm
  | positive => rfl

/-- **A pattern of a finite magnitude stands for its count of smallest steps**, with its sign.

**Proof sketch.** By the exponent. If it is zero, the mantissa has no leading one, and the pattern is in
the first binade, where it is its own value. Otherwise the mantissa has a leading one, and the exponent
less one is the number of the later binade. -/
theorem fractionOf_unpack {b : BitVec binary64.numBits} (h : b.toNat % 2 ^ 63 < infinity) :
    fractionOf (unpack binary64 b) =
      (Sign.ofBitVec (unpackSign b)).apply (units (b.toNat % 2 ^ 63)) / 2 ^ finest := by
  have hexponent := toNat_unpackExponent b
  have hmantissa := toNat_unpackMantissa b
  have hbias : (binary64.exponentBias : Int) + (52 : Nat) = finest + 1 := rfl
  unfold unpack
  dsimp only
  generalize Sign.ofBitVec (unpackSign b) = s
  split
  · next hones =>
    have hones' : (-1#11).toNat = 2047 := rfl
    rw [hones, hones'] at hexponent
    rw [infinity] at h
    omega
  split
  · next hzeros =>
    have hzeros' : (0#11).toNat = 0 := rfl
    rw [hzeros, hzeros'] at hexponent
    have hlt : b.toNat % 2 ^ 63 < binade := by
      rw [binade]
      omega
    have hunits : units (b.toNat % 2 ^ 63) = (unpackMantissa b).toNat := by
      rw [units_of_lt hlt, hmantissa]
      rw [binade] at hlt
      omega
    split
    · next hzero =>
      have hsign : s.apply 0 = 0 := by cases s <;> rfl
      have hmantissa' : (0#52).toNat = 0 := rfl
      rw [hunits, hzero, hmantissa', Nat.cast_zero, hsign, Int.cast_zero, zero_div]
      rfl
    · have hplaces : ((0#11).toNat : Int) - (binary64.exponentBias + (52 : Nat)) + 1 = -finest := by
        rw [hbias, hzeros']
        omega
      rw [hunits, hzeros, fractionOf, hplaces, zpow_neg, zpow_natCast, div_eq_mul_inv]
  · next hones hzeros =>
    obtain ⟨q, hq⟩ : ∃ q, (unpackExponent b).toNat = q + 1 := by
      refine Nat.exists_eq_succ_of_ne_zero fun hzero => hzeros (BitVec.eq_of_toNat_eq hzero)
    have hr : (unpackMantissa b).toNat < binade := (unpackMantissa b).isLt
    have hplace : b.toNat % 2 ^ 63 = (q + 1) * binade + (unpackMantissa b).toNat := by
      rw [hq] at hexponent
      rw [binade]
      omega
    have hplaces : ((q + 1 : Nat) : Int) - (binary64.exponentBias + (52 : Nat)) = q - finest := by
      rw [hbias]
      omega
    rw [hplace, units_of_place hr, fractionOf, toNat_one_append, hq, hplaces, zpow_sub₀ two_ne_zero,
      zpow_natCast, zpow_natCast, Nat.cast_mul, apply_mul, Int.cast_mul, mul_div_assoc, Nat.cast_pow,
      Int.cast_pow]
    rfl

/-- A pattern is taken apart as no number if and only if its magnitude lies above infinity, and as a
finite number if and only if it lies below. -/
theorem isNaN_isFinite_unpack (b : BitVec binary64.numBits) :
    ((unpack binary64 b).isNaN ↔ infinity < b.toNat % 2 ^ 63) ∧
      ((unpack binary64 b).isFinite ↔ b.toNat % 2 ^ 63 < infinity) := by
  have hexponent := toNat_unpackExponent b
  have hmantissa := toNat_unpackMantissa b
  have hones' : (-1#11).toNat = 2047 := rfl
  have hzeros' : (0#11).toNat = 0 := rfl
  have hzero' : (0#52).toNat = 0 := rfl
  rw [infinity]
  unfold unpack
  dsimp only
  split
  · next hones =>
    rw [hones, hones'] at hexponent
    split
    · next hzero =>
      rw [hzero, hzero'] at hmantissa
      simp only [isNaN, isFinite, Bool.false_eq_true, false_iff]
      omega
    · next hzero =>
      have hne : (unpackMantissa b).toNat ≠ 0 := fun h => hzero (BitVec.eq_of_toNat_eq h)
      simp only [isNaN, isFinite, Bool.false_eq_true, false_iff, true_iff]
      omega
  split
  · next hzeros =>
    rw [hzeros, hzeros'] at hexponent
    split <;> simp only [isNaN, isFinite, Bool.false_eq_true, false_iff, true_iff] <;> omega
  · next hones hzeros =>
    have hne : (unpackExponent b).toNat ≠ 2047 := fun h => hones (BitVec.eq_of_toNat_eq h)
    simp only [isNaN, isFinite, Bool.false_eq_true, false_iff, true_iff]
    omega

end Binary64

namespace Number

/-! ## Numbers -/

/-- What is no number is what has a magnitude above infinity. -/
theorem isNaN_iff {x : Number} : x.isNaN ↔ Binary64.infinity < x.magnitude :=
  (Binary64.isNaN_isFinite_unpack x.toBits.toBitVec).1

/-- What is finite is what has a magnitude below infinity. -/
theorem isFinite_iff {x : Number} : x.isFinite ↔ x.Finite :=
  (Binary64.isNaN_isFinite_unpack x.toBits.toBitVec).2

/-- What is infinite is what has the magnitude of infinity. -/
theorem isInf_iff {x : Number} : x.isInf ↔ x.magnitude = Binary64.infinity := by
  have hkinds (u : Float.Model.UnpackedFloat) : u.isInf ↔ ¬u.isNaN ∧ ¬u.isFinite := by
    cases u <;> simp [Float.Model.UnpackedFloat.isInf, Float.Model.UnpackedFloat.isNaN,
      Float.Model.UnpackedFloat.isFinite]
  have hinf : x.isInf ↔ ¬x.isNaN ∧ ¬x.isFinite := hkinds _
  rw [hinf, isNaN_iff, isFinite_iff, Finite]
  omega

/-- **The fraction that a finite number stands for.** It is zero for what is not finite. -/
def value (x : Number) : ℚ :=
  Binary64.fractionOf x.toModel.unpack

/-- The sign of a number as the arithmetic of the format has it. -/
def sign (x : Number) : Float.Model.UnpackedFloat.Sign :=
  if x.signBit then .negative else .positive

/-- The sign of a pattern is that of the number. -/
theorem ofBitVec_unpackSign (x : Number) :
    Float.Model.UnpackedFloat.Sign.ofBitVec
      (@Float.Model.UnpackedFloat.unpackSign .binary64 x.toBits.toBitVec) = x.sign := by
  have hbit := Binary64.toNat_unpackSign x.toBits.toBitVec
  have hwidth : x.toBits.toBitVec.toNat < 2 ^ 64 := x.toBits.toBitVec.isLt
  rw [sign, signBit, signPattern, ← UInt64.toNat_toBitVec]
  by_cases h : 0x8000000000000000 ≤ x.toBits.toBitVec.toNat
  · have hone : @Float.Model.UnpackedFloat.unpackSign .binary64 x.toBits.toBitVec = 1#1 :=
      BitVec.eq_of_toNat_eq (by rw [hbit]; simp only [BitVec.toNat_ofNat]; omega)
    rw [hone, decide_eq_true h]
    rfl
  · have hzero : @Float.Model.UnpackedFloat.unpackSign .binary64 x.toBits.toBitVec = 0#1 :=
      BitVec.eq_of_toNat_eq (by rw [hbit]; simp only [BitVec.toNat_ofNat]; omega)
    rw [hzero, decide_eq_false h]
    rfl

/-- **A finite number stands for its count of smallest steps**, with its sign. -/
theorem value_eq {x : Number} (finite : x.Finite) :
    x.value = (if x.signBit then -1 else 1) * (Binary64.units x.magnitude / 2 ^ Binary64.finest) := by
  have hfraction : x.value = x.sign.apply (Binary64.units x.magnitude) / 2 ^ Binary64.finest := by
    rw [← ofBitVec_unpackSign]
    exact Binary64.fractionOf_unpack finite
  rw [hfraction, sign]
  cases x.signBit with
  | true => simp [Float.Model.UnpackedFloat.Sign.apply, neg_div]
  | false => simp [Float.Model.UnpackedFloat.Sign.apply]

/-- A finite number is whole if and only if its magnitude is. -/
theorem exists_value_eq_iff {x : Number} (finite : x.Finite) :
    (∃ k : ℤ, x.value = k) ↔ 2 ^ Binary64.finest ∣ Binary64.units x.magnitude := by
  have hden : (∃ k : ℤ, x.value = k) ↔ x.value.den = 1 := by
    constructor
    · rintro ⟨k, hk⟩
      rw [hk, Rat.den_intCast]
    · intro hone
      exact ⟨x.value.num, ((Rat.den_eq_one_iff _).mp hone).symm⟩
  have hmagnitude : x.value.den = (Binary64.units x.magnitude / (2 ^ Binary64.finest : ℕ) : ℚ).den := by
    rw [value_eq finite, Nat.cast_pow, Nat.cast_ofNat]
    cases x.signBit with
    | true => rw [if_pos rfl, neg_one_mul, Rat.den_neg_eq_den]
    | false => rw [if_neg Bool.false_ne_true, one_mul]
  rw [hden, hmagnitude, Rat.den_div_natCast_eq_one_iff _ _ (Nat.two_pow_pos _).ne']

/-- **A finite number is written without a fraction if and only if it is whole.** -/
theorem fraction_eq_nil_iff {x : Number} (finite : x.Finite) :
    x.decimal.fraction = [] ↔ ∃ k : ℤ, x.value = k := by
  rw [exists_value_eq_iff finite, ← Binary64.places_shortest_eq_zero_iff (Nat.le_of_lt finite),
    ← List.length_eq_zero_iff, Decimal.fraction, Decimal.length_lowDigits, decimal]

end Number

end Lox

import Lox.Proofs.Binary64.Rounding
import Lox.Proofs.Number.Value

set_option autoImplicit false

/-!
# The number nearest to a fraction

Which number a fraction is rounded to is a matter of distances alone: it is the finite number nearest to the
fraction, with an even mantissa if there is another one as near, unless the fraction is so great that the
next power of two, beyond the finite numbers, would be no farther away. The fractions to which a number is
nearest are those that are rounded to its pattern, with its sign.

## Main definitions

* `Lox.Number.IsNearest` — the finite number nearest to a fraction.
* `Lox.Number.factor` — the sign of a number as a factor.

## Main results

* `Lox.Number.IsNearest.mem_interval`, `Lox.Number.isNearest_of_mem_interval` — a number is nearest to the
  fractions that are rounded to its pattern.
-/

namespace Lox

namespace Number

open Binary64 (infinity interval midpoint)

/-! ## Signs and magnitudes -/

/-- The sign of a number as a factor. -/
def factor (x : Number) : ℚ :=
  if x.signBit then -1 else 1

/-- A sign changes no distance from zero. -/
@[simp]
theorem abs_factor (x : Number) : |x.factor| = 1 := by
  rw [factor]
  split <;> simp

/-- Two signs cancel each other out. -/
@[simp]
theorem factor_mul_factor (x : Number) : x.factor * x.factor = 1 := by
  rw [← abs_mul_abs_self, abs_factor, one_mul]

/-- Two numbers have the same sign or opposite ones. -/
theorem factor_eq_or_eq_neg (x y : Number) : x.factor = y.factor ∨ x.factor = -y.factor := by
  rw [factor, factor]
  cases x.signBit <;> cases y.signBit <;> simp

/-- A finite number is its magnitude with its sign. -/
theorem value_eq_factor_mul {x : Number} (finite : x.Finite) :
    x.value = x.factor * Binary64.value x.magnitude :=
  value_eq finite

/-- There is a finite number with each sign and each finite magnitude. -/
theorem exists_finite (sign : Bool) {bits : Nat} (hbits : bits < infinity) :
    ∃ x : Number, x.Finite ∧ x.signBit = sign ∧ x.magnitude = bits := by
  have hbounds : (if sign then signPattern else 0) + bits < 2 ^ 64 ∧
      ((if sign then signPattern else 0) + bits) % signPattern = bits ∧
      decide (signPattern ≤ (if sign then signPattern else 0) + bits) = sign := by
    rw [infinity] at hbits
    rw [signPattern]
    cases sign <;> simp <;> omega
  generalize (if sign then signPattern else 0) + bits = pattern at hbounds
  obtain ⟨hwidth, hmod, hsign⟩ := hbounds
  have hpattern : (UInt64.ofNat pattern).toNat = pattern := by
    rw [UInt64.toNat_ofNat', Nat.mod_eq_of_lt hwidth]
  have htoBits : (Float.ofBits (UInt64.ofNat pattern)).toBits = UInt64.ofNat pattern := by
    refine toBits_ofBits ?_
    rw [hpattern, hmod]
    exact hbits.le
  refine ⟨Float.ofBits (UInt64.ofNat pattern), ?_, ?_, ?_⟩
  · rw [Finite, magnitude, htoBits, hpattern, hmod]
    exact hbits
  · rw [signBit, htoBits, hpattern, hsign]
  · rw [magnitude, htoBits, hpattern, hmod]

/-- The distance of a fraction from a number, measured on the side of the number's sign. -/
theorem abs_sub_value {x : Number} (finite : x.Finite) (q : ℚ) :
    |q - x.value| = |x.factor * q - Binary64.value x.magnitude| := by
  rw [value_eq_factor_mul finite, ← one_mul |x.factor * q - _|, ← abs_factor x, ← abs_mul, mul_sub,
    ← mul_assoc, factor_mul_factor, one_mul]

/-! ## The nearest number -/

/-- **The finite number nearest to a fraction.** The fraction lies below the middle between the greatest
finite number and the next power of two, on either side of zero; no finite number is nearer to it; and if
one with another value is as near, the mantissa is even. -/
structure IsNearest (x : Number) (q : ℚ) : Prop where
  /-- The number is finite. -/
  finite : x.Finite
  /-- The fraction is not so great that it is rounded to infinity. -/
  inRange : |q| < 2 ^ 1024 - 2 ^ 970
  /-- No finite number is nearer. -/
  nearest : ∀ y : Number, y.Finite → |q - x.value| ≤ |q - y.value|
  /-- Of two numbers that are as near it is the one with the even mantissa, which ends like the pattern. -/
  even : ∀ y : Number, y.Finite → y.value ≠ x.value → |q - y.value| = |q - x.value| →
    x.magnitude % 2 = 0

variable {x : Number} {q : ℚ}

/-- **A fraction is rounded to the magnitude of the number that is nearest to it**, if it is given the sign
of this number. -/
theorem IsNearest.mem_interval (h : x.IsNearest q) : x.factor * q ∈ interval x.magnitude := by
  refine Binary64.mem_interval_of_closest (fun other hother => ?_) h.finite ?_
  · obtain ⟨y, finite, hsign, rfl⟩ := exists_finite x.signBit hother
    have hfactor : y.factor = x.factor := by rw [factor, hsign, factor]
    have hdistance := abs_sub_value finite q
    rw [hfactor] at hdistance
    rw [← abs_sub_value h.finite, ← hdistance]
    refine ⟨h.nearest y finite, fun hne htie => h.even y finite (fun hvalue => hne ?_) htie⟩
    rw [value_eq_factor_mul finite, value_eq_factor_mul h.finite, hfactor] at hvalue
    have hfactor_ne : x.factor ≠ 0 := left_ne_zero_of_mul_eq_one (factor_mul_factor x)
    exact Binary64.value_strictMono.injective (mul_left_cancel₀ hfactor_ne hvalue)
  · calc x.factor * q ≤ |x.factor * q| := le_abs_self _
      _ = |q| := by rw [abs_mul, abs_factor, one_mul]
      _ < midpoint (infinity - 1) := Binary64.midpoint_last ▸ h.inRange

/-- A number with the other sign lies on the other side of zero. -/
theorem abs_sub_value_of_opposite {y : Number} (finite : y.Finite) (opposite : y.factor = -x.factor)
    (hsign : 0 ≤ x.factor * q) : |q - y.value| = x.factor * q + Binary64.value y.magnitude := by
  rw [abs_sub_value finite, opposite, neg_mul, ← abs_neg, neg_sub, sub_neg_eq_add, add_comm]
  exact abs_of_nonneg (add_nonneg hsign (Binary64.value_nonneg _))

/-- No number is nearer to a fraction than the one with its magnitude and the sign of the fraction. -/
theorem abs_sub_magnitude_le {y : Number} (finite : y.Finite) (hsign : 0 ≤ x.factor * q) :
    |x.factor * q - Binary64.value y.magnitude| ≤ |q - y.value| := by
  obtain hsame | hopposite := y.factor_eq_or_eq_neg x
  · rw [abs_sub_value finite, hsame]
  · rw [abs_sub_value_of_opposite finite hopposite hsign, abs_le]
    have hnonneg := Binary64.value_nonneg y.magnitude
    exact ⟨by linarith, by linarith⟩

/-- **A number is nearest to the fractions of its sign that are rounded to its magnitude.**

**Proof sketch.** A number with the same sign is no nearer since its magnitude is not, and a number with
the other sign is farther away than the one with its magnitude and the sign of the fraction. -/
theorem isNearest_of_mem_interval (finite : x.Finite) (hsign : 0 ≤ x.factor * q)
    (h : x.factor * q ∈ interval x.magnitude) : x.IsNearest q := by
  have hclosest := Binary64.closest_of_mem_interval h
  refine ⟨finite, ?_, fun y finite' => ?_, fun y finite' hne htie => ?_⟩
  · calc |q| = |x.factor * q| := by rw [abs_mul, abs_factor, one_mul]
      _ = x.factor * q := abs_of_nonneg hsign
      _ < 2 ^ 1024 - 2 ^ 970 := Binary64.midpoint_last ▸ Binary64.lt_midpoint_last h finite
  · rw [abs_sub_value finite]
    exact (hclosest _ finite').1.trans (abs_sub_magnitude_le finite' hsign)
  · by_cases hmagnitude : y.magnitude = x.magnitude
    · -- The two numbers differ in nothing but the sign, and zero lies between them.
      rw [value_eq_factor_mul finite', value_eq_factor_mul finite, hmagnitude] at hne
      have hother := (y.factor_eq_or_eq_neg x).resolve_left fun hsame => hne (by rw [hsame])
      have hpos : 0 < Binary64.value x.magnitude :=
        (Binary64.value_nonneg _).lt_of_ne fun hzero => hne (by rw [← hzero, mul_zero, mul_zero])
      have hzero := (hclosest 0 (by decide)).1
      rw [Binary64.value_zero, sub_zero, abs_of_nonneg hsign, ← abs_sub_value finite, ← htie,
        abs_sub_value_of_opposite finite' hother hsign, hmagnitude] at hzero
      linarith
    · refine (hclosest _ finite').2 hmagnitude (le_antisymm ?_ (hclosest _ finite').1)
      rw [← abs_sub_value finite, ← htie]
      exact abs_sub_magnitude_le finite' hsign

end Number

end Lox

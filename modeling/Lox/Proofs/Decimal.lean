import Lox.Decimal
import Mathlib

set_option autoImplicit false

/-!
# Decimals and their digits

The digits that are written for a decimal stand for this decimal, places included, and dropping
needless places leaves the fraction as it is.

## Main definitions

* `Lox.Decimal.whole`, `Lox.Decimal.fraction` — the digits that are written on either side of the
  point.
* `Lox.Decimal.value` — the fraction that a decimal is.
* `Lox.Decimal.written` — the fraction for which a text stands.

## Main results

* `Lox.Decimal.ofDigits_whole_fraction` — the written digits stand for the decimal.
* `Lox.Decimal.coefficient_reduced` — the fraction does not change when places are dropped.
* `Lox.Decimal.written_digits` — digits around a point stand for the decimal that is read from them.
-/

namespace Lox

namespace Decimal

/-! ## Written digits -/

/-- The digits before the point. -/
def whole (d : Decimal) : List Char :=
  Nat.toDigits 10 (d.coefficient / Nat.pow 10 d.places)

/-- The digits after the point. -/
def fraction (d : Decimal) : List Char :=
  lowDigits d.places d.coefficient

/-- The written form is made of the digits, with a point if any stand behind it. -/
theorem text_eq (d : Decimal) :
    d.text = d.whole ++ if d.fraction.isEmpty then [] else '.' :: d.fraction := by
  have hempty : d.fraction.isEmpty ↔ d.places = 0 := by
    rw [List.isEmpty_iff, ← List.length_eq_zero_iff, fraction, length_lowDigits]
  simp only [text, whole, fraction] at hempty ⊢
  simp only [hempty]

/-- There is a digit before the point. -/
theorem whole_ne_nil (d : Decimal) : d.whole ≠ [] :=
  Nat.toDigits_ne_nil

/-- Nothing but digits stands before the point. -/
theorem isDigit_of_mem_whole {d : Decimal} {c : Char} (h : c ∈ d.whole) : c.isDigit :=
  Nat.isDigit_of_mem_toDigits (by decide) (by decide) h

/-- Low digits are digits. -/
theorem isDigit_of_mem_lowDigits {count n : Nat} {c : Char} (h : c ∈ lowDigits count n) :
    c.isDigit := by
  induction count generalizing n with
  | zero => cases h
  | succ count ih =>
    rw [lowDigits, List.mem_append, List.mem_singleton] at h
    obtain h | rfl := h
    · exact ih h
    · have hlt : n % 10 < 10 := Nat.mod_lt _ (by decide)
      simp [hlt]

/-- Nothing but digits stands after the point. -/
theorem isDigit_of_mem_fraction {d : Decimal} {c : Char} (h : c ∈ d.fraction) : c.isDigit :=
  isDigit_of_mem_lowDigits h

/-! ## Reading written digits -/

/-- A further digit is read as the last one. -/
theorem ofDigitChars_append_digitChar (cs : List Char) {n : Nat} (h : n < 10) :
    Nat.ofDigitChars 10 (cs ++ [n.digitChar]) 0 = 10 * Nat.ofDigitChars 10 cs 0 + n := by
  rw [Nat.ofDigitChars_append, Nat.ofDigitChars_cons_digitChar_of_lt_ten h, Nat.ofDigitChars_nil]

/-- The digits above some place and the digits below it make up a number. -/
theorem ofDigitChars_toDigits_append_lowDigits (count n : Nat) :
    Nat.ofDigitChars 10 (Nat.toDigits 10 (n / 10 ^ count) ++ lowDigits count n) 0 = n := by
  induction count generalizing n with
  | zero => simp [lowDigits]
  | succ count ih =>
    have hhigh : n / 10 ^ (count + 1) = n / 10 / 10 ^ count := by
      rw [Nat.pow_succ', Nat.div_div_eq_div_mul]
    rw [lowDigits, ← List.append_assoc, ofDigitChars_append_digitChar _ (Nat.mod_lt _ (by decide)),
      hhigh, ih, Nat.div_add_mod]

/-- **The written digits stand for the decimal.** -/
theorem ofDigits_whole_fraction (d : Decimal) : ofDigits d.whole d.fraction = d := by
  have hcoefficient := ofDigitChars_toDigits_append_lowDigits d.places d.coefficient
  have hplaces := length_lowDigits d.places d.coefficient
  simp only [ofDigits, whole, fraction]
  exact congrArg₂ Decimal.mk hcoefficient hplaces

/-! ## Dropping places -/

/-- **The fraction does not change when places are dropped**: no place is added, and the dropped
ones are zeros at the end of the coefficient. -/
theorem coefficient_reduced (coefficient places : Nat) :
    ∃ dropped, (reduced coefficient places).places + dropped = places ∧
      (reduced coefficient places).coefficient * 10 ^ dropped = coefficient := by
  induction places generalizing coefficient with
  | zero => exact ⟨0, rfl, Nat.mul_one _⟩
  | succ places ih =>
    by_cases hzero : coefficient % 10 = 0
    · obtain ⟨dropped, hplaces, hcoefficient⟩ := ih (coefficient / 10)
      rw [reduced, if_pos hzero]
      refine ⟨dropped + 1, by omega, ?_⟩
      rw [Nat.pow_succ, ← Nat.mul_assoc, hcoefficient]
      omega
    · rw [reduced, if_neg hzero]
      exact ⟨0, rfl, Nat.mul_one _⟩

/-! ## Fractions -/

/-- The fraction that a decimal is. -/
def value (d : Decimal) : ℚ :=
  d.coefficient / 10 ^ d.places

/-- No decimal is negative. -/
theorem value_nonneg (d : Decimal) : 0 ≤ d.value :=
  div_nonneg (Nat.cast_nonneg _) (pow_nonneg (by norm_num) _)

/-- A decimal as a fraction of whole numbers. -/
theorem value_eq_div (d : Decimal) : d.value = (d.coefficient / (Nat.pow 10 d.places : ℕ) : ℚ) := by
  have hpow : ((Nat.pow 10 d.places : ℕ) : ℚ) = 10 ^ d.places := Nat.cast_pow 10 d.places
  rw [value, hpow]

/-- **The fraction for which a text stands**: the digits in front of the point, and those behind it, each of
which counts a tenth of what it would count one place further to the left. -/
def written (text : List Char) : ℚ :=
  let whole := text.takeWhile (· != '.')
  let fraction := (text.dropWhile (· != '.')).tail
  Nat.ofDigitChars 10 whole 0 + Nat.ofDigitChars 10 fraction 0 / 10 ^ fraction.length

/-- **Digits around a point stand for the decimal that is read from them.** -/
theorem written_digits {whole : List Char} (hwhole : ∀ c ∈ whole, c.isDigit) (fraction : List Char) :
    written (whole ++ if fraction = [] then [] else '.' :: fraction) = (ofDigits whole fraction).value := by
  have hpoint : ∀ c ∈ whole, (c != '.') = true := by
    intro c hc
    rw [bne_iff_ne]
    rintro rfl
    cases hwhole _ hc
  have hvalue : (Nat.ofDigitChars 10 (whole ++ fraction) 0 : ℚ) =
      Nat.ofDigitChars 10 whole 0 * 10 ^ fraction.length + Nat.ofDigitChars 10 fraction 0 := by
    rw [Nat.ofDigitChars_append, Nat.ofDigitChars_eq_ofDigitChars_zero, Nat.cast_add, Nat.cast_mul,
      Nat.cast_pow, Nat.cast_ofNat, mul_comm]
  have hpow : (10 : ℚ) ^ fraction.length ≠ 0 := pow_ne_zero _ (by norm_num)
  rw [written, List.takeWhile_append_of_pos hpoint, List.dropWhile_append_of_pos hpoint, value, ofDigits,
    hvalue, add_div, mul_div_cancel_right₀ _ hpow]
  by_cases h : fraction = []
  · simp [h]
  · simp [h]

/-- The fraction is the same without needless places. -/
theorem value_reduced (coefficient places : Nat) :
    (reduced coefficient places).value = coefficient / 10 ^ places := by
  obtain ⟨dropped, hplaces, hcoefficient⟩ := coefficient_reduced coefficient places
  generalize reduced coefficient places = d at *
  have hpow : (10 : ℚ) ^ dropped ≠ 0 := pow_ne_zero _ (by norm_num)
  rw [value, ← hplaces, ← hcoefficient, pow_add, Nat.cast_mul, Nat.cast_pow, Nat.cast_ofNat,
    mul_div_mul_right _ _ hpow]

end Decimal

end Lox

import Lox.Proofs.Binary64.Search
import Lox.Proofs.Number.Nearest
import Lox.Proofs.Source.Display

set_option autoImplicit false

/-!
# Shortest texts

The text of a number has as few significant digits as a decimal can have to which the number is nearest, and
of all decimals with so few digits the one that it shows is not farther from the number than the others. All
other digits of the text are zeros, which give the significant digits their places.

## Main definitions

* `Lox.Binary64.countInterval` — the counts of the last decimal place that are rounded to a pattern.

## Main results

* `Lox.Binary64.exists_fewest_digits` — how many digits the shortest decimal of a pattern has.
* `Lox.Number.display_shortest` — the text of a number is the shortest one.
-/

namespace Lox

namespace Binary64

/-! ## Shortest decimals of patterns -/

/-- The counts of `10 ^ -finest` that are rounded to a pattern, fractions of this step included. -/
def countInterval (bits : Nat) : Set ℚ :=
  Set.preimage (· / 10 ^ finest) (interval bits)

/-- A power of ten is positive as a fraction as well. -/
theorem cast_pow_ten_pos (places : Nat) : (0 : ℚ) < 10 ^ places :=
  pow_pos (by norm_num) places

/-- These counts lie together. -/
theorem ordConnected_countInterval (bits : Nat) : (countInterval bits).OrdConnected :=
  (ordConnected_interval bits).preimage_mono fun _ _ h =>
    div_le_div_of_nonneg_right h (cast_pow_ten_pos finest).le

/-- A fraction is rounded to a pattern if its count of the last decimal place is. -/
theorem mul_mem_countInterval_iff {bits : Nat} {q : ℚ} :
    q * 10 ^ finest ∈ countInterval bits ↔ q ∈ interval bits := by
  rw [countInterval, Set.mem_preimage, mul_div_cancel_right₀ _ (cast_pow_ten_pos finest).ne']

/-- The test of the search describes these counts. -/
theorem roundsTo_iff {bits : Nat} (hbits : bits < infinity) (count : Nat) :
    roundsTo bits count ↔ (count : ℚ) ∈ countInterval bits := by
  have hpow (n : Nat) : ((Nat.pow 10 n : ℕ) : ℚ) = 10 ^ n := Nat.cast_pow 10 n
  rw [roundsTo, beq_iff_eq, nearest_eq_iff (pow_ten_pos finest) hbits, hpow, countInterval, Set.mem_preimage]

/-- The value of a pattern, counted in steps of `10 ^ -finest`. -/
theorem value_eq_div_pow_ten (bits : Nat) :
    value bits = (units bits * Nat.pow 5 finest : ℕ) / 10 ^ finest := by
  have hfive (n : Nat) : ((Nat.pow 5 n : ℕ) : ℚ) = 5 ^ n := Nat.cast_pow 5 n
  have hne (n : Nat) : (5 : ℚ) ^ n ≠ 0 := pow_ne_zero n (by norm_num)
  have hten : (10 : ℚ) = 2 * 5 := by norm_num
  rw [value, Nat.cast_mul, hfive, hten, mul_pow, mul_div_mul_right _ _ (hne finest)]

/-- Only zero has the count zero. -/
theorem exact_pos {bits : Nat} (hpos : 0 < bits) : 0 < units bits * Nat.pow 5 finest := by
  have hunits : units 0 < units bits := units_strictMono hpos
  have hfive (n : Nat) : 0 < Nat.pow 5 n := Nat.pow_pos (by decide)
  exact Nat.mul_pos (Nat.zero_lt_of_lt hunits) (hfive finest)

/-- The exact value has its leading digit on the first grid. -/
theorem pow_le_of_length_toDigits {exact : Nat} (hpos : 0 < exact) :
    10 ^ ((Nat.toDigits 10 exact).length - 1) ≤ exact ∧
      exact < 10 ^ ((Nat.toDigits 10 exact).length - 1 + 1) := by
  have hlength : 0 < (Nat.toDigits 10 exact).length := List.length_pos_of_ne_nil Nat.toDigits_ne_nil
  have hiff {k : Nat} (hk : 0 < k) : (Nat.toDigits 10 exact).length ≤ k ↔ exact < 10 ^ k :=
    Nat.length_toDigits_le_iff (by decide) hk
  generalize (Nat.toDigits 10 exact).length = length at *
  refine ⟨?_, (hiff (by omega)).mp (by omega)⟩
  obtain hone | hmore := Nat.eq_or_lt_of_le hlength
  · rw [← hone]
    exact hpos
  · by_contra hlt
    have hle := (hiff (by omega)).mpr (Nat.lt_of_not_le hlt)
    omega

/-- **How many digits the shortest decimal of a pattern has**: nothing that is rounded to the pattern has
fewer, and nothing with as many is nearer to the value of the pattern.

**Proof sketch.** Counted in steps of the last decimal place, the search finds a point of some grid. The number
of digits that the exact value has on this grid is the one in question. -/
theorem exists_fewest_digits {bits : Nat} (hbits : bits < infinity) (hpos : 0 < bits) :
    ∃ fewest,
      (∀ s t, (shortest bits).coefficient = s * 10 ^ t → ¬10 ∣ s → s < 10 ^ fewest) ∧
        ∀ count q, Decimal.HasDigits count q → q ∈ interval bits →
          fewest ≤ count ∧
            (count = fewest → |(shortest bits).value - value bits| ≤ |q - value bits|) := by
  have hexact : ((units bits * Nat.pow 5 finest : ℕ) : ℚ) ∈ countInterval bits :=
    (roundsTo_iff hbits _).mp (roundsTo_exact hbits.le)
  have hexact_pos := exact_pos hpos
  have hvalue := value_eq_div_pow_ten bits
  rw [shortest]
  generalize units bits * Nat.pow 5 finest = exact at *
  obtain ⟨hlow, hhigh⟩ := pow_le_of_length_toDigits hexact_pos
  generalize (Nat.toDigits 10 exact).length - 1 = top at *
  obtain ⟨found, h⟩ :=
    exists_found_shortestFrom (ordConnected_countInterval bits) hexact (roundsTo_iff hbits) top
  generalize shortestFrom (roundsTo bits) exact top = answer at *
  have hzero : (0 : ℚ) ∉ countInterval bits := by
    rw [← zero_mul (10 ^ finest), mul_mem_countInterval_iff]
    exact zero_not_mem_interval hpos
  refine ⟨top + 1 - found, fun s t hs hdvd => ?_, fun count q hq hmem => ?_⟩
  · obtain ⟨dropped, -, hcoefficient⟩ := Decimal.coefficient_reduced answer finest
    refine h.lt_pow hhigh (t := t + dropped) ?_ hdvd
    rw [← hcoefficient, hs, Nat.pow_add, Nat.mul_assoc]
  · obtain ⟨hle, hnearest⟩ :=
      h.le_of_hasDigits hlow hzero (hq.mul_pow finest) (mul_mem_countInterval_iff.mpr hmem)
    refine ⟨hle, fun hcount => ?_⟩
    have hq' : q = q * 10 ^ finest / 10 ^ finest :=
      (mul_div_cancel_right₀ _ (cast_pow_ten_pos finest).ne').symm
    rw [Decimal.value_reduced, hvalue, hq', ← sub_div, ← sub_div, abs_div, abs_div]
    exact div_le_div_of_nonneg_right (hnearest hcount) (abs_nonneg _)

end Binary64

namespace Number

/-! ## Texts of numbers -/

/-- A sign takes no digit. -/
theorem hasDigits_factor_mul (x : Number) {count : Nat} {q : ℚ} (h : Decimal.HasDigits count q) :
    Decimal.HasDigits count (x.factor * q) := by
  rw [factor]
  split
  · rw [neg_one_mul]
    exact h.neg
  · rw [one_mul]
    exact h

variable {x : Number}

/-- The digits of the text of a number stand for its shortest decimal. -/
theorem written_decimal (x : Number) :
    Decimal.written (x.decimal.whole ++ if x.decimal.fraction = [] then [] else '.' :: x.decimal.fraction) =
      x.decimal.value := by
  rw [Decimal.written_digits fun _ => Decimal.isDigit_of_mem_whole, Decimal.ofDigits_whole_fraction]

/-- All digits of the text of a number are digits. -/
theorem isDigit_decimal (x : Number) : ∀ c ∈ x.decimal.whole ++ x.decimal.fraction, c.isDigit := by
  intro c hc
  obtain hc | hc := List.mem_append.mp hc
  · exact Decimal.isDigit_of_mem_whole hc
  · exact Decimal.isDigit_of_mem_fraction hc

/-- The digits of the text of a number make up the coefficient of its shortest decimal. -/
theorem ofDigitChars_decimal (x : Number) :
    Nat.ofDigitChars 10 (x.decimal.whole ++ x.decimal.fraction) 0 = x.decimal.coefficient :=
  congrArg Decimal.coefficient (Decimal.ofDigits_whole_fraction x.decimal)

/-- The shortest decimal is rounded to the magnitude of the number. -/
theorem decimal_mem_interval (finite : x.Finite) : x.decimal.value ∈ Binary64.interval x.magnitude := by
  rw [Decimal.value_eq_div, ← Binary64.nearest_eq_iff (Binary64.pow_ten_pos _) finite]
  exact Binary64.nearest_shortest finite.le

/-- **A number is nearest to what its text shows.** -/
theorem isNearest_decimal (finite : x.Finite) : x.IsNearest (x.factor * x.decimal.value) := by
  have hsign : x.factor * (x.factor * x.decimal.value) = x.decimal.value := by
    rw [← mul_assoc, factor_mul_factor, one_mul]
  refine isNearest_of_mem_interval finite ?_ ?_ <;> rw [hsign]
  · exact x.decimal.value_nonneg
  · exact decimal_mem_interval finite

/-- The text of a number other than zero has significant digits. -/
theorem exists_significant_decimal (finite : x.Finite) (hpos : 0 < x.magnitude) :
    ∃ significant, Decimal.Significant (x.decimal.whole ++ x.decimal.fraction) significant := by
  refine Decimal.exists_significant ?_
  by_contra hzeros
  push Not at hzeros
  have hcoefficient := ofDigitChars_decimal x
  rw [List.eq_replicate_of_mem hzeros, Nat.ofDigitChars_replicate_zero, Nat.mul_zero] at hcoefficient
  have hvalue : x.decimal.value = 0 := by
    rw [Decimal.value, ← hcoefficient, Nat.cast_zero, zero_div]
  exact Binary64.zero_not_mem_interval hpos (hvalue ▸ decimal_mem_interval finite)

/-- **The text of a number is the shortest one.** It has a minus if the number has a sign, digits, and a point
with further digits if there are any; all digits but the significant ones are zeros. The number is nearest to
the decimal that the text shows. No decimal to which it is nearest has fewer significant digits, and none with
as many is nearer to the number than the one that is shown. -/
theorem display_shortest (finite : x.isFinite) (nonzero : x.value ≠ 0) :
    ∃ whole fraction significant : List Char,
      x.display.toList = (if x.signBit then ['-'] else []) ++ whole ++
        (if fraction = [] then [] else '.' :: fraction) ∧
      (∀ c ∈ whole ++ fraction, c.isDigit) ∧ Decimal.Significant (whole ++ fraction) significant ∧
      ∃ shown : ℚ,
        shown = x.factor * Decimal.written (whole ++ if fraction = [] then [] else '.' :: fraction) ∧
        x.IsNearest shown ∧
        IsLeast {count | ∃ q, Decimal.HasDigits count q ∧ x.IsNearest q} significant.length ∧
        ∀ q, Decimal.HasDigits significant.length q → x.IsNearest q →
          |shown - x.value| ≤ |q - x.value| := by
  rw [isFinite_iff] at finite
  have hpos : 0 < x.magnitude := by
    refine Nat.pos_of_ne_zero fun hzero => nonzero ?_
    rw [value_eq_factor_mul finite, hzero, Binary64.value_zero, mul_zero]
  obtain ⟨significant, hsignificant⟩ := exists_significant_decimal finite hpos
  obtain ⟨fewest, hfewest, hnearest⟩ := Binary64.exists_fewest_digits finite hpos
  have hdigits := isDigit_decimal x
  have hlength : significant.length ≤ fewest := by
    obtain ⟨behind, hcoefficient⟩ := hsignificant.exists_eq_mul_pow
    rw [ofDigitChars_decimal] at hcoefficient
    exact (hsignificant.length_le_iff hdigits).mpr
      (hfewest _ behind hcoefficient (hsignificant.not_ten_dvd hdigits))
  have hshown : Decimal.HasDigits significant.length (x.factor * x.decimal.value) := by
    have hvalue := hsignificant.hasDigits hdigits x.decimal.places
    rw [ofDigitChars_decimal] at hvalue
    exact hasDigits_factor_mul x hvalue
  refine ⟨_, _, significant, toList_display_of_finite finite, hdigits, hsignificant, _, ?_,
    isNearest_decimal finite, ⟨⟨_, hshown, isNearest_decimal finite⟩, ?_⟩, ?_⟩
  · rw [written_decimal]
  · rintro count ⟨q, hq, h⟩
    exact hlength.trans (hnearest count _ (hasDigits_factor_mul x hq) h.mem_interval).1
  · intro q hq h
    obtain ⟨hle, hcloser⟩ := hnearest _ _ (hasDigits_factor_mul x hq) h.mem_interval
    rw [abs_sub_value finite, abs_sub_value finite, ← mul_assoc, factor_mul_factor, one_mul]
    exact hcloser (Nat.le_antisymm hlength hle)

/-- The sum of the numbers nearest to one tenth and to two tenths has seventeen digits, and there is no
shorter decimal that is read back as this number. -/
theorem display_shortest_three_tenths :
    display (Float.ofBits 0x3fd3333333333334) = "0.30000000000000004" ∧
      IsLeast {count | ∃ q, Decimal.HasDigits count q ∧ IsNearest (Float.ofBits 0x3fd3333333333334) q} 17 := by
  have hdisplay : display (Float.ofBits 0x3fd3333333333334) = "0.30000000000000004" := by decide +kernel
  refine ⟨hdisplay, ?_⟩
  obtain ⟨whole, fraction, significant, htext, hdigits, hsignificant, -, -, -, hleast, -⟩ :=
    display_shortest (x := Float.ofBits 0x3fd3333333333334) (by decide +kernel) (by decide +kernel)
  have hrow : whole ++ fraction = "030000000000000004".toList := by
    obtain ⟨hwhole, hfraction⟩ := List.forall_mem_append.mp hdigits
    have hfilter := congrArg (List.filter Char.isDigit) htext
    have hpoint : ((if fraction = [] then [] else '.' :: fraction).filter Char.isDigit) = fraction := by
      split
      · next hnil => exact hnil.symm
      · rw [List.filter_cons_of_neg (by decide), List.filter_eq_self.mpr hfraction]
    have hpositive : signBit (Float.ofBits 0x3fd3333333333334) = false := by decide +kernel
    rw [hdisplay, List.filter_append, hpoint, hpositive, if_neg Bool.false_ne_true, List.nil_append,
      List.filter_eq_self.mpr hwhole] at hfilter
    rw [← hfilter]
    decide +kernel
  obtain ⟨behind, hvalue⟩ := hsignificant.exists_eq_mul_pow
  have hsum : Nat.ofDigitChars 10 (whole ++ fraction) 0 = 30000000000000004 := by
    rw [hrow]
    decide +kernel
  obtain rfl : behind = 0 := by
    by_contra hne
    have hdvd : 10 ∣ 30000000000000004 := by
      rw [← hsum, hvalue]
      exact (dvd_pow_self 10 hne).mul_left _
    exact absurd hdvd (by decide)
  rw [hsum, pow_zero, mul_one] at hvalue
  have hlength : significant.length = 17 := by
    refine Nat.le_antisymm ((hsignificant.length_le_iff hdigits).mpr (by rw [← hvalue]; decide)) ?_
    by_contra hlt
    have hle := (hsignificant.length_le_iff hdigits).mp (Nat.le_of_lt_succ (Nat.lt_of_not_le hlt))
    rw [← hvalue] at hle
    exact absurd hle (by decide)
  exact hlength ▸ hleast

end Number

end Lox

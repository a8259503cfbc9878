import Lox.Proofs.Decimal

set_option autoImplicit false

/-!
# Significant digits

The significant digits of a row of digits are what is left when the zeros at either end are dropped. How many
of them there are depends on the number alone for which the row stands: it is the number of digits that are
left if all factors of ten are taken out.

## Main definitions

* `Lox.Decimal.Significant` — the significant digits of a row of digits.
* `Lox.Decimal.HasDigits` — the fractions that can be written with some number of significant digits.

## Main results

* `Lox.Decimal.exists_significant` — a row of digits that are not all zeros has significant digits.
* `Lox.Decimal.Significant.length_le_iff` — how many significant digits a row has.
* `Lox.Decimal.Significant.hasDigits` — a row of digits with a point somewhere can be written with its
  significant digits.
-/

namespace Lox

namespace Decimal

/-- **The significant digits of a row of digits**: they begin and end with other digits than zero, and all
digits of the row in front of them and behind them are zeros. -/
structure Significant (digits significant : List Char) : Prop where
  /-- There is a significant digit. -/
  ne_nil : significant ≠ []
  /-- The first one is not zero. -/
  first : significant.head? ≠ some '0'
  /-- The last one is not zero. -/
  last : significant.getLast? ≠ some '0'
  /-- All other digits are zeros. -/
  zeros : ∃ before behind,
    digits = List.replicate before '0' ++ significant ++ List.replicate behind '0'

/-- **The fractions that can be written with `count` significant digits**, or with fewer. -/
def HasDigits (count : Nat) (q : ℚ) : Prop :=
  ∃ m e : ℤ, |m| < 10 ^ count ∧ q = m * 10 ^ e

variable {digits significant : List Char}

/-- **A row of digits that are not all zeros** has significant digits. -/
theorem exists_significant (h : ∃ c ∈ digits, c ≠ '0') : ∃ significant, Significant digits significant := by
  have hfront : digits.takeWhile (· == '0') ++ digits.dropWhile (· == '0') = digits :=
    List.takeWhile_append_dropWhile
  have hfirst : (digits.dropWhile (· == '0')).head? ≠ some '0' := by
    intro hzero
    have hhead := List.head?_dropWhile_not (· == '0') digits
    rw [hzero] at hhead
    cases hhead
  have hzeros : digits.takeWhile (· == '0') = List.replicate _ '0' :=
    List.eq_replicate_of_mem fun c hc => beq_iff_eq.mp (List.mem_takeWhile_imp (p := (· == '0')) hc)
  have hne : digits.dropWhile (· == '0') ≠ [] := by
    obtain ⟨c, hc, hcne⟩ := h
    intro hnil
    exact hcne (beq_iff_eq.mp (List.dropWhile_eq_nil_iff.mp hnil c hc))
  generalize digits.dropWhile (· == '0') = rest at *
  have hback : rest.rdropWhile (· == '0') ++ rest.rtakeWhile (· == '0') = rest :=
    List.rdropWhile_append_rtakeWhile
  have hzeros' : rest.rtakeWhile (· == '0') = List.replicate _ '0' :=
    List.eq_replicate_of_mem fun c hc => beq_iff_eq.mp (List.mem_rtakeWhile_imp (p := (· == '0')) hc)
  have hne' : rest.rdropWhile (· == '0') ≠ [] := by
    obtain ⟨c, cs, rfl⟩ := List.exists_cons_of_ne_nil hne
    intro hnil
    have hc := beq_iff_eq.mp (List.rdropWhile_eq_nil_iff.mp hnil c (.head _))
    exact hfirst (congrArg some hc)
  refine ⟨_, hne', ?_, ?_, (digits.takeWhile (· == '0')).length, (rest.rtakeWhile (· == '0')).length, ?_⟩
  · rw [← hback, List.head?_append_of_ne_nil _ hne'] at hfirst
    exact hfirst
  · rw [List.getLast?_eq_some_getLast hne']
    intro hlast
    exact List.rdropWhile_last_not (· == '0') rest hne' (beq_iff_eq.mpr (Option.some_inj.mp hlast))
  · rw [← hzeros', List.append_assoc, hback, ← hzeros, hfront]

/-! ## Digits and the numbers for which they stand -/

/-- What a digit stands for. -/
theorem digitValue_le {c : Char} (h : c.isDigit) : c.toNat - '0'.toNat ≤ 9 := by
  have hle := (Char.isDigit_iff_toNat.mp h).2
  have hzero : '0'.toNat = 48 := rfl
  have hnine : '9'.toNat = 57 := rfl
  omega

/-- A digit other than zero does not stand for zero. -/
theorem digitValue_pos {c : Char} (h : c.isDigit) (hne : c ≠ '0') : 0 < c.toNat - '0'.toNat := by
  have hle := (Char.isDigit_iff_toNat.mp h).1
  have hne' : c.toNat ≠ '0'.toNat := fun heq => hne (Char.toNat_inj.mp heq)
  omega

/-- As many digits do not stand for more than there are numbers with as many digits. -/
theorem ofDigitChars_lt (hdigits : ∀ c ∈ digits, c.isDigit) :
    Nat.ofDigitChars 10 digits 0 < 10 ^ digits.length := by
  induction digits with
  | nil => decide
  | cons c cs ih =>
    obtain ⟨hc, hcs⟩ := List.forall_mem_cons.mp hdigits
    have hrest := ih hcs
    have hvalue := Nat.mul_le_mul_left (10 ^ cs.length) (digitValue_le hc)
    rw [Nat.ofDigitChars_cons, Nat.ofDigitChars_eq_ofDigitChars_zero, Nat.mul_zero, Nat.zero_add,
      List.length_cons, Nat.pow_succ]
    omega

namespace Significant

/-- Taking out all factors of ten, what is left are the significant digits. -/
theorem exists_eq_mul_pow (h : Significant digits significant) :
    ∃ behind, Nat.ofDigitChars 10 digits 0 = Nat.ofDigitChars 10 significant 0 * 10 ^ behind := by
  obtain ⟨before, behind, rfl⟩ := h.zeros
  refine ⟨behind, ?_⟩
  rw [Nat.ofDigitChars_append, Nat.ofDigitChars_replicate_zero, Nat.ofDigitChars_append,
    Nat.ofDigitChars_replicate_zero, Nat.mul_zero, Nat.mul_comm]

/-- All significant digits belong to the row. -/
theorem isDigit (h : Significant digits significant) (hdigits : ∀ c ∈ digits, c.isDigit) :
    ∀ c ∈ significant, c.isDigit := by
  obtain ⟨before, behind, rfl⟩ := h.zeros
  exact fun c hc => hdigits c (List.mem_append_left _ (List.mem_append_right _ hc))

/-- **How many significant digits a row has.** -/
theorem length_le_iff (h : Significant digits significant) (hdigits : ∀ c ∈ digits, c.isDigit) {count : Nat} :
    significant.length ≤ count ↔ Nat.ofDigitChars 10 significant 0 < 10 ^ count := by
  have hlt := ofDigitChars_lt (h.isDigit hdigits)
  obtain ⟨c, cs, rfl⟩ := List.exists_cons_of_ne_nil h.ne_nil
  have hc : c.isDigit := h.isDigit hdigits c (.head _)
  have hpos := digitValue_pos hc fun heq => h.first (congrArg some heq)
  have hle : 10 ^ cs.length ≤ Nat.ofDigitChars 10 (c :: cs) 0 := by
    rw [Nat.ofDigitChars_cons, Nat.ofDigitChars_eq_ofDigitChars_zero, Nat.mul_zero, Nat.zero_add]
    exact Nat.le_add_right_of_le (Nat.le_mul_of_pos_right _ hpos)
  constructor
  · exact fun hcount => Nat.lt_of_lt_of_le hlt (Nat.pow_le_pow_right (by decide) hcount)
  · intro hcount
    exact (Nat.pow_lt_pow_iff_right (by decide)).mp (Nat.lt_of_le_of_lt hle hcount)

/-- No factor of ten is left in the significant digits. -/
theorem not_ten_dvd (h : Significant digits significant) (hdigits : ∀ c ∈ digits, c.isDigit) :
    ¬10 ∣ Nat.ofDigitChars 10 significant 0 := by
  obtain ⟨cs, c, rfl⟩ := (List.eq_nil_or_concat' significant).resolve_left h.ne_nil
  have hc : c.isDigit := h.isDigit hdigits c (by simp)
  have hlast := h.last
  rw [List.getLast?_concat] at hlast
  have hpos := digitValue_pos hc fun heq => hlast (congrArg some heq)
  have hle := digitValue_le hc
  rw [Nat.ofDigitChars_append, Nat.ofDigitChars_cons, Nat.ofDigitChars_nil]
  omega

/-- **A row of digits with a point somewhere can be written with its significant digits.** -/
theorem hasDigits (h : Significant digits significant) (hdigits : ∀ c ∈ digits, c.isDigit) (places : Nat) :
    HasDigits significant.length (Nat.ofDigitChars 10 digits 0 / 10 ^ places) := by
  obtain ⟨behind, hvalue⟩ := h.exists_eq_mul_pow
  refine ⟨Nat.ofDigitChars 10 significant 0, behind - places, ?_, ?_⟩
  · rw [Nat.abs_cast]
    exact_mod_cast (h.length_le_iff hdigits).mp le_rfl
  · rw [hvalue, zpow_sub₀ (by norm_num), zpow_natCast, zpow_natCast, Nat.cast_mul, Nat.cast_pow,
      Nat.cast_ofNat, Int.cast_natCast, mul_div_assoc]

end Significant

/-- A sign is no digit. -/
theorem HasDigits.neg {count : Nat} {q : ℚ} (h : HasDigits count q) : HasDigits count (-q) := by
  obtain ⟨m, e, hm, rfl⟩ := h
  exact ⟨-m, e, by rwa [abs_neg], by rw [Int.cast_neg, neg_mul]⟩

/-- A power of ten has no digits of its own. -/
theorem HasDigits.mul_pow {count : Nat} {q : ℚ} (h : HasDigits count q) (places : Nat) :
    HasDigits count (q * 10 ^ places) := by
  obtain ⟨m, e, hm, rfl⟩ := h
  exact ⟨m, e + places, hm, by rw [zpow_add₀ (by norm_num), zpow_natCast, mul_assoc]⟩

end Decimal

end Lox

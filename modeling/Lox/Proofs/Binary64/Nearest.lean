import Lox.Binary64
import Mathlib

set_option autoImplicit false

/-!
# Rounding representable values

Patterns are ordered like their values, and `floor` finds the pattern of a value. A fraction that is
the value of some pattern is therefore rounded to this very pattern, and the way in which the
fraction is written does not matter.

## Main results

* `Lox.Binary64.units_lt_units_succ` — the next pattern has a greater value.
* `Lox.Binary64.floor_units` — the last pattern up to the value of a pattern is this pattern.
* `Lox.Binary64.nearest_of_exact` — a representable value is rounded to its pattern.
* `Lox.Binary64.nearest_mul_right` — a common factor of both sides of a fraction does not matter.
-/

namespace Lox

namespace Binary64

/-! ## The values of patterns -/

/-- A pattern in the first binade is its own value. -/
theorem units_of_lt {bits : Nat} (h : bits < binade) : units bits = bits := by
  rw [units, if_pos h]

/-- A later pattern, from the number of its binade and its place there. -/
theorem units_of_place {q r : Nat} (hr : r < binade) :
    units ((q + 1) * binade + r) = (binade + r) * 2 ^ q := by
  have hbinade : 0 < binade := by decide
  have hquot : ((q + 1) * binade + r) / binade = q + 1 := by
    rw [Nat.mul_comm, Nat.mul_add_div hbinade, Nat.div_eq_of_lt hr, Nat.add_zero]
  have hmod : ((q + 1) * binade + r) % binade = r := by
    rw [Nat.mul_comm, Nat.mul_add_mod, Nat.mod_eq_of_lt hr]
  have hle : ¬(q + 1) * binade + r < binade := by
    have hone : binade ≤ (q + 1) * binade := Nat.le_mul_of_pos_left binade (Nat.succ_pos q)
    omega
  rw [units, if_neg hle, hquot, hmod, Nat.shiftLeft_eq, Nat.add_sub_cancel]

/-- A pattern stands in the first binade, or at some place of a later one. -/
theorem lt_binade_or_eq_place (bits : Nat) :
    bits < binade ∨ ∃ q r, r < binade ∧ bits = (q + 1) * binade + r := by
  by_cases h : bits < binade
  · exact .inl h
  · refine .inr ⟨bits / binade - 1, bits % binade, Nat.mod_lt _ (by decide), ?_⟩
    have hpos : 0 < bits / binade := Nat.div_pos (Nat.le_of_not_lt h) (by decide)
    rw [Nat.sub_add_cancel hpos, Nat.mul_comm, Nat.div_add_mod]

/-- **The next pattern has a greater value**, within a binade by one step, and at its end since the
next binade begins at twice the value at which this one does. -/
theorem units_lt_units_succ (bits : Nat) : units bits < units (bits + 1) := by
  obtain h | ⟨q, r, hr, rfl⟩ := lt_binade_or_eq_place bits
  · by_cases hnext : bits + 1 < binade
    · rw [units_of_lt h, units_of_lt hnext]
      omega
    · obtain hlast : bits + 1 = (0 + 1) * binade + 0 := by omega
      rw [hlast, units_of_place (by decide), units_of_lt h]
      omega
  · have hstep : 0 < 2 ^ q := Nat.two_pow_pos q
    rw [units_of_place hr]
    by_cases hnext : r + 1 < binade
    · rw [Nat.add_assoc, units_of_place hnext]
      exact Nat.mul_lt_mul_of_pos_right (by omega) hstep
    · have hlast : (q + 1) * binade + r + 1 = (q + 1 + 1) * binade + 0 := by
        rw [Nat.add_mul (q + 1)]
        omega
      rw [hlast, units_of_place (by decide), Nat.pow_succ, ← Nat.mul_assoc, Nat.mul_right_comm]
      exact Nat.mul_lt_mul_of_pos_right (by omega) hstep

/-- Patterns are ordered like their values. -/
theorem units_strictMono : StrictMono units :=
  strictMono_nat_of_lt_succ units_lt_units_succ

/-- **The last pattern up to the value of a pattern** is this pattern: the value has 53 binary digits,
and as many more as the step of its binade drops. -/
theorem floor_units (bits : Nat) : floor (units bits) = bits := by
  obtain h | ⟨q, r, hr, rfl⟩ := lt_binade_or_eq_place bits
  · have hlog : bits.log2 - 52 = 0 := by
      by_cases hzero : bits = 0
      · rw [hzero]; rfl
      · have hlt : bits.log2 < 52 := (Nat.log2_lt hzero).mpr h
        omega
    simp [floor, units_of_lt h, hlog]
  · have hlog : ((binade + r) * 2 ^ q).log2 = 52 + q := by
      have hbounds : 2 ^ 52 ≤ binade + r ∧ binade + r < 2 ^ 53 := by
        simp only [binade] at hr ⊢
        omega
      have hpos : 0 < 2 ^ q := Nat.two_pow_pos q
      rw [Nat.log2_eq_iff (Nat.mul_ne_zero (by omega) hpos.ne'), Nat.add_right_comm, Nat.pow_add,
        Nat.pow_add]
      exact ⟨Nat.mul_le_mul_right _ hbounds.1, Nat.mul_lt_mul_of_pos_right hbounds.2 hpos⟩
    have hdropped : ((binade + r) * 2 ^ q) >>> q = binade + r := by
      rw [Nat.shiftRight_eq_div_pow, Nat.mul_div_cancel _ (Nat.two_pow_pos q)]
    rw [units_of_place hr, floor, hlog, Nat.add_sub_cancel_left, hdropped, Nat.add_mul]
    omega

/-! ## Rounding -/

/-- No rounding goes beyond infinity. -/
theorem nearest_le_infinity (num den : Nat) : nearest num den ≤ infinity :=
  Nat.min_le_left _ _

/-- **A representable value is rounded to its pattern**: there is nothing left below, and something
above. -/
theorem nearest_of_exact {num den bits : Nat} (hden : 0 < den)
    (hexact : num <<< finest = units bits * den) (hbits : bits ≤ infinity) :
    nearest num den = bits := by
  have hbelow : floor (num <<< finest / den) = bits := by
    rw [hexact, Nat.mul_div_cancel _ hden, floor_units]
  have hdown : num <<< finest - units bits * den = 0 := by
    rw [hexact, Nat.sub_self]
  have hup : 0 < units (bits + 1) * den - num <<< finest := by
    rw [hexact]
    exact Nat.sub_pos_of_lt (Nat.mul_lt_mul_of_pos_right (units_lt_units_succ bits) hden)
  simp only [nearest, hbelow, hdown, if_pos (Or.inl hup), Nat.min_eq_right hbits]

/-- **A common factor does not matter** to the rounding of a fraction. -/
theorem nearest_mul_right {k : Nat} (hk : 0 < k) (num den : Nat) :
    nearest (num * k) (den * k) = nearest num den := by
  have hexact : (num * k) <<< finest = num <<< finest * k := by
    rw [Nat.shiftLeft_eq, Nat.shiftLeft_eq, Nat.mul_right_comm]
  have hscale : ∀ a b c : Nat, a * (b * k) - c * k = (a * b - c) * k := fun a b c => by
    rw [← Nat.mul_assoc, Nat.sub_mul]
  have hscale' : ∀ a b c : Nat, c * k - a * (b * k) = (c - a * b) * k := fun a b c => by
    rw [← Nat.mul_assoc, Nat.sub_mul]
  simp only [nearest, hexact, Nat.mul_div_mul_right _ _ hk, hscale, hscale',
    Nat.mul_lt_mul_right hk, Nat.mul_left_inj hk.ne']

end Binary64

end Lox

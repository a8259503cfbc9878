import Lox.Proofs.Binary64.Shortest

set_option autoImplicit false

/-!
# Whole values

From `2 ^ 52` on all magnitudes are whole, and up to `2 ^ 53` all whole numbers are magnitudes. A
whole number is therefore never rounded to a fraction, and the search for the shortest decimal of a
whole magnitude, which looks at whole numbers first, never comes to a grid with places behind the
point.

## Main results

* `Lox.Binary64.units_floor` — the value of the last pattern up to some value.
* `Lox.Binary64.dvd_units_nearest` — a whole number is rounded to a whole magnitude.
* `Lox.Binary64.places_shortest_eq_zero_iff` — the shortest decimal of a magnitude has no places if and
  only if the magnitude is whole.
-/

namespace Lox

namespace Binary64

/-! ## The last pattern up to a value -/

/-- A pattern from its leading binary digits, 53 at most, and the number `dropped` of digits behind
them. There are none unless all 53 digits are taken up. -/
theorem units_of_digits {dropped digits : Nat} (hlt : digits < 2 * binade)
    (hle : 0 < dropped → binade ≤ digits) :
    units (dropped * binade + digits) = digits * 2 ^ dropped := by
  by_cases h : digits < binade
  · obtain rfl : dropped = 0 := by
      by_contra hne
      exact Nat.not_le_of_lt h (hle (Nat.pos_of_ne_zero hne))
    rw [Nat.zero_mul, Nat.zero_add, units_of_lt h, Nat.pow_zero, Nat.mul_one]
  · obtain ⟨r, rfl⟩ : ∃ r, digits = binade + r := ⟨digits - binade, by omega⟩
    have hplace : dropped * binade + (binade + r) = (dropped + 1) * binade + r := by
      rw [Nat.add_mul]
      omega
    rw [hplace, units_of_place (by omega)]

/-- There are 53 leading binary digits at most. -/
theorem leading_lt (count : Nat) : count / 2 ^ (count.log2 - 52) < 2 * binade := by
  have hlog : count < 2 ^ (count.log2 + 1) := Nat.lt_log2_self
  have hpow : 2 ^ (count.log2 + 1) ≤ 2 ^ (53 + (count.log2 - 52)) :=
    Nat.pow_le_pow_right (by decide) (by omega)
  rw [Nat.pow_add 2 53] at hpow
  exact (Nat.div_lt_iff_lt_mul (Nat.two_pow_pos _)).mpr (Nat.lt_of_lt_of_le hlog hpow)

/-- There are no fewer leading binary digits than 53 in what has that many digits. -/
theorem binade_le_leading {count : Nat} (h : 52 ≤ count.log2) :
    binade ≤ count / 2 ^ (count.log2 - 52) := by
  have hcount : count ≠ 0 := by
    rintro rfl
    rw [Nat.log2_zero] at h
    omega
  have hpow : 2 ^ (52 + (count.log2 - 52)) ≤ count := by
    rw [Nat.add_sub_cancel' h]
    exact Nat.log2_self_le hcount
  rw [Nat.pow_add] at hpow
  exact (Nat.le_div_iff_mul_le (Nat.two_pow_pos _)).mpr hpow

/-- **The value of the last pattern up to some value** has the 53 leading binary digits of that value,
and zeros behind them. -/
theorem units_floor (count : Nat) :
    units (floor count) = count / 2 ^ (count.log2 - 52) * 2 ^ (count.log2 - 52) := by
  rw [floor, Nat.shiftRight_eq_div_pow]
  exact units_of_digits (leading_lt count) fun hpos => binade_le_leading (by omega)

/-! ## Whole magnitudes -/

/-- From the binade on in which the steps are `2 ^ n`, all magnitudes are counts of such steps. -/
theorem two_pow_dvd_units {n bits : Nat} (h : n * binade + binade ≤ bits) : 2 ^ n ∣ units bits := by
  obtain hlt | ⟨q, r, hr, rfl⟩ := lt_binade_or_eq_place bits
  · omega
  · have hq : n ≤ q := by
      by_contra hlt
      have hnext : (q + 1) * binade ≤ n * binade := Nat.mul_le_mul_right binade (by omega)
      omega
    rw [units_of_place hr]
    exact (Nat.pow_dvd_pow 2 hq).mul_left _

/-- Up to `2 ^ 53` all counts of steps of `2 ^ n` are magnitudes. -/
theorem units_floor_of_lt {k : Nat} (h : k < 2 ^ 53) (n : Nat) :
    units (floor (k <<< n)) = k <<< n := by
  have hdropped : (k <<< n).log2 - 52 ≤ n := by
    by_cases hzero : k <<< n = 0
    · rw [hzero, Nat.log2_zero]
      exact Nat.zero_le _
    · have hlt : k <<< n < 2 ^ (53 + n) := by
        rw [Nat.shiftLeft_eq, Nat.pow_add]
        exact Nat.mul_lt_mul_of_pos_right h (Nat.two_pow_pos n)
      have hlog := (Nat.log2_lt hzero).mpr hlt
      omega
  have hdvd : 2 ^ ((k <<< n).log2 - 52) ∣ k <<< n := by
    conv_rhs => rw [Nat.shiftLeft_eq]
    exact Nat.dvd_mul_left_of_dvd (Nat.pow_dvd_pow 2 hdropped) k
  rw [units_floor, Nat.div_mul_cancel hdvd]

/-- Up to `2 ^ 53`, the last pattern up to a count of steps of `2 ^ n` lies below the second binade in
which all magnitudes are such counts. -/
theorem floor_shiftLeft_lt {k : Nat} (h : k < 2 ^ 53) (n : Nat) :
    floor (k <<< n) < (n + 1) * binade + binade := by
  refine units_strictMono.lt_iff_lt.mp ?_
  have hnext : units ((n + 1) * binade + binade) = 2 ^ 53 * 2 ^ n := by
    rw [units_of_digits (by decide) (fun _ => Nat.le_refl _), Nat.pow_succ', ← Nat.mul_assoc]
    rfl
  rw [units_floor_of_lt h, hnext, Nat.shiftLeft_eq]
  exact Nat.mul_lt_mul_of_pos_right h (Nat.two_pow_pos n)

/-- From `2 ^ 52` on, the last pattern up to a count of steps of `2 ^ n` lies in a binade in which the
steps are not smaller. -/
theorem le_floor_shiftLeft {k : Nat} (h : 2 ^ 52 ≤ k) (n : Nat) :
    n * binade + binade ≤ floor (k <<< n) := by
  have hpow : 2 ^ (52 + n) ≤ k <<< n := by
    rw [Nat.shiftLeft_eq, Nat.pow_add]
    exact Nat.mul_le_mul_right _ h
  have hne : k <<< n ≠ 0 := by
    have hpos := Nat.two_pow_pos (52 + n)
    omega
  have hlog : 52 + n ≤ (k <<< n).log2 := (Nat.le_log2 hne).mpr hpow
  rw [floor, Nat.shiftRight_eq_div_pow]
  exact Nat.add_le_add (Nat.mul_le_mul_right _ (by omega)) (binade_le_leading (by omega))

/-- **A whole number is rounded to a whole magnitude**: up to `2 ^ 53` it is rounded to itself, and from
there on there are no fractions to round to. -/
theorem dvd_units_nearest (k : Nat) : 2 ^ finest ∣ units (nearest k 1) := by
  have hinfinity : (finest + 1) * binade + binade ≤ infinity := by decide
  rw [Nat.succ_mul] at hinfinity
  by_cases h : k < 2 ^ 53
  · have hexact : k <<< finest = units (floor (k <<< finest)) * 1 := by
      rw [units_floor_of_lt h, Nat.mul_one]
    have hlt := floor_shiftLeft_lt h finest
    rw [Nat.succ_mul] at hlt
    have hbits : floor (k <<< finest) ≤ infinity := by omega
    rw [nearest_of_exact Nat.one_pos hexact hbits, units_floor_of_lt h, Nat.shiftLeft_eq]
    exact Nat.dvd_mul_left _ _
  · have hfloor : finest * binade + binade ≤ floor (k <<< finest) := le_floor_shiftLeft (by omega) _
    refine two_pow_dvd_units (Nat.le_min.mpr ⟨by omega, ?_⟩)
    rw [Nat.div_one]
    split <;> omega

/-! ## Shortest decimals of whole magnitudes -/

/-- A decimal of a whole number needs no places. -/
theorem places_reduced_of_dvd {coefficient places : Nat} (h : 10 ^ places ∣ coefficient) :
    (Decimal.reduced coefficient places).places = 0 := by
  induction places generalizing coefficient with
  | zero => rfl
  | succ places ih =>
    obtain ⟨m, rfl⟩ := h
    rw [Nat.pow_succ, Nat.mul_right_comm, Decimal.reduced, if_pos (Nat.mul_mod_left _ _),
      Nat.mul_div_cancel _ (by decide)]
    exact ih (Nat.dvd_mul_right _ _)

/-- **The search never goes beyond a grid on which the exact value lies.** -/
theorem pow_dvd_shortestFrom {accepts : Nat → Bool} {exact n : Nat} (h : accepts exact)
    (hdvd : 10 ^ n ∣ exact) {scale : Nat} (hscale : n ≤ scale) :
    10 ^ n ∣ shortestFrom accepts exact scale := by
  induction scale with
  | zero => exact hdvd
  | succ scale ih =>
    have hstep : 10 ^ n ∣ Nat.pow 10 (scale + 1) := Nat.pow_dvd_pow 10 hscale
    have hlower : 10 ^ n ∣ exact / Nat.pow 10 (scale + 1) * Nat.pow 10 (scale + 1) :=
      Dvd.dvd.mul_left hstep _
    have hupper := Nat.dvd_add hlower hstep
    have hfirst : ¬n ≤ scale → accepts (exact / Nat.pow 10 (scale + 1) * Nat.pow 10 (scale + 1)) := by
      intro hlt
      obtain rfl : n = scale + 1 := by omega
      have hexact : exact / Nat.pow 10 (scale + 1) * Nat.pow 10 (scale + 1) = exact :=
        Nat.div_mul_cancel hdvd
      rwa [hexact]
    rw [shortestFrom]
    split
    · split
      · exact hlower
      · exact hupper
    · exact hlower
    · exact hupper
    · next hnone _ =>
      refine ih ?_
      by_contra hlt
      rw [hfirst hlt] at hnone
      cases hnone

/-- A count of `2 ^ -n` that is whole is a whole number too when counted in steps of `10 ^ -n`. -/
theorem pow_ten_dvd_mul_pow_five {count n : Nat} (h : 2 ^ n ∣ count) :
    10 ^ n ∣ count * Nat.pow 5 n := by
  have hten : 10 ^ n = 2 ^ n * Nat.pow 5 n := Nat.mul_pow 2 5 n
  rw [hten]
  exact Nat.mul_dvd_mul_right h _

/-- The shortest decimal of a whole magnitude has no places. -/
theorem places_shortest_of_dvd {bits : Nat} (h : bits ≤ infinity) (hdvd : 2 ^ finest ∣ units bits) :
    (shortest bits).places = 0 := by
  have hexact : 10 ^ finest ∣ units bits * Nat.pow 5 finest := pow_ten_dvd_mul_pow_five hdvd
  refine places_reduced_of_dvd ?_
  by_cases hscale : finest ≤ (Nat.toDigits 10 (units bits * Nat.pow 5 finest)).length - 1
  · exact pow_dvd_shortestFrom (roundsTo_exact h) hexact hscale
  · have hlt : units bits * Nat.pow 5 finest < 10 ^ finest :=
      (Nat.length_toDigits_le_iff (by decide) (by decide)).mp (by omega)
    have hzero := Nat.eq_zero_of_dvd_of_lt hexact hlt
    rw [hzero]
    exact Nat.dvd_zero _

/-- **The shortest decimal of a magnitude has no places if and only if the magnitude is whole.** -/
theorem places_shortest_eq_zero_iff {bits : Nat} (h : bits ≤ infinity) :
    (shortest bits).places = 0 ↔ 2 ^ finest ∣ units bits := by
  refine ⟨fun hplaces => ?_, places_shortest_of_dvd h⟩
  have hround := nearest_shortest h
  rw [hplaces] at hround
  rw [← hround]
  exact dvd_units_nearest _

end Binary64

end Lox

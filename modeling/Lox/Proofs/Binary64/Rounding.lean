import Lox.Proofs.Binary64.Whole

set_option autoImplicit false

/-!
# Where rounding changes

A fraction is rounded to a pattern or to an earlier one as long as it does not go beyond the middle
between the value of the pattern and that of the next one. The middle itself belongs to the even pattern.
The fractions that are rounded to one pattern are therefore those between two such middles: rounding keeps
the order, and what lies between two fractions that are rounded to a pattern is rounded to it as well. Up
to the middle behind the last finite pattern, to which pattern a fraction is rounded is a matter of distances
alone.

## Main definitions

* `Lox.Binary64.value` — the value of a pattern as a fraction.
* `Lox.Binary64.midpoint` — the middle between the values of a pattern and of the next one.
* `Lox.Binary64.AtMost` — the fractions that are not rounded beyond a pattern.
* `Lox.Binary64.interval` — the fractions that are rounded to a pattern.
* `Lox.Binary64.Closest` — no finite pattern is nearer to a fraction.

## Main results

* `Lox.Binary64.nearest_le_iff` — where rounding goes beyond a pattern.
* `Lox.Binary64.nearest_eq_iff` — which fractions are rounded to a pattern.
* `Lox.Binary64.nearest_mono` — rounding keeps the order.
* `Lox.Binary64.ordConnected_interval` — the fractions that are rounded to a pattern lie together.
* `Lox.Binary64.closest_of_mem_interval`, `Lox.Binary64.mem_interval_of_closest` — a fraction is rounded to the
  nearest pattern.
* `Lox.Binary64.atMost_zero_iff`, `Lox.Binary64.atMost_last_iff` — what is rounded to zero, and what is not
  rounded to infinity.
-/

namespace Lox

namespace Binary64

/-! ## The patterns around a value -/

/-- The last pattern up to some value has no greater value. -/
theorem units_floor_le (count : Nat) : units (floor count) ≤ count := by
  rw [units_floor]
  exact Nat.div_mul_le_self _ _

/-- **The pattern behind the last one up to some value** has a greater value.

**Proof sketch.** One more in the last of the leading digits is too much. If this makes a further digit, the
pattern is the first one of the next binade. -/
theorem lt_units_floor_succ (count : Nat) : count < units (floor count + 1) := by
  have hlt := leading_lt count
  have hle : 0 < count.log2 - 52 → binade ≤ count / 2 ^ (count.log2 - 52) :=
    fun hpos => binade_le_leading (by omega)
  have hsucc : count < (count / 2 ^ (count.log2 - 52) + 1) * 2 ^ (count.log2 - 52) :=
    Nat.lt_mul_of_div_lt (Nat.lt_succ_self _) (Nat.two_pow_pos _)
  rw [floor, Nat.shiftRight_eq_div_pow]
  generalize count.log2 - 52 = dropped at *
  generalize count / 2 ^ dropped = digits at *
  refine Nat.lt_of_lt_of_eq hsucc ?_
  by_cases h : digits + 1 < 2 * binade
  · rw [Nat.add_assoc, units_of_digits h fun hpos => Nat.le_succ_of_le (hle hpos)]
  · have hlast : dropped * binade + digits + 1 = (dropped + 1) * binade + binade := by
      rw [Nat.add_mul]
      omega
    have hdigits : digits + 1 = 2 * binade := by omega
    rw [hlast, units_of_digits (by decide) fun _ => Nat.le_refl _, hdigits, Nat.pow_succ, Nat.mul_comm 2,
      Nat.mul_assoc, Nat.mul_comm 2]

/-! ## Going beyond a pattern -/

/-- Where rounding goes beyond a finite pattern, in smallest steps.

**Proof sketch.** The last pattern up to the fraction is compared with the given one. If it is earlier, so
is the rounded one, or it is the given one; if it is later, so is the rounded one. If it is the given one,
the rule for the nearest pattern decides. -/
theorem nearest_le_iff_units {num den bits : Nat} (hden : 0 < den) (hbits : bits < infinity) :
    nearest num den ≤ bits ↔
      2 * num <<< finest < (units bits + units (bits + 1)) * den ∨
        2 * num <<< finest = (units bits + units (bits + 1)) * den ∧ bits % 2 = 0 := by
  have hbelow : units (floor (num <<< finest / den)) * den ≤ num <<< finest :=
    (Nat.le_div_iff_mul_le hden).mp (units_floor_le _)
  have habove : num <<< finest < units (floor (num <<< finest / den) + 1) * den :=
    (Nat.div_lt_iff_lt_mul hden).mp (lt_units_floor_succ _)
  rw [nearest, Nat.add_mul]
  generalize num <<< finest = exact at *
  generalize floor (exact / den) = below at *
  have mono {a b : Nat} (h : a ≤ b) : units a * den ≤ units b * den :=
    Nat.mul_le_mul_right den (units_strictMono.monotone h)
  have hstep : units bits * den < units (bits + 1) * den :=
    Nat.mul_lt_mul_of_pos_right (units_lt_units_succ bits) hden
  have hmin (a : Nat) : min infinity a ≤ bits ↔ a ≤ bits := by
    rw [min_le_iff, or_iff_right (Nat.not_le_of_lt hbits)]
  rw [hmin]
  obtain hlt | rfl | hgt := Nat.lt_trichotomy bits below
  · have hnext : units (bits + 1) * den ≤ units below * den := mono hlt
    split <;> omega
  · split <;> omega
  · have hnext : units (below + 1) * den ≤ units bits * den := mono hgt
    split <;> omega

/-! ## Fractions -/

/-- The value of a pattern as a fraction. -/
def value (bits : Nat) : ℚ :=
  units bits / 2 ^ finest

/-- The middle between the value of a pattern and that of the next one. -/
def midpoint (bits : Nat) : ℚ :=
  (value bits + value (bits + 1)) / 2

/-- **The fractions that are not rounded beyond a pattern**: those below the middle to the next pattern, and
the middle itself if the pattern is even. -/
def AtMost (bits : Nat) (q : ℚ) : Prop :=
  q < midpoint bits ∨ q = midpoint bits ∧ bits % 2 = 0

/-- **The fractions that are rounded to a pattern**: those that are not rounded beyond it, but beyond each
earlier one. -/
def interval (bits : Nat) : Set ℚ :=
  { q | AtMost bits q ∧ ∀ c < bits, ¬AtMost c q }

/-- Patterns are ordered like their values as fractions. -/
theorem value_strictMono : StrictMono value := by
  intro a b h
  have hpos : (0 : ℚ) < 2 ^ finest := pow_pos two_pos _
  rw [value, value, div_lt_div_iff_of_pos_right hpos, Nat.cast_lt]
  exact units_strictMono h

/-- The first pattern has the value zero. -/
theorem value_zero : value 0 = 0 := by
  rw [value, units_of_lt (by decide), Nat.cast_zero, zero_div]

/-- No pattern has a negative value. -/
theorem value_nonneg (bits : Nat) : 0 ≤ value bits := by
  rw [← value_zero]
  exact value_strictMono.monotone (Nat.zero_le bits)

/-- A pattern lies before the middle to the next one. -/
theorem value_lt_midpoint (bits : Nat) : value bits < midpoint bits := by
  have hstep := value_strictMono (Nat.lt_succ_self bits)
  rw [midpoint]
  linarith

/-- The middle to the next pattern lies before that pattern. -/
theorem midpoint_lt_value (bits : Nat) : midpoint bits < value (bits + 1) := by
  have hstep := value_strictMono (Nat.lt_succ_self bits)
  rw [midpoint]
  linarith

/-- **Where rounding goes beyond a finite pattern.** -/
theorem nearest_le_iff {num den bits : Nat} (hden : 0 < den) (hbits : bits < infinity) :
    nearest num den ≤ bits ↔ AtMost bits (num / den : ℚ) := by
  have hden' : (0 : ℚ) < den := Nat.cast_pos.mpr hden
  have hpos : (0 : ℚ) < 2 ^ finest := pow_pos two_pos _
  have hmidpoint : midpoint bits = (units bits + units (bits + 1)) / (2 * 2 ^ finest) := by
    rw [midpoint, value, value, ← add_div, div_div, mul_comm]
  have hnum : ((2 * num <<< finest : ℕ) : ℚ) = num * (2 * 2 ^ finest) := by
    rw [Nat.shiftLeft_eq]
    push_cast
    ring
  rw [nearest_le_iff_units hden hbits, AtMost, hmidpoint, div_lt_div_iff₀ hden' (by positivity),
    div_eq_div_iff hden'.ne' (by positivity), ← hnum, ← Nat.cast_add, ← Nat.cast_mul, Nat.cast_lt,
    Nat.cast_inj]

/-- A smaller fraction is not rounded beyond a pattern beyond which a greater one is not rounded. -/
theorem AtMost.mono {bits : Nat} {p q : ℚ} (h : AtMost bits q) (hle : p ≤ q) : AtMost bits p := by
  obtain hlt | ⟨heq, heven⟩ := h
  · exact .inl (lt_of_le_of_lt hle hlt)
  · obtain hlt | rfl := lt_or_eq_of_le hle
    · exact .inl (heq ▸ hlt)
    · exact .inr ⟨heq, heven⟩

/-- **Which fractions are rounded to a finite pattern.** -/
theorem nearest_eq_iff {num den bits : Nat} (hden : 0 < den) (hbits : bits < infinity) :
    nearest num den = bits ↔ (num / den : ℚ) ∈ interval bits := by
  have hearlier (c : Nat) (hc : c < bits) :
      ¬AtMost c (num / den : ℚ) ↔ c < nearest num den := by
    rw [← nearest_le_iff hden (hc.trans hbits), Nat.not_le]
  show nearest num den = bits ↔ AtMost bits _ ∧ ∀ c < bits, ¬AtMost c _
  rw [← nearest_le_iff hden hbits]
  constructor
  · rintro rfl
    exact ⟨le_rfl, fun c hc => (hearlier c hc).mpr hc⟩
  · rintro ⟨hle, h⟩
    refine Nat.le_antisymm hle (Nat.le_of_not_lt fun hlt => ?_)
    exact Nat.lt_irrefl _ ((hearlier _ hlt).mp (h _ hlt))

/-- **Rounding keeps the order.** -/
theorem nearest_mono {num den num' den' : Nat} (hden : 0 < den) (hden' : 0 < den')
    (hle : (num / den : ℚ) ≤ num' / den') : nearest num den ≤ nearest num' den' := by
  by_cases hlt : nearest num' den' < infinity
  · exact (nearest_le_iff hden hlt).mpr (((nearest_le_iff hden' hlt).mp le_rfl).mono hle)
  · exact (nearest_le_infinity num den).trans (Nat.le_of_not_lt hlt)

/-- **The fractions that are rounded to a pattern lie together.** -/
theorem ordConnected_interval (bits : Nat) : (interval bits).OrdConnected := by
  refine ⟨fun p hp r hr q hq => ⟨hr.1.mono hq.2, fun c hc hatMost => ?_⟩⟩
  exact hp.2 c hc (hatMost.mono hq.1)

/-- Zero is rounded to the pattern zero only. -/
theorem zero_not_mem_interval {bits : Nat} (hpos : 0 < bits) : (0 : ℚ) ∉ interval bits := by
  intro h
  refine h.2 0 hpos (.inl ?_)
  rw [← value_zero]
  exact value_lt_midpoint 0

variable {bits : Nat} {q : ℚ}

/-! ## Distances between patterns and fractions -/

/-- The smaller of two values is the nearer one up to the middle between them. -/
theorem abs_sub_le_abs_sub_iff_le {q a b : ℚ} (h : a < b) : |q - a| ≤ |q - b| ↔ q ≤ (a + b) / 2 := by
  have hsquares : (q - b) ^ 2 - (q - a) ^ 2 = 2 * (b - a) * ((a + b) / 2 - q) := by ring
  rw [← sq_le_sq, ← sub_nonneg, hsquares, mul_nonneg_iff_of_pos_left (by linarith), sub_nonneg]

/-- The greater of two values is the nearer one from the middle between them on. -/
theorem abs_sub_le_abs_sub_iff_ge {q a b : ℚ} (h : a < b) : |q - b| ≤ |q - a| ↔ (a + b) / 2 ≤ q := by
  have hsquares : (q - a) ^ 2 - (q - b) ^ 2 = 2 * (b - a) * (q - (a + b) / 2) := by ring
  rw [← sq_le_sq, ← sub_nonneg, hsquares, mul_nonneg_iff_of_pos_left (by linarith), sub_nonneg]

/-- **No finite pattern is nearer to a fraction** than a given one, and if another one is as near, the given
one is even. -/
def Closest (bits : Nat) (q : ℚ) : Prop :=
  ∀ other < infinity, |q - value bits| ≤ |q - value other| ∧
    (other ≠ bits → |q - value other| = |q - value bits| → bits % 2 = 0)

/-- **No pattern is nearer to a fraction than the one to which it is rounded.**

**Proof sketch.** Let the other pattern be a later one. The fraction does not lie behind the middle to the
next pattern, and therefore not behind the middle to any later one; at such a middle it can lie only if this
is the middle to the next pattern. An earlier pattern is the mirror image. -/
theorem closest_of_mem_interval (h : q ∈ interval bits) : Closest bits q := by
  obtain ⟨hatMost, hbeyond⟩ := h
  intro other _
  obtain hlt | rfl | hgt := Nat.lt_trichotomy other bits
  · obtain ⟨previous, rfl⟩ := Nat.exists_eq_succ_of_ne_zero (Nat.ne_zero_of_lt hlt)
    have hother : value other ≤ value previous := value_strictMono.monotone (Nat.le_of_lt_succ hlt)
    have hprevious := hbeyond previous (Nat.lt_succ_self previous)
    rw [AtMost, not_or, not_lt, not_and, midpoint] at hprevious
    rw [abs_sub_le_abs_sub_iff_ge (value_strictMono hlt)]
    refine ⟨by linarith, fun _ htie => ?_⟩
    have hmiddle := (abs_sub_le_abs_sub_iff_le (value_strictMono hlt)).mp htie.le
    have hodd := hprevious.2 (le_antisymm (by linarith) hprevious.1)
    omega
  · exact ⟨le_rfl, fun hne => absurd rfl hne⟩
  · have hother : value (bits + 1) ≤ value other := value_strictMono.monotone hgt
    rw [AtMost, midpoint] at hatMost
    rw [abs_sub_le_abs_sub_iff_le (value_strictMono hgt)]
    obtain hbelow | ⟨hmiddle, heven⟩ := hatMost
    · refine ⟨by linarith, fun _ htie => ?_⟩
      have hbeyond := (abs_sub_le_abs_sub_iff_ge (value_strictMono hgt)).mp htie.le
      linarith
    · exact ⟨by linarith, fun _ _ => heven⟩

/-- **A fraction is rounded to the nearest pattern**, if it lies before the middle behind the last finite
one.

**Proof sketch.** Only the two neighbours of the pattern matter. The fraction does not lie behind the middle
to the next pattern, since this one would be nearer, and it lies there only if the pattern is even. It does
not lie in front of the middle to the previous pattern for the same reason. -/
theorem mem_interval_of_closest (h : Closest bits q) (hbits : bits < infinity)
    (hlast : q < midpoint (infinity - 1)) : q ∈ interval bits := by
  have hstep := value_strictMono (Nat.lt_succ_self bits)
  constructor
  · by_cases hnext : bits + 1 < infinity
    · obtain ⟨hle, heven⟩ := h (bits + 1) hnext
      rw [abs_sub_le_abs_sub_iff_le hstep] at hle
      obtain hlt | hmiddle := lt_or_eq_of_le hle
      · exact .inl hlt
      · refine .inr ⟨hmiddle, heven (Nat.succ_ne_self bits) (le_antisymm ?_ ?_)⟩
        · exact (abs_sub_le_abs_sub_iff_ge hstep).mpr hmiddle.ge
        · exact (abs_sub_le_abs_sub_iff_le hstep).mpr hmiddle.le
    · obtain rfl : bits = infinity - 1 := by omega
      exact .inl hlast
  · intro c hc hatMost
    have hmiddle : midpoint c ≤ (value c + value bits) / 2 := by
      have hle : value (c + 1) ≤ value bits := value_strictMono.monotone hc
      rw [midpoint]
      linarith
    obtain ⟨hle, heven⟩ := h c (hc.trans hbits)
    rw [abs_sub_le_abs_sub_iff_ge (value_strictMono hc)] at hle
    obtain hlt | ⟨heq, hc'⟩ := hatMost
    · linarith
    · have hvalue : value (c + 1) = value bits := by
        rw [heq, midpoint] at hle
        rw [midpoint] at hmiddle
        linarith
      obtain rfl := value_strictMono.injective hvalue
      have hodd := heven (Nat.ne_of_lt hc) (le_antisymm ?_ ?_)
      · omega
      · exact (abs_sub_le_abs_sub_iff_le (value_strictMono hc)).mpr heq.le
      · exact (abs_sub_le_abs_sub_iff_ge (value_strictMono hc)).mpr hle

/-- A fraction that is rounded to a finite pattern lies before the middle behind the last one: that one is
odd, and loses the middle. -/
theorem lt_midpoint_last (h : q ∈ interval bits) (hbits : bits < infinity) :
    q < midpoint (infinity - 1) := by
  have hmono {b : Nat} (hb : b < infinity - 1) : midpoint b < midpoint (infinity - 1) :=
    calc midpoint b < value (b + 1) := midpoint_lt_value b
      _ ≤ value (infinity - 1) := value_strictMono.monotone hb
      _ < midpoint (infinity - 1) := value_lt_midpoint _
  obtain hlt | rfl := Nat.lt_or_eq_of_le (Nat.le_sub_one_of_lt hbits)
  · obtain hlt' | ⟨rfl, -⟩ := h.1
    · exact hlt'.trans (hmono hlt)
    · exact hmono hlt
  · obtain hlt' | ⟨-, heven⟩ := h.1
    · exact hlt'
    · exact absurd heven (by decide)

/-! ## The ends of the range -/

/-- **Up to which fraction rounding gives zero.** -/
theorem midpoint_zero : midpoint 0 = 1 / 2 ^ 1075 := by
  have hone : value 1 = 1 / 2 ^ finest := by rw [value, units_of_lt (by decide), Nat.cast_one]
  rw [midpoint, value_zero, hone, zero_add, div_div, ← pow_succ]
  rfl

/-- The value of a pattern in a binade whose steps are whole. -/
theorem value_of_place {n r : Nat} (hr : r < binade) :
    value ((finest + n + 1) * binade + r) = (binade + r : ℕ) * 2 ^ n := by
  rw [value, units_of_place hr, pow_add, Nat.cast_mul, Nat.cast_mul, Nat.cast_pow, Nat.cast_pow,
    Nat.cast_ofNat, mul_left_comm, mul_div_cancel_left₀ _ (pow_ne_zero finest two_ne_zero)]

/-- **From which fraction on rounding gives infinity.** -/
theorem midpoint_last : midpoint (infinity - 1) = 2 ^ 1024 - 2 ^ 970 := by
  have hlast : infinity - 1 = (finest + 971 + 1) * binade + (binade - 1) := by decide
  have hnext : infinity - 1 + 1 = (finest + 972 + 1) * binade + 0 := by decide
  have hpow : (2 : ℚ) ^ 1024 = 2 ^ 970 * 2 ^ 54 := pow_add 2 970 54
  have hpow_last : (2 : ℚ) ^ 971 = 2 ^ 970 * 2 := pow_succ 2 970
  have hpow_next : (2 : ℚ) ^ 972 = 2 ^ 970 * 2 * 2 := by rw [pow_succ, pow_succ]
  rw [midpoint, hnext, value_of_place (by decide), hlast, value_of_place (by decide), hpow, hpow_last,
    hpow_next]
  generalize (2 : ℚ) ^ 970 = a
  norm_num [binade]
  ring

/-- The fractions that are rounded to zero. -/
theorem atMost_zero_iff : AtMost 0 q ↔ q ≤ 1 / 2 ^ 1075 := by
  rw [AtMost, midpoint_zero, and_iff_left (Nat.zero_mod 2), le_iff_lt_or_eq]

/-- The fractions that are not rounded to infinity. -/
theorem atMost_last_iff : AtMost (infinity - 1) q ↔ q < 2 ^ 1024 - 2 ^ 970 := by
  rw [AtMost, midpoint_last]
  exact or_iff_left fun h => absurd h.2 (by decide)

end Binary64

end Lox

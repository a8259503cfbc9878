import Lox.Proofs.Binary64.Shortest
import Lox.Proofs.Decimal.Significant

set_option autoImplicit false

/-!
# The search for the shortest decimal

The search looks at the two neighbours of the exact value on grids of decreasing coarseness. If what
passes its test lies together, as a set without gaps around the exact value, nothing is missed: whatever
passes on a grid lies behind one of the two neighbours or is one of them, and then this neighbour passes as
well. Since all that is written with a given number of significant digits lies on one grid, or in front of
the leading digit of the exact value, what is found has the fewest digits.

## Main definitions

* `Lox.Binary64.below`, `Lox.Binary64.above` — the neighbours of a value on a grid.
* `Lox.Binary64.Outside` — the fractions that do not lie between the two neighbours.
* `Lox.Binary64.Found` — what the search is expected to find.

## Main results

* `Lox.Binary64.exists_found_shortestFrom` — the search finds it.
* `Lox.Binary64.outside_of_hasDigits` — where the fractions with some number of digits lie.
* `Lox.Binary64.Found.lt_pow`, `Lox.Binary64.Found.le_of_hasDigits` — what is found has the fewest digits.
-/

namespace Lox

namespace Binary64

/-! ## Neighbours on a grid -/

/-- The last point of the grid of `10 ^ scale` up to a value. -/
def below (exact scale : Nat) : Nat :=
  exact / 10 ^ scale * 10 ^ scale

/-- The first point of the grid of `10 ^ scale` behind a value. -/
def above (exact scale : Nat) : Nat :=
  below exact scale + 10 ^ scale

/-- **The fractions that do not lie between the two neighbours** of a value on the grid of `10 ^ scale`, the
neighbours themselves included. -/
def Outside (exact scale : Nat) (q : ℚ) : Prop :=
  q ≤ below exact scale ∨ above exact scale ≤ q

/-- The lower neighbour does not lie behind the value. -/
theorem below_le (exact scale : Nat) : below exact scale ≤ exact :=
  Nat.div_mul_le_self _ _

/-- The upper neighbour lies behind the value. -/
theorem lt_above (exact scale : Nat) : exact < above exact scale := by
  have hlt := Nat.lt_div_mul_add (a := exact) (Nat.pow_pos (n := scale) (show 0 < 10 by decide))
  exact hlt

/-- Both neighbours are points of the grid. -/
theorem dvd_below_above (exact scale : Nat) :
    10 ^ scale ∣ below exact scale ∧ 10 ^ scale ∣ above exact scale :=
  ⟨Nat.dvd_mul_left _ _, Nat.dvd_add (Nat.dvd_mul_left _ _) (Nat.dvd_refl _)⟩

/-- **No point of a grid lies between the two neighbours.** -/
theorem outside_of_dvd {exact scale n : Nat} (h : 10 ^ scale ∣ n) : Outside exact scale n := by
  obtain ⟨k, rfl⟩ := h
  rw [Outside, Nat.cast_le, Nat.cast_le, above, below, Nat.mul_comm (10 ^ scale), ← Nat.succ_mul]
  obtain hlt | hle := Nat.lt_or_ge (exact / 10 ^ scale) k
  · exact .inr (Nat.mul_le_mul_right _ hlt)
  · exact .inl (Nat.mul_le_mul_right _ hle)

/-- What lies in front of a power of ten up to the value lies in front of the neighbours on each grid that
is not coarser than this power. -/
theorem outside_of_lt {exact scale top : Nat} (hscale : scale ≤ top) (htop : 10 ^ top ≤ exact) {q : ℚ}
    (hq : q < 10 ^ top) : Outside exact scale q := by
  obtain ⟨k, hk⟩ := Nat.pow_dvd_pow 10 hscale
  have hle : 10 ^ top ≤ below exact scale := by
    rw [hk, Nat.mul_comm] at htop ⊢
    exact Nat.mul_le_mul_right _ ((Nat.le_div_iff_mul_le (Nat.pow_pos (by decide))).mpr htop)
  refine .inl (hq.le.trans ?_)
  rw [← Nat.cast_ofNat, ← Nat.cast_pow, Nat.cast_le]
  exact hle

/-- **What is written with no more than some number of digits** does not lie between the neighbours on the
grid on which the value has that number of digits.

**Proof sketch.** If it does not lie in front of the leading digit of the value, its own leading digit has at
least the same place, and its last one, therefore, at least the place of the last digit on the grid. -/
theorem outside_of_hasDigits {exact top count : Nat} (htop : 10 ^ top ≤ exact) (hpos : 0 < count)
    (hcount : count ≤ top + 1) {q : ℚ} (hq : Decimal.HasDigits count q) :
    Outside exact (top + 1 - count) q := by
  by_cases hlt : q < 10 ^ top
  · exact outside_of_lt (by omega) htop hlt
  obtain ⟨m, e, hm, rfl⟩ := hq
  have hten : (0 : ℚ) < 10 ^ e := zpow_pos (by norm_num) e
  have hm' : (m : ℚ) < 10 ^ count := by
    have hle := (le_abs_self m).trans_lt hm
    rw [← Int.cast_lt (R := ℚ), Int.cast_pow] at hle
    exact hle
  have hplaces : (10 : ℚ) ^ (top : ℤ) < 10 ^ (count + e) :=
    calc (10 : ℚ) ^ (top : ℤ) = 10 ^ top := zpow_natCast 10 top
      _ ≤ m * 10 ^ e := le_of_not_gt hlt
      _ < 10 ^ count * 10 ^ e := mul_lt_mul_of_pos_right hm' hten
      _ = 10 ^ (count + e) := by rw [zpow_add₀ (by norm_num), zpow_natCast]
  have he : (top : ℤ) < count + e := (zpow_lt_zpow_iff_right₀ (by norm_num)).mp hplaces
  obtain ⟨places, rfl⟩ : ∃ places : ℕ, e = (top + 1 - count : ℕ) + places :=
    ⟨(e - (top + 1 - count : ℕ)).toNat, by omega⟩
  obtain ⟨digits, rfl⟩ : ∃ digits : ℕ, m = digits := by
    refine Int.eq_ofNat_of_zero_le (le_of_not_gt fun hneg => hlt ?_)
    have hneg' : (m : ℚ) * 10 ^ ((top + 1 - count : ℕ) + places : ℤ) < 0 :=
      mul_neg_of_neg_of_pos (Int.cast_lt_zero.mpr hneg) hten
    exact hneg'.trans (by positivity)
  have hpoint : (digits : ℤ) * (10 : ℚ) ^ ((top + 1 - count : ℕ) + places : ℤ) =
      (10 ^ (top + 1 - count) * (digits * 10 ^ places) : ℕ) := by
    rw [zpow_add₀ (by norm_num), zpow_natCast, zpow_natCast]
    push_cast
    ring
  rw [hpoint]
  exact outside_of_dvd (Nat.dvd_mul_right _ _)

/-! ## What is found -/

/-- **What the search is expected to find** among the fractions of a set, on the grids up to `10 ^ scale`: a
point of a grid on which no other fraction of the set is nearer to the exact value, while there is none at
all on the coarser grids. -/
structure Found (I : Set ℚ) (exact scale found answer : Nat) : Prop where
  /-- The grid is one of those on which the search looks. -/
  le_scale : found ≤ scale
  /-- The answer is a point of the grid. -/
  dvd : 10 ^ found ∣ answer
  /-- The answer does not lie behind the upper neighbour. -/
  le_above : answer ≤ above exact found
  /-- No fraction of the set is nearer unless it lies between the points of the grid. -/
  nearest : ∀ q ∈ I, Outside exact found q → |(answer : ℚ) - exact| ≤ |q - exact|
  /-- All fractions of the set lie between the points of the coarser grids. -/
  coarser : ∀ s, found < s → s ≤ scale → ∀ q ∈ I, ¬Outside exact s q

variable {I : Set ℚ} {exact : Nat}

/-- If a fraction of the set lies in front of the lower neighbour, this neighbour belongs to the set, and if
one lies behind the upper neighbour, so does that one. -/
theorem Outside.mem (together : I.OrdConnected) (hexact : (exact : ℚ) ∈ I) {scale : Nat} {q : ℚ} (hq : q ∈ I)
    (outside : Outside exact scale q) :
    (q ≤ below exact scale ∧ (below exact scale : ℚ) ∈ I) ∨
      (above exact scale ≤ q ∧ (above exact scale : ℚ) ∈ I) := by
  have hbelow : (below exact scale : ℚ) ≤ exact := Nat.cast_le.mpr (below_le exact scale)
  have habove : (exact : ℚ) ≤ above exact scale := Nat.cast_le.mpr (lt_above exact scale).le
  obtain h | h := outside
  · exact .inl ⟨h, together.out hq hexact ⟨h, hbelow⟩⟩
  · exact .inr ⟨h, together.out hexact hq ⟨habove, h⟩⟩

/-- An answer that is as near as each neighbour in the set is as near as all fractions of the set that do not
lie between the neighbours. -/
theorem nearest_of_neighbours (together : I.OrdConnected) (hexact : (exact : ℚ) ∈ I) {scale : Nat} {a : ℚ}
    (hbelow : (below exact scale : ℚ) ∈ I → |a - exact| ≤ exact - below exact scale)
    (habove : (above exact scale : ℚ) ∈ I → |a - exact| ≤ above exact scale - exact) {q : ℚ} (hq : q ∈ I)
    (outside : Outside exact scale q) : |a - exact| ≤ |q - exact| := by
  obtain ⟨hle, hmem⟩ | ⟨hle, hmem⟩ := outside.mem together hexact hq
  · calc |a - exact| ≤ exact - below exact scale := hbelow hmem
      _ ≤ -(q - exact) := by linarith
      _ ≤ |q - exact| := neg_le_abs _
  · calc |a - exact| ≤ above exact scale - exact := habove hmem
      _ ≤ q - exact := by linarith
      _ ≤ |q - exact| := le_abs_self _

/-- A neighbour is found if it is as near as the other one, or if this one does not belong to the set. -/
theorem found_neighbour (together : I.OrdConnected) (hexact : (exact : ℚ) ∈ I) {scale : Nat} :
    (((above exact scale : ℚ) ∈ I → exact - below exact scale ≤ above exact scale - exact) →
        Found I exact scale scale (below exact scale)) ∧
      (((below exact scale : ℚ) ∈ I → above exact scale - exact ≤ exact - below exact scale) →
        Found I exact scale scale (above exact scale)) := by
  obtain ⟨hdvd, hdvd'⟩ := dvd_below_above exact scale
  have hcoarser : ∀ s, scale < s → s ≤ scale → ∀ q ∈ I, ¬Outside exact s q :=
    fun s hlt hle => absurd hle (Nat.not_le_of_lt hlt)
  have hbelow : |(below exact scale : ℚ) - exact| = exact - below exact scale := by
    rw [abs_sub_comm, abs_of_nonneg]
    exact sub_nonneg.mpr (Nat.cast_le.mpr (below_le exact scale))
  have habove : |(above exact scale : ℚ) - exact| = above exact scale - exact := by
    rw [abs_of_nonneg]
    exact sub_nonneg.mpr (Nat.cast_le.mpr (lt_above exact scale).le)
  constructor
  · intro h
    refine ⟨le_rfl, hdvd, Nat.le_add_right _ _, fun q hq => ?_, hcoarser⟩
    refine nearest_of_neighbours together hexact (fun _ => hbelow.le) (fun hmem => ?_) hq
    rw [hbelow, ← Nat.cast_sub (below_le exact scale), ← Nat.cast_sub (lt_above exact scale).le, Nat.cast_le]
    exact h hmem
  · intro h
    refine ⟨le_rfl, hdvd', le_rfl, fun q hq => ?_, hcoarser⟩
    refine nearest_of_neighbours together hexact (fun hmem => ?_) (fun _ => habove.le) hq
    rw [habove, ← Nat.cast_sub (below_le exact scale), ← Nat.cast_sub (lt_above exact scale).le, Nat.cast_le]
    exact h hmem

/-- **The search finds what it is expected to find**, if its test describes a set without gaps to which the
exact value belongs.

**Proof sketch.** By induction on the coarseness of the first grid. If a neighbour passes the test, there is
no coarser grid to speak of, and the answer is the nearer one of the neighbours that pass. If none does, no
fraction of the set lies outside the neighbours, and the search goes on as if it had begun on the next
grid. -/
theorem exists_found_shortestFrom {accepts : Nat → Bool} (together : I.OrdConnected)
    (hexact : (exact : ℚ) ∈ I) (haccepts : ∀ n : Nat, accepts n ↔ (n : ℚ) ∈ I) (scale : Nat) :
    ∃ found, Found I exact scale found (shortestFrom accepts exact scale) := by
  fun_induction shortestFrom accepts exact scale with
  | case1 =>
    refine ⟨0, le_rfl, Nat.one_dvd exact, (lt_above exact 0).le, fun q _ _ => ?_, fun s hlt hle => by omega⟩
    rw [sub_self, abs_zero]
    exact abs_nonneg _
  | case2 scale step lower upper hupper hlower hnear =>
    exact ⟨scale + 1, (found_neighbour together hexact).1 fun _ => hnear.le⟩
  | case3 scale step lower upper hupper hlower hnear =>
    exact ⟨scale + 1, (found_neighbour together hexact).2 fun _ => Nat.le_of_not_lt hnear⟩
  | case4 scale step lower upper hupper hlower =>
    refine ⟨scale + 1, (found_neighbour together hexact).1 fun hmem => ?_⟩
    exact absurd ((haccepts upper).mpr hmem) (Bool.eq_false_iff.mp hupper)
  | case5 scale step lower upper hupper hlower =>
    refine ⟨scale + 1, (found_neighbour together hexact).2 fun hmem => ?_⟩
    exact absurd ((haccepts lower).mpr hmem) (Bool.eq_false_iff.mp hlower)
  | case6 scale step lower upper hupper hlower ih =>
    obtain ⟨found, h⟩ := ih
    refine ⟨found, Nat.le_succ_of_le h.le_scale, h.dvd, h.le_above, h.nearest, fun s hlt hle q hq outside => ?_⟩
    obtain hle | rfl := Nat.le_succ_iff.mp hle
    · exact h.coarser s hlt hle q hq outside
    · obtain ⟨-, hmem⟩ | ⟨-, hmem⟩ := outside.mem together hexact hq
      · exact absurd ((haccepts lower).mpr hmem) (Bool.eq_false_iff.mp hlower)
      · exact absurd ((haccepts upper).mpr hmem) (Bool.eq_false_iff.mp hupper)

/-! ## Fewest digits -/

variable {top found answer : Nat}

/-- **What is found has no more digits** than the exact value has on the grid on which it is found.

**Proof sketch.** The answer is a point of the grid, so that it keeps a factor of ten for each place below the
grid, and it goes beyond the exact value by one at most in the last digit on the grid. Should this make a
further digit, all digits but the first one are zeros. -/
theorem Found.lt_pow (h : Found I exact top found answer) (htop : exact < 10 ^ (top + 1)) {s t : Nat}
    (hanswer : answer = s * 10 ^ t) (hs : ¬10 ∣ s) : s < 10 ^ (top + 1 - found) := by
  have hten : 0 < 10 ^ found := Nat.pow_pos (by decide)
  have ht : found ≤ t := by
    by_contra hlt
    have hdvd : 10 * 10 ^ t ∣ s * 10 ^ t := by
      rw [← Nat.pow_succ', ← hanswer]
      exact (Nat.pow_dvd_pow 10 (Nat.lt_of_not_le hlt)).trans h.dvd
    exact hs (Nat.dvd_of_mul_dvd_mul_right (Nat.pow_pos (by decide)) hdvd)
  have hquot : exact / 10 ^ found < 10 ^ (top + 1 - found) := by
    refine Nat.div_lt_of_lt_mul ?_
    rw [Nat.mul_comm, Nat.pow_sub_mul_pow 10 (Nat.le_succ_of_le h.le_scale)]
    exact htop
  have hle : s ≤ 10 ^ (top + 1 - found) := by
    refine Nat.le_of_mul_le_mul_right ?_ hten
    calc s * 10 ^ found ≤ s * 10 ^ t := Nat.mul_le_mul_left s (Nat.pow_le_pow_right (by decide) ht)
      _ = answer := hanswer.symm
      _ ≤ (exact / 10 ^ found + 1) * 10 ^ found := by
        rw [Nat.succ_mul]
        exact h.le_above
      _ ≤ 10 ^ (top + 1 - found) * 10 ^ found := Nat.mul_le_mul_right _ hquot
  refine Nat.lt_of_le_of_ne hle fun heq => hs ?_
  have hplaces : top + 1 - found ≠ 0 := by
    have hscale := h.le_scale
    omega
  rw [heq]
  exact dvd_pow_self 10 hplaces

/-- **Nothing in the set has fewer digits than what is found**, and nothing with as many is nearer to the exact
value. -/
theorem Found.le_of_hasDigits (h : Found I exact top found answer) (htop : 10 ^ top ≤ exact)
    (hzero : (0 : ℚ) ∉ I) {count : Nat} {q : ℚ} (hq : Decimal.HasDigits count q) (hmem : q ∈ I) :
    top + 1 - found ≤ count ∧
      (count = top + 1 - found → |(answer : ℚ) - exact| ≤ |q - exact|) := by
  have hpos : 0 < count := by
    refine Nat.pos_of_ne_zero ?_
    rintro rfl
    obtain ⟨m, e, hm, rfl⟩ := hq
    rw [pow_zero, Int.abs_lt_one_iff] at hm
    rw [hm, Int.cast_zero, zero_mul] at hmem
    exact hzero hmem
  have hfound := h.le_scale
  constructor
  · by_contra hlt
    have outside := outside_of_hasDigits htop hpos (by omega) hq
    exact h.coarser _ (by omega) (by omega) q hmem outside
  · rintro rfl
    have outside := outside_of_hasDigits htop hpos (by omega) hq
    have hgrid : top + 1 - (top + 1 - found) = found := by omega
    rw [hgrid] at outside
    exact h.nearest q hmem outside

end Binary64

end Lox

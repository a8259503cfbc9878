import Lox.Binary64.Shortest
import Lox.Proofs.Binary64.Nearest
import Lox.Proofs.Decimal

set_option autoImplicit false

/-!
# The shortest decimal reads back

The search for the shortest decimal of a pattern accepts nothing that does not round to the pattern,
and ends with the exact value of the pattern, which does.

## Main results

* `Lox.Binary64.accepts_shortestFrom` — what the search finds passes its test.
* `Lox.Binary64.nearest_shortest` — the shortest decimal of a pattern rounds to it.
-/

namespace Lox

namespace Binary64

/-- What the search finds passes the test, if the exact value does. -/
theorem accepts_shortestFrom {accepts : Nat → Bool} {exact : Nat} (h : accepts exact)
    (scale : Nat) : accepts (shortestFrom accepts exact scale) := by
  fun_induction shortestFrom accepts exact scale with
  | case1 => exact h
  | case2 scale step lower upper hupper hlower _ => exact hlower
  | case3 scale step lower upper hupper hlower _ => exact hupper
  | case4 scale step lower upper hupper hlower => exact hlower
  | case5 scale step lower upper hupper hlower => exact hupper
  | case6 scale step lower upper _ _ ih => exact ih

/-- A decimal place is a binary place and a power of five. -/
theorem shiftLeft_pow_five (count places : Nat) :
    (count * Nat.pow 5 places) <<< places = count * Nat.pow 10 places := by
  have hten : Nat.pow 10 places = Nat.pow 5 places * 2 ^ places := Nat.mul_pow 5 2 places
  rw [Nat.shiftLeft_eq, hten, Nat.mul_assoc]

/-- A power of ten is positive. -/
theorem pow_ten_pos (places : Nat) : 0 < Nat.pow 10 places :=
  Nat.pow_pos (by decide)

/-- The exact value of a pattern, counted in steps of `10 ^ -finest`, rounds to the pattern. -/
theorem roundsTo_exact {bits : Nat} (h : bits ≤ infinity) :
    roundsTo bits (units bits * Nat.pow 5 finest) := by
  have hround : nearest (units bits * Nat.pow 5 finest) (Nat.pow 10 finest) = bits :=
    nearest_of_exact (pow_ten_pos finest) (shiftLeft_pow_five (units bits) finest) h
  rw [roundsTo, hround, beq_self_eq_true]

/-- A decimal without needless places rounds like the fraction that it was made from. -/
theorem nearest_reduced (coefficient places : Nat) :
    nearest (Decimal.reduced coefficient places).coefficient
      (Nat.pow 10 (Decimal.reduced coefficient places).places) =
    nearest coefficient (Nat.pow 10 places) := by
  obtain ⟨dropped, hplaces, hcoefficient⟩ := Decimal.coefficient_reduced coefficient places
  have hpower : Nat.pow 10 (Decimal.reduced coefficient places).places * Nat.pow 10 dropped =
      Nat.pow 10 places :=
    (Nat.pow_add 10 _ dropped).symm.trans (congrArg (Nat.pow 10) hplaces)
  rw [← nearest_mul_right (pow_ten_pos dropped), hpower]
  exact congrArg (nearest · _) hcoefficient

/-- **The shortest decimal of a pattern rounds to it.** -/
theorem nearest_shortest {bits : Nat} (h : bits ≤ infinity) :
    nearest (shortest bits).coefficient (Nat.pow 10 (shortest bits).places) = bits := by
  have hround := accepts_shortestFrom (roundsTo_exact h)
    ((Nat.toDigits 10 (units bits * Nat.pow 5 finest)).length - 1)
  rw [roundsTo, beq_iff_eq] at hround
  exact (nearest_reduced _ finest).trans hround

end Binary64

end Lox

import Lox.Binary64
import Lox.Decimal

set_option autoImplicit false

/-!
# The shortest decimal of a binary64 magnitude

Among the decimals that round to a given magnitude, the one with the fewest significant digits, and
of those the one nearest to the magnitude itself. The search runs over grids of decreasing
coarseness. On each grid only the two neighbours of the exact value need a test, since every other
point is farther away on its side.

## Main definitions

* `Lox.Binary64.shortestFrom` — the search, for counts that pass a test.
* `Lox.Binary64.shortest` — the shortest decimal of a finite magnitude.
-/

namespace Lox

namespace Binary64

/-- Whether a count of `10 ^ -finest` rounds to the pattern `bits`. -/
def roundsTo (bits count : Nat) : Bool :=
  nearest count (Nat.pow 10 finest) == bits

/-- The first neighbour of `exact` that passes a test, on the grids of `10 ^ scale` and finer. The
nearer neighbour wins if both do, and the upper one if they are equally near. -/
def shortestFrom (accepts : Nat → Bool) (exact : Nat) : (scale : Nat) → Nat
  | 0 => exact
  | scale + 1 =>
    let step := Nat.pow 10 (scale + 1)
    let lower := exact / step * step
    let upper := lower + step
    match accepts lower, accepts upper with
    | true, true => if exact - lower < upper - exact then lower else upper
    | true, false => lower
    | false, true => upper
    | false, false => shortestFrom accepts exact scale

/-- The shortest decimal that rounds to the pattern `bits`. The exact value has `finest` places at
most, as `2 ^ -finest = 5 ^ finest / 10 ^ finest`, and the first grid is that of its leading
digit. -/
def shortest (bits : Nat) : Decimal :=
  let exact := units bits * Nat.pow 5 finest
  Decimal.reduced (shortestFrom (roundsTo bits) exact ((Nat.toDigits 10 exact).length - 1)) finest

end Binary64

end Lox

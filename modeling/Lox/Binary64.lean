set_option autoImplicit false

/-!
# Rounding to 64-bit binary floating point

A magnitude of the 64-bit format is named by its bit pattern, read as a natural number: `0` is
zero, the patterns below `infinity` are the finite magnitudes in increasing order, and `infinity`
stands where the next power of two, `2 ^ 1024`, would be. All arithmetic here is exact, on natural
numbers.

## Main definitions

* `Lox.Binary64.infinity` — the first pattern that is no finite magnitude.
* `Lox.Binary64.finest` — the smallest step is `2 ^ -finest`.
* `Lox.Binary64.units` — the value of a pattern, counted in the smallest step.
* `Lox.Binary64.floor` — the last pattern whose value does not exceed a count of such steps.
* `Lox.Binary64.nearest` — the pattern nearest to a fraction, a tie going to the even pattern.
-/

namespace Lox

namespace Binary64

/-- The pattern of infinity: all finite magnitudes lie below it. -/
def infinity : Nat := 0x7FF0000000000000

/-- How many patterns in a row are one step apart, `2 ^ 52`: the low 52 bits of a pattern count
them. -/
def binade : Nat := 0x10000000000000

/-- How fine the smallest step is: the patterns `0` and `1` are `2 ^ -1074` apart. -/
def finest : Nat := 1074

/-- The value of a pattern in steps of `2 ^ -finest`. Patterns below `2 ^ 52` are their own value;
from there on the low 52 bits follow a leading one, and the step doubles with every `2 ^ 52`
patterns. -/
def units (bits : Nat) : Nat :=
  if bits < binade then bits else (binade + bits % binade) <<< (bits / binade - 1)

/-- The last pattern whose value is at most `count` steps: all but the leading 53 binary digits of
`count` are dropped. -/
def floor (count : Nat) : Nat :=
  let dropped := count.log2 - 52
  dropped * binade + count >>> dropped

/-- The pattern nearest to the fraction `num / den`. Of two equally near patterns it is the even
one, and whatever lies nearer to `2 ^ 1024` than to a finite magnitude is infinity. -/
def nearest (num den : Nat) : Nat :=
  let exact := num <<< finest
  let below := floor (exact / den)
  let down := exact - units below * den
  let up := units (below + 1) * den - exact
  min infinity (if down < up ∨ down = up ∧ below % 2 = 0 then below else below + 1)

end Binary64

end Lox

set_option autoImplicit false

/-!
# Decimal fractions

Non-negative decimal fractions, written positionally: digits, and for a fraction a point and
further digits. There is no exponent and no sign.

## Main definitions

* `Lox.Decimal` — the fraction `coefficient / 10 ^ places`.
* `Lox.Decimal.ofDigits` — the decimal that a digit run, or two digit runs around a point, stand
  for.
* `Lox.Decimal.ofText?` — the decimal that a text stands for.
* `Lox.Decimal.reduced` — a decimal without needless places.
* `Lox.Decimal.text` — the written form.
-/

namespace Lox

/-- The decimal fraction `coefficient / 10 ^ places`. -/
structure Decimal where
  /-- All digits, read without the point. -/
  coefficient : Nat
  /-- How many of the digits stand after the point. -/
  places : Nat
deriving DecidableEq, Repr

namespace Decimal

/-- The decimal written with the digits `whole` before the point and `fraction` after it. -/
def ofDigits (whole fraction : List Char) : Decimal :=
  ⟨Nat.ofDigitChars 10 (whole ++ fraction) 0, fraction.length⟩

/-- The decimal that a text stands for, if it is written with digits and at most one point behind the first
of them. -/
def ofText? (text : List Char) : Option Decimal :=
  let whole := text.takeWhile Char.isDigit
  if whole.isEmpty then none
  else match text.dropWhile Char.isDigit with
    | [] => some (ofDigits whole [])
    | '.' :: fraction => if fraction.all Char.isDigit then some (ofDigits whole fraction) else none
    | _ => none

/-- The fraction `coefficient / 10 ^ places` with as few places as it needs: a zero at the end of
the places is dropped, and so on until the last place counts or none is left. -/
def reduced (coefficient : Nat) : Nat → Decimal
  | 0 => ⟨coefficient, 0⟩
  | places + 1 =>
    if coefficient % 10 = 0 then reduced (coefficient / 10) places
    else ⟨coefficient, places + 1⟩

/-- The lowest `count` decimal digits of `n`, leading zeros included. -/
def lowDigits : (count n : Nat) → List Char
  | 0, _ => []
  | count + 1, n => lowDigits count (n / 10) ++ [Nat.digitChar (n % 10)]

/-- The written form: the whole part without leading zeros (`0` if it is zero) and, if there are
places, a point and exactly as many digits. -/
def text (d : Decimal) : List Char :=
  Nat.toDigits 10 (d.coefficient / Nat.pow 10 d.places) ++
    if d.places = 0 then [] else '.' :: lowDigits d.places d.coefficient

/-- As many low digits are written as were asked for. -/
@[simp]
theorem length_lowDigits (count n : Nat) : (lowDigits count n).length = count := by
  induction count generalizing n with
  | zero => rfl
  | succ count ih => simp [lowDigits, ih]

end Decimal

end Lox

import Lox.Binary64.Shortest

set_option autoImplicit false

/-!
# Numbers

The language has one kind of number, the 64-bit binary floating-point number, with the arithmetic
and the comparisons of the format. This module adds how numbers are read and written.

## Main definitions

* `Lox.Number.ofDecimal` — the number nearest to a decimal.
* `Lox.Number.signBit`, `Lox.Number.magnitude` — the two parts of a bit pattern.
* `Lox.Number.text` — a number written positionally with the fewest digits that read back to it.
* `Lox.Number.display` — the same with the names that the language gives to special numbers.
-/

namespace Lox

/-- A number of the language. -/
abbrev Number := Float

namespace Number

/-- The number nearest to a decimal, a tie going to the even one. -/
def ofDecimal (d : Decimal) : Number :=
  Float.ofBits (UInt64.ofNat (Binary64.nearest d.coefficient (Nat.pow 10 d.places)))

/-- The bit pattern of the negative zero: the sign alone. -/
def signPattern : Nat := 0x8000000000000000

/-- The sign bit, set for negative numbers and for the negative zero. -/
def signBit (x : Number) : Bool :=
  signPattern ≤ x.toBits.toNat

/-- The bit pattern without the sign. -/
def magnitude (x : Number) : Nat :=
  x.toBits.toNat % signPattern

/-- What is written for the numbers that have no digits. -/
structure SpecialNames where
  /-- Stands for everything that is not a number, whatever its sign. -/
  nan : String
  /-- Stands, behind the sign, for an infinite magnitude. -/
  infinity : String

/-- A number as text: a minus for the sign bit, and the shortest decimal that reads back to the
magnitude. A whole number has no point, and no number has an exponent. -/
def text (names : SpecialNames) (x : Number) : String :=
  if Binary64.infinity < x.magnitude then names.nan
  else (if x.signBit then "-" else "") ++
    if x.magnitude = Binary64.infinity then names.infinity
    else String.ofList (Binary64.shortest x.magnitude).text

/-- The names of special numbers in the values that a program computes. -/
def valueNames : SpecialNames := ⟨"NaN", "Infinity"⟩

/-- The text of a number as a value. -/
def display (x : Number) : String :=
  x.text valueNames

end Number

end Lox

set_option autoImplicit false

/-!
# Texts in units

A text is stored in units. In UTF-8 these are bytes, of which a character has one to four. Who goes over a
text unit by unit sees at each of them one character, which is the true one for a unit that is a character
by itself. A part of the text can be taken out of it only between two characters.

## Main definitions

* `Lox.Coding` — how characters are stored in units.
* `Lox.Coding.utf8`, `Lox.Coding.characters` — texts in bytes, and texts of which the characters are the
  units.
* `Lox.Coding.units` — a text in units.
* `Lox.Coding.isBoundary` — whether a position lies between two characters.
* `Lox.Coding.slice` — the part of a text between two positions.
-/

namespace Lox

/-- **How characters are stored in units** of some type. -/
structure Coding (α : Type) where
  /-- The units of a character. -/
  encode : Char → List α
  /-- The character that a unit is taken for by itself. -/
  glyph : α → Char
  /-- Whether a unit is the first one of a character. -/
  isFirst : α → Bool
  /-- The text that units stand for, if they are the units of a text. -/
  decode : List α → Option String
  /-- Each character has a unit. -/
  encode_ne_nil : ∀ c, encode c ≠ []

namespace Coding

/-- Texts in UTF-8. A byte is taken for the character with its number, which is the true one up to 127. -/
def utf8 : Coding UInt8 where
  encode := String.utf8EncodeChar
  glyph := Char.ofUInt8
  isFirst b := b.IsUTF8FirstByte
  decode bytes := String.fromUTF8? bytes.toByteArray
  encode_ne_nil _ := String.utf8EncodeChar_ne_nil

/-- Texts of which the characters themselves are the units. -/
def characters : Coding Char where
  encode c := [c]
  glyph c := c
  isFirst _ := true
  decode cs := some (String.ofList cs)
  encode_ne_nil c := List.cons_ne_nil c []

variable {α : Type} (coding : Coding α)

/-- A text in units. -/
def units (cs : List Char) : List α :=
  cs.flatMap coding.encode

/-- Whether a position lies between two characters, at the beginning or at the end of a text in units. -/
def isBoundary (input : List α) (position : Nat) : Bool :=
  position == 0 || position == input.length || input[position]?.any coding.isFirst

/-- The part of a text between two positions. There is none if the positions are out of order, or if one of
them lies behind the end of the text or inside a character. -/
def slice (input : List α) (first last : Nat) : Option String :=
  if first ≤ last ∧ coding.isBoundary input first ∧ coding.isBoundary input last then
    coding.decode ((input.drop first).take (last - first))
  else none

end Coding

end Lox

set_option autoImplicit false

/-!
# White space

The characters with the Unicode property `White_Space`.

## Main definitions

* `Lox.Text.blankRanges` — the characters, as ranges of code points.
* `Lox.Text.isBlank` — whether a character is one of them.
* `Lox.Text.trim` — a text without the white space at its ends.
-/

namespace Lox

namespace Text

/-- The first and the last code point of each range of white space. -/
def blankRanges : List (Nat × Nat) :=
  [(0x0009, 0x000D), (0x0020, 0x0020), (0x0085, 0x0085), (0x00A0, 0x00A0), (0x1680, 0x1680),
    (0x2000, 0x200A), (0x2028, 0x2029), (0x202F, 0x202F), (0x205F, 0x205F), (0x3000, 0x3000)]

/-- Whether a character is white space. -/
def isBlank (c : Char) : Bool :=
  blankRanges.any fun (first, last) => first ≤ c.toNat && c.toNat ≤ last

/-- A text without the white space at its beginning and at its end. -/
def trim (cs : List Char) : List Char :=
  ((cs.dropWhile isBlank).reverse.dropWhile isBlank).reverse

/-- The white space that separates tokens is white space. -/
theorem isBlank_of_isWhitespace {c : Char} (h : c.isWhitespace) : isBlank c := by
  simp only [Char.isWhitespace, Bool.or_eq_true, decide_eq_true_eq] at h
  rcases h with ((rfl | rfl) | rfl) | rfl <;> decide

end Text

end Lox

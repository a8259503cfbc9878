import Lox.Number
import Lox.Token.Kind

set_option autoImplicit false

/-!
# Tokens

A token records what it is, how it was written, what it stands for, and where it ends.

## Main definitions

* `Lox.Literal` — what a number or a quoted text stands for.
* `Lox.Token` — a token, with `Token.symbol` and `Token.endOfInput` for tokens of a fixed text.
* `Lox.Token.display` — a token on one line.
-/

namespace Lox

/-- What a number or a quoted text stands for. -/
inductive Literal
  /-- The value of a number. -/
  | number (x : Number)
  /-- The content of a quoted text. -/
  | string (s : String)
deriving Repr

namespace Literal

/-- Literals are the same if they are equal numbers, so that a literal that is not a number differs
from itself, or equal texts. -/
instance : BEq Literal where
  beq
    | number x, number y => x == y
    | string s, string t => s == t
    | _, _ => false

/-- Infinity has a shorter name in a token than in a value. -/
def numberNames : Number.SpecialNames := ⟨"NaN", "inf"⟩

/-- The text of a literal: digits without an exponent, or the content without quotes. -/
def display : Literal → String
  | number x => Number.text numberNames x
  | string s => s

end Literal

/-- A token of a source text. -/
structure Token where
  /-- What the token is. -/
  kind : Kind
  /-- How the token is written. -/
  lexeme : String
  /-- What the token stands for, if it is a number or a quoted text. -/
  literal : Option Literal
  /-- The line, counted from one, on which the token ends. -/
  line : Nat
deriving Repr

namespace Token

/-- Tokens are the same if all four parts are. -/
instance : BEq Token where
  beq a b :=
    a.kind == b.kind && a.lexeme == b.lexeme && a.line == b.line &&
      match a.literal, b.literal with
      | some x, some y => x == y
      | none, none => true
      | _, _ => false

/-- A token with the fixed text of its kind, or with no text if that varies. -/
def ofKind (kind : Kind) (line : Nat) : Token :=
  ⟨kind, kind.text?.getD "", none, line⟩

/-- The token that closes the input on a given last line. -/
def endOfInput (line : Nat) : Token :=
  ⟨.endOfInput, "", none, line⟩

/-- A token on one line: the name of its kind, its text, which may be empty, and what it stands
for. -/
def display (t : Token) : String :=
  t.kind.name ++ " " ++ t.lexeme ++
    match t.literal with
    | some literal => " " ++ literal.display
    | none => ""

end Token

end Lox

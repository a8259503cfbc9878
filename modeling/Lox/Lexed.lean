import Lox.Fault
import Lox.Piece

set_option autoImplicit false

/-!
# The tokens of a source text

A source text is split into pieces, and each piece gives a token, a fault or nothing. What is wrong
with a text never hides what follows it.

## Main definitions

* `Lox.Lexed` — tokens and faults, each in the order of the text.
* `Lox.Lexed.ofPieces` — the tokens and faults of pieces that begin on a given line.
* `Lox.lex` — the tokens and faults of a source text.
-/

namespace Lox

namespace Piece

/-- How many line feeds a piece holds. -/
def newlines (p : Piece) : Nat :=
  p.text.count '\n'

/-- What the token of a piece is and what it stands for, if the piece is the text of a token. -/
def kind? : Piece → Option (Kind × Option Literal)
  | symbol s => some (.symbol s, none)
  | word letters => some (.ofWord (String.ofList letters), none)
  | number whole fraction =>
    some (.number, some (.number (Number.ofDecimal (.ofDigits whole fraction))))
  | string content => some (.string, some (.string (String.ofList content)))
  | _ => none

/-- The token of a piece that ends on a given line. -/
def token? (p : Piece) (line : Nat) : Option Token :=
  p.kind?.map fun (kind, literal) => ⟨kind, String.ofList p.text, literal, line⟩

/-- What is wrong with a piece. -/
def cause? : Piece → Option LexCause
  | stray c => some (.strayCharacter c)
  | openString _ => some .openString
  | _ => none

/-- The fault of a piece that ends on a given line. -/
def fault? (p : Piece) (line : Nat) : Option LexFault :=
  p.cause?.map fun cause => ⟨cause, line⟩

end Piece

/-- The tokens of a text, and what is wrong with its characters. -/
structure Lexed where
  /-- The tokens, of which the last is the end of the input. -/
  tokens : List Token
  /-- What is wrong with the characters. -/
  faults : List LexFault
deriving Repr

namespace Lexed

/-- The tokens and faults of pieces of which the first begins on `line`. A token or a fault stands
on the line on which its piece ends, and one last token marks the end of the input. -/
def ofPieces (line : Nat) : List Piece → Lexed
  | [] => ⟨[.endOfInput line], []⟩
  | p :: ps =>
    let last := line + p.newlines
    let rest := ofPieces last ps
    ⟨(p.token? last).toList ++ rest.tokens, (p.fault? last).toList ++ rest.faults⟩

end Lexed

/-- The tokens of a source text, and what is wrong with its characters. Lines count from one. -/
def lex (source : String) : Lexed :=
  .ofPieces 1 (Piece.split source.toList)

end Lox

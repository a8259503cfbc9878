import Lox.Expr.Parse

set_option autoImplicit false

/-!
# Places in a list of tokens

A cursor looks at a token and moves forward over a list, up to the first end of input in it and
never past that. After a fault it stays where the fault was found, and can skip from there to the
next place where a statement may begin.

## Main definitions

* `Lox.Cursor` — the tokens ahead, and the token that closes them.
* `Lox.Cursor.readExpr` — reads an expression.
* `Lox.Cursor.readAll` — reads an expression that must be the last.
* `Lox.Cursor.skipStatement` — skips to the next statement.
* `Lox.parse` — the expression of a list of tokens.
-/

namespace Lox

/-- A place in a list of tokens. -/
structure Cursor where
  /-- The tokens ahead. None of them is an end of input. -/
  ahead : List Token
  /-- The token to look at when none is ahead. -/
  stop : Token
deriving Repr

namespace Cursor

/-- The place at the beginning of a list of tokens. If the list holds no end of input, there is one
behind it, on the line of the last token or on the first line. -/
def ofTokens (tokens : List Token) : Cursor where
  ahead := tokens.takeWhile (·.kind != .endOfInput)
  stop := (tokens.find? (·.kind == .endOfInput)).getD
    (.endOfInput ((tokens.getLast?.map Token.line).getD 1))

/-- The token that the cursor looks at. -/
def current (c : Cursor) : Token :=
  c.ahead.headD c.stop

/-- The place further on at which the tokens `ahead` are left. -/
def moveTo (c : Cursor) (ahead : List Token) : Cursor :=
  { c with ahead := ahead }

/-- Reads an expression. The cursor moves behind it, or to the token that is at fault. -/
def readExpr (c : Cursor) : Except ParseFault Expr × Cursor :=
  match Expr.read c.ahead with
  | .ok (e, ahead) => (.ok e, c.moveTo ahead)
  | .error (cause, ahead) => (.error ⟨cause, (c.moveTo ahead).current⟩, c.moveTo ahead)

/-- Reads an expression behind which no token may be left. -/
def readAll (c : Cursor) : Except ParseFault Expr × Cursor :=
  match c.readExpr with
  | (.ok e, c) =>
    if c.ahead.isEmpty then (.ok e, c) else (.error ⟨.furtherToken, c.current⟩, c)
  | (.error fault, c) => (.error fault, c)

/-- The tokens from the next statement on: at least one token is skipped, and then all up to the
first that stands behind a semicolon or begins a statement. -/
def nextStatement : List Token → List Token
  | [] => []
  | t :: ts =>
    if t.kind = .symbol .semicolon ∨ ts.head?.any (·.kind.beginsStatement) then ts
    else nextStatement ts

/-- Skips to the next statement. -/
def skipStatement (c : Cursor) : Cursor :=
  c.moveTo (nextStatement c.ahead)

end Cursor

/-- The expression that all tokens up to the end of the input make up. -/
def parse (tokens : List Token) : Except ParseFault Expr :=
  (Cursor.ofTokens tokens).readAll.1

end Lox

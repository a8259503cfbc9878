import Lox.Log

set_option autoImplicit false

/-!
# Readings

A reading goes through a list of tokens step by step, and adds each fault to a log as it finds it.

## Main definitions

* `Lox.Reading` — a place in a list of tokens together with a log.
* `Lox.Reading.Step`, `Lox.Reading.step` — what can be done with a reading.
-/

namespace Lox

/-- A place in a list of tokens, and the faults so far. -/
structure Reading where
  /-- The place in the list. -/
  cursor : Cursor
  /-- The faults so far. -/
  log : Log
deriving Repr

namespace Reading

/-- What can be done with a reading. -/
inductive Step
  /-- Read an expression behind which no token may be left. -/
  | readAll
  /-- Read an expression. -/
  | readExpr
  /-- Skip to the next statement. -/
  | skipStatement
  /-- Only look at the current token. -/
  | look
deriving DecidableEq, Repr

/-- A new reading of a list of tokens. -/
def ofTokens (tokens : List Token) (log : Log) : Reading :=
  ⟨.ofTokens tokens, log⟩

/-- The answer of a try to read an expression, and the reading after it: a fault is added to the
log. -/
def afterTry (log : Log) :
    Except ParseFault Expr × Cursor → Option (Except ParseFault Expr) × Reading
  | (.ok e, cursor) => (some (.ok e), ⟨cursor, log⟩)
  | (.error fault, cursor) => (some (.error fault), ⟨cursor, log.add (.parse fault)⟩)

/-- One step of a reading. The steps that read an expression answer with it, or with a fault. -/
def step (r : Reading) : Step → Option (Except ParseFault Expr) × Reading
  | .readAll => afterTry r.log r.cursor.readAll
  | .readExpr => afterTry r.log r.cursor.readExpr
  | .skipStatement => (none, ⟨r.cursor.skipStatement, r.log⟩)
  | .look => (none, r)

end Reading

end Lox

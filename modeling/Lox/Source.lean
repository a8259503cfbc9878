import Lox.Log

set_option autoImplicit false

/-!
# Source texts

A source text as an expression, and as its value.

## Main definitions

* `Lox.parseSource` — the expression of a source text, or all that is wrong with the text.
* `Lox.evalSource` — the value of a source text, or why it has none.
-/

namespace Lox

/-- The expression of a source text. A text with a fault in its characters has none, even if its
tokens make up an expression. -/
def parseSource (source : String) : Except Failure Expr :=
  let (tokens, log) := Log.empty.lex source
  match log.parse tokens with
  | (none, log) => .error (.illFormed log.faults)
  | (some e, log) => if log.hasStaticFault then .error (.illFormed log.faults) else .ok e

/-- The value of a source text. -/
def evalSource (source : String) : Except Failure Value :=
  match parseSource source with
  | .ok e => e.eval.mapError .runtime
  | .error failure => .error failure

end Lox

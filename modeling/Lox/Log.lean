import Lox.Cursor
import Lox.Expr.Eval
import Lox.Lexed

set_option autoImplicit false

/-!
# Logs of faults

A log keeps the faults of all stages in the order in which they were found. The stages can be taken
one by one, or all together, with a log that may already hold faults.

## Main definitions

* `Lox.Log` — the faults so far.
* `Lox.Log.lex`, `Lox.Log.parse`, `Lox.Log.eval` — the stages, with their faults added to a log.
* `Lox.Log.evalSource` — all stages.
-/

namespace Lox

/-- The faults found so far, in order. -/
structure Log where
  /-- The faults, the first one found first. -/
  faults : List Fault
deriving Repr, Inhabited

namespace Log

/-- A log without faults. -/
def empty : Log := ⟨[]⟩

/-- A log with one more fault. -/
def add (log : Log) (fault : Fault) : Log :=
  ⟨log.faults ++ [fault]⟩

/-- A log of which all faults are forgotten. -/
def reset (log : Log) : Log :=
  { log with faults := [] }

/-- Whether a fault of a text was found. -/
def hasStaticFault (log : Log) : Bool :=
  log.faults.any Fault.isStatic

/-- Whether a fault of an evaluation was found. -/
def hasRuntimeFault (log : Log) : Bool :=
  log.faults.any (!·.isStatic)

/-! ## Stages -/

/-- The tokens of a source text. -/
def lex (log : Log) (source : String) : List Token × Log :=
  let lexed := Lox.lex source
  (lexed.tokens, ⟨log.faults ++ lexed.faults.map .lex⟩)

/-- The expression of a list of tokens. -/
def parse (log : Log) (tokens : List Token) : Option Expr × Log :=
  match Lox.parse tokens with
  | .ok e => (some e, log)
  | .error fault => (none, log.add (.parse fault))

/-- The text of the value of an expression. -/
def eval (log : Log) (e : Expr) : Option String × Log :=
  match e.eval with
  | .ok v => (some v.display, log)
  | .error fault => (none, log.add (.runtime fault))

/-- The text of the value of a source text. There is no evaluation while the log holds a fault of a
text, be it this text or an earlier one. -/
def evalSource (log : Log) (source : String) : Option String × Log :=
  let (tokens, log) := log.lex source
  match log.parse tokens with
  | (none, log) => (none, log)
  | (some e, log) => if log.hasStaticFault then (none, log) else log.eval e

end Log

end Lox

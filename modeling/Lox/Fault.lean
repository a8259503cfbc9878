import Lox.Token

set_option autoImplicit false

/-!
# Faults

What can be wrong with a source text or go wrong in its evaluation. Each stage has its causes and
its place: a line while the text is cut into tokens, a token while the tokens are read as an
expression, and the operator that failed while the expression is evaluated.

## Main definitions

* `Lox.LexFault`, `Lox.ParseFault`, `Lox.RuntimeFault` — the faults of the three stages.
* `Lox.Fault` — a fault of any stage, with its `line`, `location`, `message` and `text`.
* `Lox.Failure` — why a source text has no value.
-/

namespace Lox

/-! ## Faults of the three stages -/

/-- What is wrong with the characters of a text. -/
inductive LexCause
  /-- No token starts with the character. -/
  | strayCharacter (c : Char)
  /-- A quote is opened and never closed. -/
  | openString
deriving DecidableEq, Repr

/-- A cause in words. -/
def LexCause.message : LexCause → String
  | strayCharacter c => "Unexpected character '" ++ c.toString ++ "'."
  | openString => "Unterminated string."

/-- A fault in the characters of a text. -/
structure LexFault where
  /-- What is wrong. -/
  cause : LexCause
  /-- The line on which it is wrong. -/
  line : Nat
deriving DecidableEq, Repr

/-- What is wrong with the order of the tokens. -/
inductive ParseCause
  /-- An operand is needed, and the token starts none. -/
  | noOperand
  /-- A group is open, and the token does not close it. -/
  | unclosedGroup
  /-- The expression is complete, and there is a further token. -/
  | furtherToken
deriving DecidableEq, Repr

/-- A cause in words. -/
def ParseCause.message : ParseCause → String
  | noOperand => "Expect expression."
  | unclosedGroup => "Expect ')' after expression."
  | furtherToken => "Expect end of expression."

/-- A fault in the order of the tokens. -/
structure ParseFault where
  /-- What is wrong. -/
  cause : ParseCause
  /-- The token that cannot stand where it stands. -/
  token : Token
deriving Repr

/-- Why an operator cannot be applied. -/
inductive RuntimeCause
  /-- The operand of a negation is not a number. -/
  | negatedNonNumber
  /-- The operands of an arithmetic operator or a comparison are not both numbers. -/
  | notNumbers
  /-- The operands of an addition are neither two numbers nor two strings. -/
  | notAddable
  /-- A token of this kind is no operator in its position. -/
  | notAnOperator (kind : Kind)
deriving DecidableEq, Repr

/-- A cause in words. -/
def RuntimeCause.message : RuntimeCause → String
  | negatedNonNumber => "Operand must be a number"
  | notNumbers => "Operands must be numbers."
  | notAddable => "Operands must be two numbers or two strings."
  | notAnOperator kind => "Unsupported operator '" ++ kind.display ++ "'."

/-- A fault in the evaluation. -/
structure RuntimeFault where
  /-- What is wrong. -/
  cause : RuntimeCause
  /-- The operator that cannot be applied. -/
  operator : Token
deriving Repr

/-! ## Faults of any stage -/

/-- A fault of any stage. -/
inductive Fault
  /-- A fault in the characters. -/
  | lex (fault : LexFault)
  /-- A fault in the order of the tokens. -/
  | parse (fault : ParseFault)
  /-- A fault in the evaluation. -/
  | runtime (fault : RuntimeFault)
deriving Repr

namespace Fault

/-- The line on which the fault was found. -/
def line : Fault → Nat
  | lex f => f.line
  | parse f => f.token.line
  | runtime f => f.operator.line

/-- The place of a fault within its line, as it follows the word "Error": nothing for a character,
the end for the token that closes the input, and else the text of the token. -/
def location : Fault → String
  | lex _ => ""
  | parse f =>
    if f.token.kind = .endOfInput then " at end" else " at '" ++ f.token.lexeme ++ "'"
  | runtime f => " at '" ++ f.operator.lexeme ++ "'"

/-- What is wrong, without the place. -/
def message : Fault → String
  | lex f => f.cause.message
  | parse f => f.cause.message
  | runtime f => f.cause.message

/-- Whether the fault is one of the text, found before any evaluation. -/
def isStatic : Fault → Bool
  | lex _ | parse _ => true
  | runtime _ => false

/-- A fault as reported. Faults of the text begin with their line, and faults of the evaluation end
with it, on a line of its own. -/
def text (f : Fault) : String :=
  if f.isStatic then "[line " ++ toString f.line ++ "] Error" ++ f.location ++ ": " ++ f.message
  else f.message ++ "\n[line " ++ toString f.line ++ "]"

end Fault

/-! ## Failures -/

/-- Why a source text has no value. -/
inductive Failure
  /-- The text is no expression; the faults stand in the order in which they were found. -/
  | illFormed (faults : List Fault)
  /-- The evaluation stopped. -/
  | runtime (fault : RuntimeFault)
deriving Repr

namespace Failure

/-- The faults behind a failure. -/
def faults : Failure → List Fault
  | illFormed faults => faults
  | runtime fault => [.runtime fault]

/-- A failure as reported: the texts of its faults, one after another. -/
def text (failure : Failure) : String :=
  "\n".intercalate (failure.faults.map Fault.text)

end Failure

end Lox

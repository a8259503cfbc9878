import Lox.Expr

set_option autoImplicit false

/-!
# Expressions as text

Two written forms of an expression: a nested one, in which every node shows its extent, and source
text, which adds no parentheses of its own.

## Main definitions

* `Lox.Expr.nested` — every operator in parentheses with its operands behind it.
* `Lox.Expr.source` — source text.
-/

namespace Lox

/-- A value in source text. A string stands in quotes as it is, since there are no escapes. -/
def Value.source : Value → String
  | string s => "\"" ++ s ++ "\""
  | v => v.display

namespace Expr

/-- The nested form: each node but a literal is a list in parentheses, headed by its operator or by
the word `group`. -/
def nested : Expr → String
  | literal value => value.display
  | grouping inner => "(group " ++ inner.nested ++ ")"
  | unary operator operand => "(" ++ operator.lexeme ++ " " ++ operand.nested ++ ")"
  | binary left operator right =>
    "(" ++ operator.lexeme ++ " " ++ left.nested ++ " " ++ right.nested ++ ")"

/-- The source text: a unary operator directly in front of its operand, a binary one between single
spaces, and parentheses for groups only. -/
def source : Expr → String
  | literal value => value.source
  | grouping inner => "(" ++ inner.source ++ ")"
  | unary operator operand => operator.lexeme ++ operand.source
  | binary left operator right => left.source ++ " " ++ operator.lexeme ++ " " ++ right.source

end Expr

end Lox

import Lox.Operator
import Lox.Value

set_option autoImplicit false

/-!
# Expressions

Expression trees. An operator is kept as the token that it was written with, so that a fault can
name its place. A tree built by hand may hold any token in the place of an operator.

## Main definitions

* `Lox.Expr` — expression trees.
* `Lox.Expr.size` — how many nodes a tree has.
* `Lox.Expr.applyUnary`, `Lox.Expr.applyBinary` — trees around an operator of the first line.
-/

namespace Lox

/-- An expression. -/
inductive Expr
  /-- A value that is written out. -/
  | literal (value : Value)
  /-- An expression in parentheses. -/
  | grouping (inner : Expr)
  /-- An operator in front of its operand. -/
  | unary (operator : Token) (operand : Expr)
  /-- An operator between its operands. -/
  | binary (left : Expr) (operator : Token) (right : Expr)
deriving Repr, Inhabited

namespace Expr

/-- Whether two trees are the same, node by node: with equal values, so that a literal that is not
a number differs from itself, and with the same operator tokens. -/
def agrees : Expr → Expr → Bool
  | literal a, literal b => a == b
  | grouping a, grouping b => agrees a b
  | unary s a, unary t b => s == t && agrees a b
  | binary a s c, binary b t d => agrees a b && s == t && agrees c d
  | _, _ => false

instance : BEq Expr where
  beq := agrees

/-- How many nodes a tree has. -/
def size : Expr → Nat
  | literal _ => 1
  | grouping inner => 1 + inner.size
  | unary _ operand => 1 + operand.size
  | binary left _ right => 1 + left.size + right.size

/-! ## Trees without a source text -/

/-- A tree of an operator and its operand; the operator stands on the first line. -/
def applyUnary (operator : Kind) (operand : Expr) : Expr :=
  unary (.ofKind operator 1) operand

/-- A tree of an operator and its operands; the operator stands on the first line. -/
def applyBinary (left : Expr) (operator : Kind) (right : Expr) : Expr :=
  binary left (.ofKind operator 1) right

end Expr

end Lox

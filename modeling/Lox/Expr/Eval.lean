import Lox.Expr
import Lox.Fault

set_option autoImplicit false

/-!
# Evaluation

Operands are evaluated from left to right, and the first operator that cannot be applied stops the
evaluation.

## Main definitions

* `Lox.UnaryOp.apply`, `Lox.BinaryOp.apply` — operators on values.
* `Lox.Token.applyUnary`, `Lox.Token.applyBinary` — what a token does in the place of an operator.
* `Lox.Expr.eval` — the value of an expression.
-/

namespace Lox

/-! ## Operators on values -/

/-- A unary operator on a value. -/
def UnaryOp.apply : UnaryOp → Value → Except RuntimeCause Value
  | .not, v => .ok (.boolean !v.isTruthy)
  | .negate, .number x => .ok (.number (-x))
  | .negate, _ => .error .negatedNonNumber

namespace BinaryOp

/-- An operation that is defined on two numbers only. -/
def onNumbers (f : Number → Number → Value) : Value → Value → Except RuntimeCause Value
  | .number x, .number y => .ok (f x y)
  | _, _ => .error .notNumbers

/-- The sum of two numbers, or two strings one after the other. -/
def plus : Value → Value → Except RuntimeCause Value
  | .number x, .number y => .ok (.number (x + y))
  | .string s, .string t => .ok (.string (s ++ t))
  | _, _ => .error .notAddable

/-- A binary operator on two values. -/
def apply : BinaryOp → Value → Value → Except RuntimeCause Value
  | equal, a, b => .ok (.boolean (a == b))
  | notEqual, a, b => .ok (.boolean (a != b))
  | greater, a, b => onNumbers (fun x y => .boolean (x > y)) a b
  | greaterEqual, a, b => onNumbers (fun x y => .boolean (x ≥ y)) a b
  | less, a, b => onNumbers (fun x y => .boolean (x < y)) a b
  | lessEqual, a, b => onNumbers (fun x y => .boolean (x ≤ y)) a b
  | add, a, b => plus a b
  | subtract, a, b => onNumbers (fun x y => .number (x - y)) a b
  | multiply, a, b => onNumbers (fun x y => .number (x * y)) a b
  | divide, a, b => onNumbers (fun x y => .number (x / y)) a b

end BinaryOp

/-! ## Tokens as operators -/

namespace Token

/-- The outcome of an operation, a failure being laid to the operator's token. -/
def blame (operator : Token) (outcome : Except RuntimeCause Value) : Except RuntimeFault Value :=
  outcome.mapError (⟨·, operator⟩)

/-- What a token gives in front of a value. -/
def applyUnary (operator : Token) (v : Value) : Except RuntimeFault Value :=
  operator.blame <| match operator.kind.unaryOp? with
    | some op => op.apply v
    | none => .error (.notAnOperator operator.kind)

/-- What a token gives between two values. -/
def applyBinary (operator : Token) (a b : Value) : Except RuntimeFault Value :=
  operator.blame <| match operator.kind.binaryOp? with
    | some op => op.apply a b
    | none => .error (.notAnOperator operator.kind)

end Token

/-! ## Expressions -/

/-- The value of an expression. -/
def Expr.eval : Expr → Except RuntimeFault Value
  | literal value => .ok value
  | grouping inner => inner.eval
  | unary operator operand => do
    let v ← operand.eval
    operator.applyUnary v
  | binary left operator right => do
    let a ← left.eval
    let b ← right.eval
    operator.applyBinary a b

end Lox

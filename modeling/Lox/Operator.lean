import Lox.Token.Kind

set_option autoImplicit false

/-!
# Operators

Which tokens are operators, and how tightly the binary ones bind. A minus is both a unary and a
binary operator.

## Main definitions

* `Lox.UnaryOp`, `Lox.BinaryOp` — the operators of the language.
* `Lox.BinaryOp.precedence` — how tightly a binary operator binds.
* `Lox.Kind.unaryOp?`, `Lox.Kind.binaryOp?` — the operator that a token of some kind is.
-/

namespace Lox

/-- The operators before their one operand. -/
inductive UnaryOp
  | not | negate
deriving DecidableEq, Repr

/-- The operators between their two operands. -/
inductive BinaryOp
  | equal | notEqual
  | greater | greaterEqual | less | lessEqual
  | add | subtract
  | multiply | divide
deriving DecidableEq, Repr

namespace BinaryOp

/-- How tightly an operator binds: equality least, then comparison, then sums, and products most.
A unary operator binds more tightly than all of them. -/
def precedence : BinaryOp → Nat
  | equal | notEqual => 1
  | greater | greaterEqual | less | lessEqual => 2
  | add | subtract => 3
  | multiply | divide => 4

end BinaryOp

namespace Kind

/-- The unary operator that a token of this kind is in front of an operand. -/
def unaryOp? : Kind → Option UnaryOp
  | symbol .bang => some .not
  | symbol .minus => some .negate
  | _ => none

/-- The binary operator that a token of this kind is between two operands. -/
def binaryOp? : Kind → Option BinaryOp
  | symbol .equalEqual => some .equal
  | symbol .bangEqual => some .notEqual
  | symbol .greater => some .greater
  | symbol .greaterEqual => some .greaterEqual
  | symbol .less => some .less
  | symbol .lessEqual => some .lessEqual
  | symbol .plus => some .add
  | symbol .minus => some .subtract
  | symbol .star => some .multiply
  | symbol .slash => some .divide
  | _ => none

end Kind

end Lox

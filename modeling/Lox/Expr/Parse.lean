import Lox.Expr
import Lox.Fault

set_option autoImplicit false

/-!
# Expressions of tokens

Tokens are read as an expression from left to right, without looking back. What has been read so far
is an operand, if one has just been completed, inside a stack of frames: operators and groups that
wait for an operand to be completed. A binary operator first completes the frames that bind at
least as tightly as it does, which makes operators of one precedence group to the left.

## Main definitions

* `Lox.Token.value?` — the value of a token that is an expression by itself.
* `Lox.Frame` — what waits for an operand.
* `Lox.Frame.complete` — an operand inside the frames that it completes.
* `Lox.Expr.read` — the expression at the front of a list of tokens.

## Main results

* `Lox.Frame.complete_zero` — in front of a token that is no operator, only a group can be open.
-/

namespace Lox

/-- The value of a token that is an expression by itself: three reserved words stand for themselves,
and a number or a quoted text for its literal, or for `nil` if it has none. -/
def Token.value? (t : Token) : Option Value :=
  match t.kind with
  | .keyword .falseWord => some (.boolean false)
  | .keyword .trueWord => some (.boolean true)
  | .keyword .nilWord => some .nil
  | .number | .string => some ((t.literal.map Value.ofLiteral).getD .nil)
  | _ => none

/-- What waits for an operand. -/
inductive Frame
  /-- A unary operator. -/
  | unary (operator : Token)
  /-- A binary operator behind its left operand. -/
  | binary (left : Expr) (op : BinaryOp) (operator : Token)
  /-- A group that has been opened. -/
  | group
deriving Repr

/-- Completes frames from the innermost outward: all unary operators, and binary operators of at
least the given precedence. Groups stay open. -/
def Frame.complete (precedence : Nat) : List Frame → Expr → List Frame × Expr
  | unary t :: frames, e => complete precedence frames (.unary t e)
  | binary left op t :: frames, e =>
    if precedence ≤ op.precedence then complete precedence frames (.binary left t e)
    else (binary left op t :: frames, e)
  | frames, e => (frames, e)

/-- At the lowest precedence all frames up to the innermost group are completed. -/
theorem Frame.complete_zero (frames : List Frame) (e : Expr) :
    (complete 0 frames e).1 = [] ∨ ∃ outer, (complete 0 frames e).1 = group :: outer := by
  induction frames generalizing e with
  | nil => exact .inl rfl
  | cons frame frames ih =>
    cases frame with
    | unary t => exact ih _
    | binary left op t => simpa [complete] using ih _
    | group => exact .inr ⟨frames, rfl⟩

/-- What comes next in an expression. -/
inductive Awaited
  /-- The beginning of an operand. -/
  | operand
  /-- An operator behind the operand `held`, or the end of the expression. -/
  | operator (held : Expr)
deriving Repr

namespace Expr

/-- Reads tokens inside the given frames until the expression cannot go on. The answer is the
expression with the tokens after it, or what is wrong with the tokens that are left. -/
def readFrom : Awaited → List Frame → List Token →
    Except (ParseCause × List Token) (Expr × List Token)
  | .operand, _, [] => .error (.noOperand, [])
  | .operand, frames, t :: ts =>
    match t.value? with
    | some v => readFrom (.operator (literal v)) frames ts
    | none =>
      if t.kind.unaryOp?.isSome then readFrom .operand (.unary t :: frames) ts
      else if t.kind = .symbol .leftParen then readFrom .operand (.group :: frames) ts
      else .error (.noOperand, t :: ts)
  | .operator held, frames, [] =>
    match Frame.complete 0 frames held with
    | ([], e) => .ok (e, [])
    | _ => .error (.unclosedGroup, [])
  | .operator held, frames, t :: ts =>
    match t.kind.binaryOp? with
    | some op =>
      let (frames, left) := Frame.complete op.precedence frames held
      readFrom .operand (.binary left op t :: frames) ts
    | none =>
      match Frame.complete 0 frames held with
      | ([], e) => .ok (e, t :: ts)
      | (_ :: frames, e) =>
        if t.kind = .symbol .rightParen then readFrom (.operator (grouping e)) frames ts
        else .error (.unclosedGroup, t :: ts)

/-- The expression at the front of the tokens, read for as long as it goes on, and the tokens that
are left. -/
def read (tokens : List Token) : Except (ParseCause × List Token) (Expr × List Token) :=
  readFrom .operand [] tokens

end Expr

end Lox

import Lox.Expr.Eval
import Lox.Proofs.Expr.Lines

set_option autoImplicit false

/-!
# Lines and parentheses in evaluation

An expression evaluates to the same value whatever the lines of its operators and however many
parentheses are put around its nodes. If it fails, the same operator fails for the same reason.

## Main definitions

* `Lox.SameOutcome` — the same value, or faults that differ in the line of the operator at most.
* `Lox.Expr.Wrapped` — a tree with more parentheses.
* `Lox.Expr.parenthesized` — a tree with parentheses around all operands.

## Main results

* `Lox.Expr.SameButLines.sameOutcome` — trees that differ in lines have the same outcome.
* `Lox.Expr.Wrapped.eval_eq` — parentheses change nothing in the evaluation.
* `Lox.Expr.shaped_parenthesized` — with enough parentheses every tree is shaped.
-/

namespace Lox

/-! ## Lines -/

/-- **The same outcome**: the same value, or two faults that have the same cause, with operators that
differ in nothing but their lines. -/
inductive SameOutcome : Except RuntimeFault Value → Except RuntimeFault Value → Prop
  | value (v : Value) : SameOutcome (.ok v) (.ok v)
  | fault {f g : RuntimeFault} (cause : f.cause = g.cause)
      (operator : f.operator.SameButLine g.operator) : SameOutcome (.error f) (.error g)

/-- Evaluations that go on from the same outcome in the same way have the same outcome. -/
theorem SameOutcome.bind {x y : Except RuntimeFault Value} (same : SameOutcome x y)
    {f g : Value → Except RuntimeFault Value} (h : ∀ v, SameOutcome (f v) (g v)) :
    SameOutcome (x >>= f) (y >>= g) := by
  cases same with
  | value v => exact h v
  | fault cause operator => exact .fault cause operator

namespace Token

/-- Whatever is laid to tokens that differ in lines is the same outcome. -/
theorem SameButLine.blame {s t : Token} (same : s.SameButLine t)
    (outcome : Except RuntimeCause Value) : SameOutcome (s.blame outcome) (t.blame outcome) := by
  cases outcome with
  | ok v => exact .value v
  | error cause => exact .fault rfl same

/-- What an operator gives in front of a value does not depend on its line. -/
theorem SameButLine.applyUnary {s t : Token} (same : s.SameButLine t) (v : Value) :
    SameOutcome (s.applyUnary v) (t.applyUnary v) := by
  rw [Token.applyUnary, Token.applyUnary, same.1]
  exact same.blame _

/-- What an operator gives between two values does not depend on its line. -/
theorem SameButLine.applyBinary {s t : Token} (same : s.SameButLine t) (a b : Value) :
    SameOutcome (s.applyBinary a b) (t.applyBinary a b) := by
  rw [Token.applyBinary, Token.applyBinary, same.1]
  exact same.blame _

end Token

namespace Expr

/-- **Trees that differ in lines have the same outcome.**

**Proof sketch.** Induction on the trees. The operands are evaluated in the same order, so that it is
the same operator that fails first. -/
theorem SameButLines.sameOutcome {e f : Expr} (same : e.SameButLines f) :
    SameOutcome e.eval f.eval := by
  induction same with
  | literal v => exact .value v
  | grouping _ ih => exact ih
  | unary operator _ ih => exact ih.bind fun v => operator.applyUnary v
  | binary _ operator _ ihl ihr =>
    exact ihl.bind fun a => ihr.bind fun b => operator.applyBinary a b

/-! ## Parentheses -/

/-- **A tree with more parentheses**: any nodes of the tree are put into parentheses, each any number
of times. -/
inductive Wrapped : Expr → Expr → Prop
  | literal (v : Value) : Wrapped (literal v) (literal v)
  | grouping {a b : Expr} (inner : Wrapped a b) : Wrapped (grouping a) (grouping b)
  | unary {a b : Expr} (t : Token) (operand : Wrapped a b) : Wrapped (unary t a) (unary t b)
  | binary {a b c d : Expr} (left : Wrapped a b) (t : Token) (right : Wrapped c d) :
      Wrapped (binary a t c) (binary b t d)
  | wrap {a b : Expr} (inner : Wrapped a b) : Wrapped a (.grouping b)

/-- **Parentheses change nothing in the evaluation.** -/
theorem Wrapped.eval_eq {e e' : Expr} (wrapped : e.Wrapped e') : e'.eval = e.eval := by
  induction wrapped with
  | literal v => rfl
  | grouping _ ih => exact ih
  | unary t _ ih => rw [eval, eval, ih]
  | binary _ t _ ihl ihr => rw [eval, eval, ihl, ihr]
  | wrap _ ih => exact ih

/-- A tree with more parentheses has the same literals and operators. -/
theorem Wrapped.all {value : Value → Prop} {before between : Token → Prop} {e e' : Expr}
    (wrapped : e.Wrapped e') (h : e.All value before between) : e'.All value before between := by
  induction wrapped with
  | literal v => exact h
  | grouping _ ih => exact ih h
  | unary t _ ih => exact ⟨h.1, ih h.2⟩
  | binary _ t _ ihl ihr => exact ⟨ihl h.1, h.2.1, ihr h.2.2⟩
  | wrap _ ih => exact ih h

/-- A tree with parentheses around all operands. -/
def parenthesized : Expr → Expr
  | literal v => literal v
  | grouping inner => grouping inner.parenthesized
  | unary t operand => unary t (grouping operand.parenthesized)
  | binary left t right => binary (grouping left.parenthesized) t (grouping right.parenthesized)

/-- Parentheses around all operands are parentheses. -/
theorem wrapped_parenthesized (e : Expr) : e.Wrapped e.parenthesized := by
  induction e with
  | literal v => exact .literal v
  | grouping inner ih => exact .grouping ih
  | unary t operand ih => exact .unary t (.wrap ih)
  | binary left t right ihl ihr => exact .binary (.wrap ihl) t (.wrap ihr)

/-- **With parentheses around all operands every tree is shaped**: a group binds most tightly. -/
theorem shaped_parenthesized (e : Expr) : e.parenthesized.Shaped := by
  induction e with
  | literal v => trivial
  | grouping inner ih => exact ih
  | unary t operand ih => exact ⟨ih, Nat.le_refl _⟩
  | binary left t right ihl ihr =>
    exact ⟨ihl, ihr, Nat.le_of_lt t.precedence_lt_tightest, t.precedence_lt_tightest⟩

end Expr

end Lox

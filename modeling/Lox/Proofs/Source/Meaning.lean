import Lox.Proofs.Expr.Meaning
import Lox.Proofs.Number.Sign
import Lox.Proofs.Source.RoundTrip

set_option autoImplicit false

/-!
# Printing keeps the meaning

A source text cannot spell a number with a sign: the minus that is printed for the sign is read back
as an operator in front of the number without it. The tree that is read is thus a different one, but
it evaluates to the same value, or fails at the same operator for the same reason, as long as the
printed tree has the parentheses that its shape needs.

## Main definitions

* `Lox.Expr.spelled` — a tree with its signs written out.
* `Lox.Expr.Canonical`, `Lox.Expr.Quotable` — trees with canonical operators, and trees with strings
  that can be quoted.

## Main results

* `Lox.Expr.Finite.eval_spelled`, `Lox.Expr.Finite.source_spelled` — signs that are written out change
  neither the outcome nor the source text.
* `Lox.Expr.Legible.parseSource_source` — what a shaped tree is read back as.
* `Lox.Expr.Legible.exists_evalSource_source`, `Lox.Expr.Legible.exists_evalSource_parenthesized` — the
  outcome of the source text of a shaped tree, and of any tree with all parentheses.
* `Lox.Expr.Wrapped.printing_keeps_meaning` — parentheses and printing keep the meaning of a tree.
-/

namespace Lox

/-! ## Signs -/

/-- The minus that the sign of a number is read back as. -/
def Token.sign : Token :=
  .ofKind (.symbol .minus) 1

/-- A value as it is spelled: a number with a sign as a minus in front of the number without it. -/
def Value.spelled : Value → Expr
  | number x => if x.signBit then .unary .sign (.literal (number x.abs)) else .literal (number x)
  | v => .literal v

namespace Value

/-- A number with a sign is spelled with a minus. -/
theorem spelled_of_negative {x : Number} (negative : x.signBit = true) :
    (number x).spelled = .unary .sign (.literal (number x.abs)) :=
  if_pos negative

/-- A number without a sign is spelled as it is. -/
theorem spelled_of_positive {x : Number} (positive : x.signBit = false) :
    (number x).spelled = .literal (number x) :=
  if_neg (positive ▸ Bool.false_ne_true)

/-- **A finite number is the value of its spelling**, the sign of a zero included. -/
theorem Finite.eval_spelled {v : Value} (finite : v.Finite) : v.spelled.eval = .ok v := by
  cases v with
  | number x =>
    cases hsign : x.signBit with
    | true =>
      rw [spelled_of_negative hsign]
      exact congrArg (fun y => Except.ok (number y)) (Number.neg_abs finite hsign)
    | false => rw [spelled_of_positive hsign, Expr.eval]
  | _ => rfl

/-- A finite number is written like its spelling. -/
theorem Finite.source_spelled {v : Value} (finite : v.Finite) : v.spelled.source = v.source := by
  cases v with
  | number x =>
    cases hsign : x.signBit with
    | true =>
      rw [spelled_of_negative hsign]
      exact (Number.display_abs finite hsign).symm
    | false => rw [spelled_of_positive hsign, Expr.source]
  | _ => rfl

/-- The spelling of a value binds most tightly. -/
theorem level_spelled (v : Value) : v.spelled.level = Expr.tightest := by
  unfold spelled
  repeat' split
  all_goals rfl

/-- The spelling of a value is shaped. -/
theorem shaped_spelled (v : Value) : v.spelled.Shaped := by
  unfold spelled
  repeat' split
  all_goals simp [Expr.Shaped, Expr.level]

/-- The spelling of a finite number and that of a string without a quote can be spelled. -/
theorem Finite.spellable_spelled {v : Value} (finite : v.Finite) (quotable : v.Quotable) :
    v.spelled.Spellable := by
  cases v with
  | number x =>
    cases hsign : x.signBit with
    | true =>
      rw [spelled_of_negative hsign]
      have hminus : Token.sign.IsUnary ∧ Token.sign.Canonical := by decide
      exact ⟨hminus, Number.finite_abs finite, Number.signBit_abs finite⟩
    | false =>
      rw [spelled_of_positive hsign]
      exact ⟨finite, hsign⟩
  | string s => exact quotable
  | boolean b => trivial
  | nil => trivial

end Value

namespace Expr

/-- **A tree with its signs written out**: a number with a sign becomes a minus in front of the number
without it. -/
def spelled : Expr → Expr
  | literal v => v.spelled
  | grouping inner => grouping inner.spelled
  | unary t operand => unary t operand.spelled
  | binary left t right => binary left.spelled t right.spelled

/-- **Signs that are written out do not change the outcome.** -/
theorem Finite.eval_spelled {e : Expr} (finite : e.Finite) : e.spelled.eval = e.eval := by
  induction e with
  | literal v => exact Value.Finite.eval_spelled finite
  | grouping inner ih => exact ih finite
  | unary t operand ih => rw [spelled, eval, eval, ih finite.2]
  | binary left t right ihl ihr => rw [spelled, eval, eval, ihl finite.1, ihr finite.2.2]

/-- **Signs that are written out do not change the source text.** -/
theorem Finite.source_spelled {e : Expr} (finite : e.Finite) : e.spelled.source = e.source := by
  induction e with
  | literal v => exact Value.Finite.source_spelled finite
  | grouping inner ih => rw [spelled, source, source, ih finite]
  | unary t operand ih => rw [spelled, source, source, ih finite.2]
  | binary left t right ihl ihr => rw [spelled, source, source, ihl finite.1, ihr finite.2.2]

/-- A tree with its signs written out binds as tightly: a sign does not loosen a value. -/
theorem level_spelled (e : Expr) : e.spelled.level = e.level := by
  cases e with
  | literal v => exact v.level_spelled
  | _ => rfl

/-- A shaped tree with its signs written out is shaped. -/
theorem Shaped.spelled {e : Expr} (shaped : e.Shaped) : e.spelled.Shaped := by
  induction e with
  | literal v => exact v.shaped_spelled
  | grouping inner ih => exact ih shaped
  | unary t operand ih => exact ⟨ih shaped.1, operand.level_spelled ▸ shaped.2⟩
  | binary left t right ihl ihr =>
    obtain ⟨hleft, hright, hlevell, hlevelr⟩ := shaped
    exact ⟨ihl hleft, ihr hright, left.level_spelled ▸ hlevell, right.level_spelled ▸ hlevelr⟩

/-- **A legible tree of finite numbers can be spelled** once its signs are written out. -/
theorem Legible.spellable_spelled {e : Expr} (legible : e.Legible) (finite : e.Finite) :
    e.spelled.Spellable := by
  induction e with
  | literal v => exact Value.Finite.spellable_spelled finite legible
  | grouping inner ih => exact ih legible finite
  | unary t operand ih => exact ⟨legible.1, ih legible.2 finite.2⟩
  | binary left t right ihl ihr =>
    exact ⟨ihl legible.1 finite.1, legible.2.1, ihr legible.2.2 finite.2.2⟩

/-! ## Meaning -/

/-- **What a shaped tree is read back as**: the tree with its signs written out, with its operators on
the lines on which they are printed. -/
theorem Legible.parseSource_source {e : Expr} (legible : e.Legible) (finite : e.Finite)
    (shaped : e.Shaped) : parseSource e.source = .ok (e.spelled.numbered 1) := by
  rw [← finite.source_spelled]
  exact (legible.spellable_spelled finite).parseSource_source shaped.spelled

/-- **The source text of a shaped tree has the outcome of the tree.** -/
theorem Legible.exists_evalSource_source {e : Expr} (legible : e.Legible) (finite : e.Finite)
    (shaped : e.Shaped) :
    ∃ outcome, evalSource e.source = outcome.mapError .runtime ∧ SameOutcome e.eval outcome := by
  have same := (e.spelled.sameButLines_numbered 1).symm.sameOutcome
  rw [finite.eval_spelled] at same
  refine ⟨_, ?_, same⟩
  rw [evalSource, legible.parseSource_source finite shaped]

/-- **With parentheses around all operands, a tree can be evaluated from its source text**, whatever
its shape. -/
theorem Legible.exists_evalSource_parenthesized {e : Expr} (legible : e.Legible)
    (finite : e.Finite) :
    ∃ outcome, evalSource e.parenthesized.source = outcome.mapError .runtime ∧
      SameOutcome e.eval outcome := by
  have wrapped := e.wrapped_parenthesized
  have legible' : e.parenthesized.Legible := wrapped.all legible
  rw [← wrapped.eval_eq]
  exact legible'.exists_evalSource_source (wrapped.all finite) e.shaped_parenthesized

/-- Whether all operators of a tree are canonical operators of their position. -/
def Canonical (e : Expr) : Prop :=
  e.All (fun _ => True) (fun t => t.IsUnary ∧ t.Canonical) (fun t => t.IsBinary ∧ t.Canonical)

/-- Whether no string of a tree holds a quote. -/
def Quotable (e : Expr) : Prop :=
  e.All Value.Quotable (fun _ => True) (fun _ => True)

/-- Canonical operators and strings that can be quoted make a tree legible. -/
theorem Canonical.legible {e : Expr} (canonical : e.Canonical) (quotable : e.Quotable) :
    e.Legible :=
  (All.and canonical quotable).imp (fun _ => And.right) (fun _ => And.left) (fun _ => And.left)

/-- **Parentheses and printing keep the meaning of a tree.** A tree evaluates as before when any of its
nodes are put into parentheses. If it is shaped then, its numbers are finite, with a sign or without,
and its strings can be quoted, then its source text has the same value, or fails for the same reason at
an operator that differs in its line at most.

**Proof sketch.** The source text is also that of the tree with its signs written out, which evaluates
in the same way and can be spelled. It is read back up to lines, and lines do not matter. -/
theorem Wrapped.printing_keeps_meaning {e e' : Expr} (canonical : e.Canonical)
    (wrapped : e.Wrapped e') :
    e'.eval = e.eval ∧
      (e'.Shaped → e'.Finite → e'.Quotable →
        ∃ outcome, evalSource e'.source = outcome.mapError .runtime ∧
          SameOutcome e.eval outcome) := by
  refine ⟨wrapped.eval_eq, fun shaped finite quotable => ?_⟩
  have canonical' : e'.Canonical := wrapped.all canonical
  rw [← wrapped.eval_eq]
  exact (canonical'.legible quotable).exists_evalSource_source finite shaped

/-- The product of `--2.5` and the sum of `1` and `-0` keeps its meaning once the sum stands in
parentheses. Both of the numbers with a sign are read back as negations. -/
theorem printing_keeps_signs :
    let factor := unary (.ofKind (.symbol .minus) 3)
      (literal (.number (-Number.ofDecimal ⟨25, 1⟩)))
    let sum := binary (literal (.number (Number.ofDecimal ⟨1, 0⟩))) (.ofKind (.symbol .plus) 7)
      (literal (.number (-Number.ofDecimal ⟨0, 0⟩)))
    let e := binary factor (.ofKind (.symbol .star) 1) sum
    let e' := binary factor (.ofKind (.symbol .star) 1) (grouping sum)
    ¬e.Shaped ∧ e'.eval = e.eval ∧ ∃ outcome, evalSource e'.source = outcome.mapError .runtime ∧
      SameOutcome e.eval outcome := by
  intro factor sum e e'
  have hminus : (Token.ofKind (.symbol .minus) 3).IsUnary ∧
      (Token.ofKind (.symbol .minus) 3).Canonical := by decide
  have hplus : (Token.ofKind (.symbol .plus) 7).IsBinary ∧
      (Token.ofKind (.symbol .plus) 7).Canonical := by decide
  have hstar : (Token.ofKind (.symbol .star) 1).IsBinary ∧
      (Token.ofKind (.symbol .star) 1).Canonical := by decide
  have canonical : e.Canonical := ⟨⟨hminus, trivial⟩, hstar, trivial, hplus, trivial⟩
  have wrapped : e.Wrapped e' :=
    .binary (.unary _ (.literal _)) _ (.wrap (.binary (.literal _) _ (.literal _)))
  have hfactor : (-Number.ofDecimal ⟨25, 1⟩).Finite := by decide +kernel
  have hone : (Number.ofDecimal ⟨1, 0⟩).Finite := by decide +kernel
  have hzero : (-Number.ofDecimal ⟨0, 0⟩).Finite := by decide +kernel
  have finite : e'.Finite := ⟨⟨trivial, hfactor⟩, trivial, hone, trivial, hzero⟩
  have quotable : e'.Quotable := ⟨⟨trivial, trivial⟩, trivial, trivial, trivial, trivial⟩
  obtain ⟨heval, hsource⟩ := Wrapped.printing_keeps_meaning canonical wrapped
  exact ⟨by decide, heval, hsource (by decide) finite quotable⟩

end Expr

end Lox

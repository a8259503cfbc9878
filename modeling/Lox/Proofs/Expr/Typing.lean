import Lox.Expr.Eval

set_option autoImplicit false

/-!
# Types of values in evaluation

Whether an operator can be applied depends on the types of its operands, never on the operands
themselves: nothing is refused for being zero, infinite, not a number or empty. An evaluation can
therefore be followed on types alone. It has the same type as result or the same fault, and so do two
trees that differ in the values of their literals but not in the types of these.

## Main definitions

* `Lox.ValueType`, `Lox.Value.type` — the types of values.
* `Lox.UnaryOp.resultType`, `Lox.BinaryOp.resultType` — operators on types.
* `Lox.Expr.typing` — evaluation on types.
* `Lox.Expr.SameTypes` — trees that differ in nothing but literals of the same types.

## Main results

* `Lox.Expr.map_type_eval` — evaluation on types is exact, faults included.
* `Lox.Expr.SameTypes.same_success` — trees with literals of the same types have values of the same type
  or the same fault.
-/

namespace Lox

/-! ## Types -/

/-- The types of values. -/
inductive ValueType
  | number | string | boolean | nil
deriving DecidableEq, Repr

namespace Value

/-- The type of a value. -/
def type : Value → ValueType
  | number _ => .number
  | string _ => .string
  | boolean _ => .boolean
  | nil => .nil

/-- Types are told apart by their names. -/
theorem typeName_eq_typeName_iff {v w : Value} : v.typeName = w.typeName ↔ v.type = w.type := by
  cases v <;> cases w <;> simp [typeName, type]

end Value

/-! ## Operators on types -/

/-- What a unary operator gives for an operand of some type. -/
def UnaryOp.resultType : UnaryOp → ValueType → Except RuntimeCause ValueType
  | .not, _ => .ok .boolean
  | .negate, .number => .ok .number
  | .negate, _ => .error .negatedNonNumber

namespace BinaryOp

/-- What an operation on two numbers gives whose results are of type `result`. -/
def numbersType (result : ValueType) : ValueType → ValueType → Except RuntimeCause ValueType
  | .number, .number => .ok result
  | _, _ => .error .notNumbers

/-- What an addition gives. -/
def plusType : ValueType → ValueType → Except RuntimeCause ValueType
  | .number, .number => .ok .number
  | .string, .string => .ok .string
  | _, _ => .error .notAddable

/-- What a binary operator gives for two operands of some types. -/
def resultType : BinaryOp → ValueType → ValueType → Except RuntimeCause ValueType
  | equal | notEqual => fun _ _ => .ok .boolean
  | greater | greaterEqual | less | lessEqual => numbersType .boolean
  | add => plusType
  | subtract | multiply | divide => numbersType .number

end BinaryOp

namespace Token

/-- What a token gives in front of an operand of some type. -/
def unaryType (operator : Token) (a : ValueType) : Except RuntimeFault ValueType :=
  Except.mapError (⟨·, operator⟩) <| match operator.kind.unaryOp? with
    | some op => op.resultType a
    | none => .error (.notAnOperator operator.kind)

/-- What a token gives between two operands of some types. -/
def binaryType (operator : Token) (a b : ValueType) : Except RuntimeFault ValueType :=
  Except.mapError (⟨·, operator⟩) <| match operator.kind.binaryOp? with
    | some op => op.resultType a b
    | none => .error (.notAnOperator operator.kind)

end Token

/-- **Evaluation on types**: in the same order as the evaluation on values. -/
def Expr.typing : Expr → Except RuntimeFault ValueType
  | literal value => .ok value.type
  | grouping inner => inner.typing
  | unary operator operand => do
    let a ← operand.typing
    operator.unaryType a
  | binary left operator right => do
    let a ← left.typing
    let b ← right.typing
    operator.binaryType a b

/-! ## Evaluation on types is exact -/

/-- The type of what a unary operator gives depends on the type of its operand only. -/
theorem UnaryOp.map_type_apply (op : UnaryOp) (v : Value) :
    (op.apply v).map Value.type = op.resultType v.type := by
  cases op with
  | not => rfl
  | negate => cases v <;> rfl

namespace BinaryOp

/-- An operation on numbers whose results are of one type gives this type, or fails on the types. -/
theorem map_type_onNumbers {f : Number → Number → Value} {result : ValueType}
    (h : ∀ x y, (f x y).type = result) (a b : Value) :
    (onNumbers f a b).map Value.type = numbersType result a.type b.type := by
  cases a with
  | number x =>
    cases b with
    | number y => exact congrArg Except.ok (h x y)
    | string | boolean | nil => rfl
  | string | boolean | nil => cases b <;> rfl

/-- An addition gives the type of its operands, or fails on their types. -/
theorem map_type_plus (a b : Value) : (plus a b).map Value.type = plusType a.type b.type := by
  cases a <;> cases b <;> rfl

/-- The type of what a binary operator gives depends on the types of its operands only. -/
theorem map_type_apply (op : BinaryOp) (a b : Value) :
    (op.apply a b).map Value.type = op.resultType a.type b.type := by
  cases op with
  | equal | notEqual => rfl
  | greater | greaterEqual | less | lessEqual =>
    refine map_type_onNumbers (fun x y => ?_) a b
    rfl
  | add => exact map_type_plus a b
  | subtract | multiply | divide =>
    refine map_type_onNumbers (fun x y => ?_) a b
    rfl

end BinaryOp

namespace Token

/-- A failure is laid to the same token whether there are values or types. -/
theorem map_type_blame (t : Token) (outcome : Except RuntimeCause Value) :
    (t.blame outcome).map Value.type = (outcome.map Value.type).mapError (⟨·, t⟩) := by
  cases outcome <;> rfl

/-- The type of what a token gives in front of a value depends on the type of the value only. -/
theorem map_type_applyUnary (t : Token) (v : Value) :
    (t.applyUnary v).map Value.type = t.unaryType v.type := by
  rw [applyUnary, unaryType, map_type_blame]
  cases t.kind.unaryOp? with
  | none => rfl
  | some op => exact congrArg (Except.mapError _) (op.map_type_apply v)

/-- The type of what a token gives between two values depends on the types of the values only. -/
theorem map_type_applyBinary (t : Token) (a b : Value) :
    (t.applyBinary a b).map Value.type = t.binaryType a.type b.type := by
  rw [applyBinary, binaryType, map_type_blame]
  cases t.kind.binaryOp? with
  | none => rfl
  | some op => exact congrArg (Except.mapError _) (op.map_type_apply a b)

end Token

/-- Two steps can be followed on types if the second one can. -/
theorem map_type_bind {x : Except RuntimeFault Value} {f : Value → Except RuntimeFault Value}
    {g : ValueType → Except RuntimeFault ValueType} (h : ∀ v, (f v).map Value.type = g v.type) :
    (x >>= f).map Value.type = x.map Value.type >>= g := by
  cases x with
  | error fault => rfl
  | ok v => exact h v

namespace Expr

/-- **Evaluation on types is exact**: it gives the type of the value, or the very fault.

**Proof sketch.** Induction on the tree. The operands are followed in order, and what an operator gives is
decided by their types. -/
theorem map_type_eval (e : Expr) : e.eval.map Value.type = e.typing := by
  induction e with
  | literal v => rfl
  | grouping inner ih => exact ih
  | unary t operand ih =>
    rw [eval, typing, ← ih]
    exact map_type_bind t.map_type_applyUnary
  | binary left t right ihl ihr =>
    rw [eval, typing, ← ihl, ← ihr]
    exact map_type_bind fun a => map_type_bind (t.map_type_applyBinary a)

/-! ## Trees of the same types -/

/-- **Trees that differ in nothing but literals of the same types**: they have the same shape, the same
operator tokens, and in the same places literals whose types have the same name. -/
inductive SameTypes : Expr → Expr → Prop
  | literal {v w : Value} (type : v.typeName = w.typeName) : SameTypes (literal v) (literal w)
  | grouping {a b : Expr} (inner : SameTypes a b) : SameTypes (grouping a) (grouping b)
  | unary {a b : Expr} (t : Token) (operand : SameTypes a b) : SameTypes (unary t a) (unary t b)
  | binary {a b c d : Expr} (left : SameTypes a b) (t : Token) (right : SameTypes c d) :
      SameTypes (binary a t c) (binary b t d)

/-- Trees of the same types are the same for the evaluation on types. -/
theorem SameTypes.typing_eq {e f : Expr} (same : e.SameTypes f) : e.typing = f.typing := by
  induction same with
  | literal type => exact congrArg Except.ok (Value.typeName_eq_typeName_iff.mp type)
  | grouping _ ih => exact ih
  | unary t _ ih => rw [typing, typing, ih]
  | binary _ t _ ihl ihr => rw [typing, typing, ihl, ihr]

/-- **Success and failure depend on types only.** Two trees of the same shape, with the same operator
tokens and with literals of the same types, either both have values, which are of the same type, or both
fail with the same cause at the same operator, whatever the values of their literals.

**Proof sketch.** The evaluation on types is the same for both (`Expr.SameTypes.typing_eq`), and it is
exact for each of them (`Expr.map_type_eval`). -/
theorem SameTypes.same_success {e f : Expr} (same : e.SameTypes f) :
    (∃ v w, e.eval = .ok v ∧ f.eval = .ok w ∧ v.typeName = w.typeName) ∨
    ∃ fault, e.eval = .error fault ∧ f.eval = .error fault := by
  have htypes : e.eval.map Value.type = f.eval.map Value.type := by
    rw [map_type_eval, map_type_eval, same.typing_eq]
  cases he : e.eval with
  | ok v =>
    cases hf : f.eval with
    | ok w =>
      rw [he, hf] at htypes
      exact .inl ⟨v, w, rfl, rfl, Value.typeName_eq_typeName_iff.mpr (Except.ok.inj htypes)⟩
    | error fault =>
      rw [he, hf] at htypes
      cases htypes
  | error fault =>
    cases hf : f.eval with
    | ok w =>
      rw [he, hf] at htypes
      cases htypes
    | error fault' =>
      rw [he, hf] at htypes
      cases htypes
      exact .inr ⟨fault, rfl, rfl⟩

/-- What is not a number can be divided by the negative zero and compared with infinity like any two
numbers, and `!` takes an empty string like any other. It is the outermost operator that fails, on truth
values, in both trees. -/
theorem same_success_odd_numbers :
    let tree (x y z : Number) (s : String) : Expr :=
      binary (binary (binary (literal (.number x)) (.ofKind (.symbol .slash) 1) (literal (.number y)))
        (.ofKind (.symbol .equalEqual) 2) (literal (.number z)))
        (.ofKind (.symbol .less) 3) (unary (.ofKind (.symbol .bang) 4) (literal (.string s)))
    let e := tree (Float.ofBits 0x7ff8000000000000) (Float.ofBits 0x8000000000000000)
      (Float.ofBits 0x7ff0000000000000) ""
    let f := tree (Float.ofBits 0x3ff0000000000000) (Float.ofBits 0x3ff0000000000000)
      (Float.ofBits 0x3ff0000000000000) "one"
    e.SameTypes f ∧ ∃ fault, e.eval = .error fault ∧ f.eval = .error fault := by
  intro tree e f
  have numbers (x y : Number) : (literal (.number x)).SameTypes (literal (.number y)) := .literal rfl
  have strings (s t : String) : (literal (.string s)).SameTypes (literal (.string t)) := .literal rfl
  have same : e.SameTypes f :=
    .binary (.binary (.binary (numbers _ _) _ (numbers _ _)) _ (numbers _ _)) _ (.unary _ (strings _ _))
  refine ⟨same, same.same_success.resolve_left ?_⟩
  rintro ⟨v, w, value, -⟩
  cases value

end Expr

end Lox

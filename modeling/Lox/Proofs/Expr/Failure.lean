import Lox.Proofs.Automaton
import Lox.Proofs.Source.Scanned

set_option autoImplicit false

/-!
# Where evaluations stop

An evaluation stops at one operation of the tree, whose operands have values that its operator is not
defined on. In a tree that was read from tokens every operator is one of its position, so that only the
types of the operands can be at fault, and the operator that is blamed is one of the tokens.

## Main definitions

* `Lox.Expr.Part` — the parts of a tree.
* `Lox.Expr.Stops` — an operation whose operator is not defined on the values of its operands.

## Main results

* `Lox.UnaryOp.apply_eq_error_iff`, `Lox.BinaryOp.apply_eq_error_iff` — what operators are not defined
  on.
* `Lox.Expr.Proper.exists_stops` — a failed evaluation has stopped at a part of the tree.
* `Lox.Log.parsed_operators_supported` — what is read from tokens fails for the types of operands only.
-/

namespace Lox

/-! ## What operators are not defined on -/

/-- Whether two values are both numbers. -/
def Value.BothNumbers (a b : Value) : Prop :=
  ∃ x y, a = .number x ∧ b = .number y

/-- Whether two values are both strings. -/
def Value.BothStrings (a b : Value) : Prop :=
  ∃ s t, a = .string s ∧ b = .string t

/-- **An operator in front of a value fails** if and only if it negates what is no number. -/
theorem UnaryOp.apply_eq_error_iff {op : UnaryOp} {v : Value} {cause : RuntimeCause} :
    op.apply v = .error cause ↔
      op = .negate ∧ (∀ x, v ≠ .number x) ∧ cause = .negatedNonNumber := by
  cases op with
  | not => simp [apply]
  | negate => cases v <;> simp [apply, eq_comm]

namespace BinaryOp

/-- The operators that are defined on two numbers only. -/
def numeric : List BinaryOp :=
  [.subtract, .multiply, .divide, .greater, .greaterEqual, .less, .lessEqual]

/-- The symbols of the operators that are defined on two numbers only. -/
def numericSymbols : List Symbol :=
  [.minus, .star, .slash, .greater, .greaterEqual, .less, .lessEqual]

/-- An operator that is defined on two numbers only has one of their symbols, which are neither that of
the addition nor those of operators that never fail. -/
theorem kind_of_mem_numeric {op : BinaryOp} (h : op ∈ numeric) :
    Kind.symbol op.symbol ∈ numericSymbols.map .symbol ∧ Kind.symbol op.symbol ≠ .symbol .plus ∧
      Kind.symbol op.symbol ∉ [Symbol.bang, .equalEqual, .bangEqual].map .symbol := by
  revert op
  decide

/-- What is defined on numbers fails if and only if it is not given two. -/
theorem onNumbers_eq_error_iff {f : Number → Number → Value} {a b : Value} {cause : RuntimeCause} :
    onNumbers f a b = .error cause ↔ ¬a.BothNumbers b ∧ cause = .notNumbers := by
  cases a <;> cases b <;> simp [onNumbers, Value.BothNumbers, eq_comm]

/-- An addition fails if and only if it is given neither two numbers nor two strings. -/
theorem plus_eq_error_iff {a b : Value} {cause : RuntimeCause} :
    plus a b = .error cause ↔ ¬a.BothNumbers b ∧ ¬a.BothStrings b ∧ cause = .notAddable := by
  cases a <;> cases b <;> simp [plus, Value.BothNumbers, Value.BothStrings, eq_comm]

/-- **An operator between two values fails** if and only if it is an addition or defined on numbers, and
the values are not such as it needs. -/
theorem apply_eq_error_iff {op : BinaryOp} {a b : Value} {cause : RuntimeCause} :
    op.apply a b = .error cause ↔ ¬a.BothNumbers b ∧
      (op = .add ∧ ¬a.BothStrings b ∧ cause = .notAddable ∨
        op ∈ numeric ∧ cause = .notNumbers) := by
  cases op <;> simp [apply, numeric, onNumbers_eq_error_iff, plus_eq_error_iff]

end BinaryOp

namespace Token

/-- A failure is laid to the token. -/
theorem blame_eq_error_iff {t : Token} {outcome : Except RuntimeCause Value} {fault : RuntimeFault} :
    t.blame outcome = .error fault ↔ fault.operator = t ∧ outcome = .error fault.cause := by
  obtain ⟨cause, operator⟩ := fault
  cases outcome <;> simp [blame, Except.mapError, and_comm, eq_comm]

/-- The token of a unary operator fails as its operator does. -/
theorem applyUnary_eq_error_iff {t : Token} {op : UnaryOp} (h : t.kind.unaryOp? = some op) {v : Value}
    {fault : RuntimeFault} :
    t.applyUnary v = .error fault ↔ fault.operator = t ∧ op.apply v = .error fault.cause := by
  rw [applyUnary, h, blame_eq_error_iff]

/-- The token of a binary operator fails as its operator does. -/
theorem applyBinary_eq_error_iff {t : Token} {op : BinaryOp} (h : t.kind.binaryOp? = some op)
    {a b : Value} {fault : RuntimeFault} :
    t.applyBinary a b = .error fault ↔ fault.operator = t ∧ op.apply a b = .error fault.cause := by
  rw [applyBinary, h, blame_eq_error_iff]

end Token

/-- A sequence of two steps fails in the first or in the second. -/
theorem bind_eq_error_iff {x : Except RuntimeFault Value} {f : Value → Except RuntimeFault Value}
    {fault : RuntimeFault} :
    x >>= f = .error fault ↔ x = .error fault ∨ ∃ v, x = .ok v ∧ f v = .error fault := by
  cases x <;> simp [bind, Except.bind]

/-- A sequence of two steps gives a value if both do. -/
theorem bind_eq_ok_iff {x : Except RuntimeFault Value} {f : Value → Except RuntimeFault Value}
    {w : Value} : x >>= f = .ok w ↔ ∃ v, x = .ok v ∧ f v = .ok w := by
  cases x <;> simp [bind, Except.bind]

namespace Expr

/-! ## Parts -/

/-- **The parts of a tree**: the tree itself, and the parts of its operands. -/
inductive Part : Expr → Expr → Prop
  | whole (e : Expr) : Part e e
  | grouping {part inner : Expr} (h : Part part inner) : Part part (grouping inner)
  | unary {part operand : Expr} (t : Token) (h : Part part operand) : Part part (unary t operand)
  | left {part left : Expr} (t : Token) (right : Expr) (h : Part part left) :
      Part part (binary left t right)
  | right {part right : Expr} (left : Expr) (t : Token) (h : Part part right) :
      Part part (binary left t right)

/-- What holds of all literals and operators of a tree holds of those of its parts. -/
theorem Part.all {part e : Expr} (h : part.Part e) {value : Value → Prop}
    {before between : Token → Prop} (all : e.All value before between) :
    part.All value before between := by
  induction h with
  | whole => exact all
  | grouping _ ih => exact ih all
  | unary t _ ih => exact ih all.2
  | left t right _ ih => exact ih all.1
  | right left t _ ih => exact ih all.2.2

/-! ## Operations that fail -/

/-- **An operation at which an evaluation stops**: its operands have values, and its operator is not
defined on them. -/
inductive Stops : Expr → RuntimeFault → Prop
  | negation {t : Token} {operand : Expr} {v : Value} (kind : t.kind = .symbol .minus)
      (value : operand.eval = .ok v) (type : ∀ x, v ≠ .number x) :
      Stops (unary t operand) ⟨.negatedNonNumber, t⟩
  | addition {t : Token} {left right : Expr} {a b : Value} (kind : t.kind = .symbol .plus)
      (first : left.eval = .ok a) (second : right.eval = .ok b) (numbers : ¬a.BothNumbers b)
      (strings : ¬a.BothStrings b) : Stops (binary left t right) ⟨.notAddable, t⟩
  | numeric {t : Token} {left right : Expr} {a b : Value} {op : BinaryOp} (mem : op ∈ BinaryOp.numeric)
      (kind : t.kind = .symbol op.symbol) (first : left.eval = .ok a) (second : right.eval = .ok b)
      (numbers : ¬a.BothNumbers b) : Stops (binary left t right) ⟨.notNumbers, t⟩

/-- An operator in front of an operand fails on its type only. -/
theorem stops_of_applyUnary {t : Token} (ht : t.IsUnary) {operand : Expr} {v : Value}
    {fault : RuntimeFault} (value : operand.eval = .ok v) (h : t.applyUnary v = .error fault) :
    (unary t operand).Stops fault := by
  obtain ⟨op, hop⟩ := Option.isSome_iff_exists.mp ht
  obtain ⟨hoperator, hcause⟩ := (Token.applyUnary_eq_error_iff hop).mp h
  obtain ⟨rfl, type, hcause⟩ := UnaryOp.apply_eq_error_iff.mp hcause
  have kind : t.kind = .symbol .minus := by
    obtain hk | hk := ht.kind_eq
    · rw [hk] at hop
      cases hop
    · exact hk
  obtain ⟨cause, operator⟩ := fault
  cases hoperator
  cases hcause
  exact .negation kind value type

/-- An operator between two operands fails on their types only. -/
theorem stops_of_applyBinary {t : Token} (ht : t.IsBinary) {left right : Expr} {a b : Value}
    {fault : RuntimeFault} (first : left.eval = .ok a) (second : right.eval = .ok b)
    (h : t.applyBinary a b = .error fault) : (binary left t right).Stops fault := by
  obtain ⟨op, hop⟩ := Option.isSome_iff_exists.mp ht
  have kind : t.kind = .symbol op.symbol := BinaryOp.eq_symbol_of_binaryOp? hop
  obtain ⟨hoperator, hcause⟩ := (Token.applyBinary_eq_error_iff hop).mp h
  obtain ⟨cause, operator⟩ := fault
  cases hoperator
  obtain ⟨numbers, ⟨rfl, strings, hcause⟩ | ⟨mem, hcause⟩⟩ := BinaryOp.apply_eq_error_iff.mp hcause
  · cases hcause
    exact .addition kind first second numbers strings
  · cases hcause
    exact .numeric mem kind first second numbers

/-- **A failed evaluation has stopped at a part of the tree**, if every operator is one of its position.

**Proof sketch.** Induction on the tree. If an operand fails, the operation has stopped in that operand.
Otherwise the operands have values, and the operator fails on them. -/
theorem Proper.exists_stops {e : Expr} (proper : e.Proper) {fault : RuntimeFault}
    (h : e.eval = .error fault) : ∃ part : Expr, part.Part e ∧ part.Stops fault := by
  induction e with
  | literal v => cases h
  | grouping inner ih =>
    obtain ⟨part, hpart, stops⟩ := ih proper h
    exact ⟨part, .grouping hpart, stops⟩
  | unary t operand ih =>
    obtain hoperand | ⟨v, value, hfault⟩ := bind_eq_error_iff.mp h
    · obtain ⟨part, hpart, stops⟩ := ih proper.2 hoperand
      exact ⟨part, .unary t hpart, stops⟩
    · exact ⟨_, .whole _, stops_of_applyUnary proper.1 value hfault⟩
  | binary left t right ihl ihr =>
    obtain hleft | ⟨a, first, hrest⟩ := bind_eq_error_iff.mp h
    · obtain ⟨part, hpart, stops⟩ := ihl proper.1 hleft
      exact ⟨part, .left t right hpart, stops⟩
    obtain hright | ⟨b, second, hfault⟩ := bind_eq_error_iff.mp hrest
    · obtain ⟨part, hpart, stops⟩ := ihr proper.2.2 hright
      exact ⟨part, .right left t hpart, stops⟩
    · exact ⟨_, .whole _, stops_of_applyBinary proper.2.1 first second hfault⟩

/-- An operation at which an evaluation stops has no value. -/
theorem Stops.eval_eq {part : Expr} {fault : RuntimeFault} (stops : part.Stops fault) :
    part.eval = .error fault := by
  cases stops with
  | negation kind value type =>
    rw [eval, value]
    exact (Token.applyUnary_eq_error_iff (by rw [kind]; rfl)).mpr
      ⟨rfl, UnaryOp.apply_eq_error_iff.mpr ⟨rfl, type, rfl⟩⟩
  | addition kind first second numbers strings =>
    rw [eval, first, second]
    exact (Token.applyBinary_eq_error_iff (by rw [kind]; rfl)).mpr
      ⟨rfl, BinaryOp.apply_eq_error_iff.mpr ⟨numbers, .inl ⟨rfl, strings, rfl⟩⟩⟩
  | @numeric t left right a b op mem kind first second numbers =>
    have hop : t.kind.binaryOp? = some op := by
      rw [kind]
      cases op <;> rfl
    rw [eval, first, second]
    exact (Token.applyBinary_eq_error_iff hop).mpr
      ⟨rfl, BinaryOp.apply_eq_error_iff.mpr ⟨numbers, .inr ⟨mem, rfl⟩⟩⟩

/-- The operator at which an evaluation stops is an operator of the tree. -/
theorem Stops.of_all {part : Expr} {fault : RuntimeFault} (stops : part.Stops fault)
    {value : Value → Prop} {known : Token → Prop} (all : part.All value known known) :
    known fault.operator := by
  cases stops with
  | negation => exact all.1
  | addition | numeric => exact all.2.1

end Expr

/-! ## Trees that were read from tokens -/

/-- **The operators of a tree that was read from tokens** are tokens of the list, and operators of their
position. -/
theorem all_of_parse_eq_ok {tokens : List Token} {e : Expr} (h : parse tokens = .ok e) :
    e.All (fun _ => True) (fun t => t.IsUnary ∧ t ∈ tokens) (fun t => t.IsBinary ∧ t ∈ tokens) := by
  obtain ⟨proper, -, spells⟩ := Expr.read_eq_ok_iff.mp (parse_eq_ok_iff.mp h)
  have hwords : ∀ t ∈ Token.words tokens, t ∈ tokens := fun t ht => (List.takeWhile_sublist _).mem ht
  exact spells.all proper hwords (fun _ _ _ _ => trivial) (fun _ ht unary => ⟨unary, ht⟩)
    (fun _ ht binary => ⟨binary, ht⟩)

/-- The operators of a tree that was read from tokens are operators of their position. -/
theorem proper_of_parse_eq_ok {tokens : List Token} {e : Expr} (h : parse tokens = .ok e) : e.Proper :=
  (Expr.read_eq_ok_iff.mp (parse_eq_ok_iff.mp h)).1

/-- The operator at which the evaluation of a tree stops is one of the tokens that the tree was read
from. -/
theorem operator_mem_of_eval_eq_error {tokens : List Token} {e : Expr} (h : parse tokens = .ok e)
    {fault : RuntimeFault} (hfault : e.eval = .error fault) : fault.operator ∈ tokens := by
  obtain ⟨part, hpart, stops⟩ := (proper_of_parse_eq_ok h).exists_stops hfault
  refine stops.of_all (hpart.all ((all_of_parse_eq_ok h).imp (fun _ => id) ?_ ?_)) <;>
    exact fun _ known => known.2

/-- **What is read from tokens fails for the types of operands only.** The operators of the tree are
tokens of the list; in front of an operand stands `!` or `-`, and between two operands one of the ten
binary operators. If the evaluation fails, it has stopped at a part of the tree, whose operator is the
one that is blamed. The cause is never that a token is no operator, a negation is blamed for its
operand, an addition and nothing else for operands that cannot be added, and operators on numbers for
operands that are not both numbers; `!`, `==` and `!=` are never blamed. -/
theorem Log.parsed_operators_supported {log : Log} {tokens : List Token} {e : Expr}
    (h : (log.parse tokens).1 = some e) :
    e.All (fun _ => True)
      (fun t => t.kind ∈ [Symbol.bang, .minus].map .symbol ∧ t ∈ tokens)
      (fun t => t.kind ∈ Automaton.binarySymbols.map .symbol ∧ t ∈ tokens) ∧
    ∀ fault, e.eval = .error fault →
      fault.operator ∈ tokens ∧
      (∃ part : Expr, part.Part e ∧ part.Stops fault) ∧
      (∀ kind, fault.cause ≠ .notAnOperator kind) ∧
      (fault.cause = .negatedNonNumber → fault.operator.kind = .symbol .minus ∧
        ∃ operand : Expr, (Expr.unary fault.operator operand).Part e) ∧
      (fault.cause = .notAddable ↔ fault.operator.kind = .symbol .plus) ∧
      (fault.cause = .notNumbers →
        fault.operator.kind ∈ BinaryOp.numericSymbols.map .symbol ∧
        ∃ left right : Expr, (Expr.binary left fault.operator right).Part e) ∧
      fault.operator.kind ∉ [Symbol.bang, .equalEqual, .bangEqual].map .symbol := by
  rw [parse_fst_eq_some_iff] at h
  refine ⟨(all_of_parse_eq_ok h).imp (fun _ => id) ?_ ?_, fun fault hfault => ?_⟩
  · rintro t ⟨unary, ht⟩
    obtain ⟨s, hs, hk⟩ := Token.isUnary_iff.mp unary
    exact ⟨List.mem_map.mpr ⟨s, hs, hk.symm⟩, ht⟩
  · rintro t ⟨binary, ht⟩
    exact ⟨Automaton.isSome_binaryOp?_iff.mp binary, ht⟩
  obtain ⟨part, hpart, stops⟩ := (proper_of_parse_eq_ok h).exists_stops hfault
  refine ⟨operator_mem_of_eval_eq_error h hfault, ⟨part, hpart, stops⟩, ?_⟩
  cases stops with
  | @negation t operand v kind _ _ =>
    exact ⟨nofun, fun _ => ⟨kind, operand, hpart⟩, by simp [kind], nofun, by simp [kind]⟩
  | addition kind _ _ _ _ => exact ⟨nofun, nofun, by simp [kind], nofun, by simp [kind]⟩
  | @numeric t left right a b op mem kind _ _ _ =>
    obtain ⟨hnumeric, hplus, hnever⟩ := BinaryOp.kind_of_mem_numeric mem
    rw [← kind] at hnumeric hplus hnever
    exact ⟨nofun, nofun, iff_of_false nofun hplus, fun _ => ⟨hnumeric, left, right, hpart⟩, hnever⟩

/-- The negation of `nil` on the second line is blamed, and the operator that is blamed is a token. -/
theorem Log.parsed_operators_supported_negated_nil :
    let minus : Token := ⟨.symbol .minus, "-", none, 2⟩
    let tokens : List Token := [minus, ⟨.keyword .nilWord, "nil", none, 2⟩, .endOfInput 2]
    let e : Expr := .unary minus (.literal .nil)
    (Log.empty.parse tokens).1 = some e ∧ e.eval = .error ⟨.negatedNonNumber, minus⟩ ∧
      minus ∈ tokens := by
  intro minus tokens e
  have hparse : (Log.empty.parse tokens).1 = some e := rfl
  have heval : e.eval = .error ⟨.negatedNonNumber, minus⟩ := rfl
  exact ⟨hparse, heval, ((parsed_operators_supported hparse).2 _ heval).1⟩

end Lox

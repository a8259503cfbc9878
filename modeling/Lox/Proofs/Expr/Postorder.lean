import Lox.Proofs.Expr.Failure

set_option autoImplicit false

/-!
# Evaluation on a stack of operands

The nodes of a tree can be taken one after another, each behind the nodes of its operands, while a stack
keeps the values of operands that still wait for their operator. Such a run has no calls to come back
from: it stops where an operator fails for the first time, and nothing behind that node is ever looked
at. An evaluation comes to the same value or the same fault, which settles what fails if several operators
could.

## Main definitions

* `Lox.Expr.subtrees`, `Lox.Expr.postorder` — the parts of a tree and its nodes, left operands first and
  operators last.
* `Lox.Node.step`, `Lox.Node.run` — what nodes do with a stack of values.
* `Lox.Expr.Refuses` — an operation that fails although its operands have values.
* `Lox.Expr.StopsAt` — a part at which a run stops, and what comes before it.

## Main results

* `Lox.Expr.run_postorder` — the nodes of a tree push the value of the tree, or stop at its fault.
* `Lox.Expr.exists_stopsAt` — a failed evaluation has stopped at the first part that has no value.
* `Lox.Expr.first_failure_wins` — an evaluation is a run over the nodes, and fails where the run stops.
-/

namespace Lox

/-! ## Nodes and stacks -/

/-- A node of a tree without its operands. -/
inductive Node
  /-- A value that is written out. -/
  | literal (value : Value)
  /-- The parentheses around an expression. -/
  | grouping
  /-- An operator that has one operand. -/
  | unary (operator : Token)
  /-- An operator that has two operands. -/
  | binary (operator : Token)
deriving Repr

namespace Node

/-- Where a run over nodes has come to. -/
inductive Outcome
  /-- All nodes are done, and the stack holds values, the last one first. -/
  | running (stack : List Value)
  /-- An operator has failed. -/
  | stopped (fault : RuntimeFault)
  /-- An operator lacks operands. -/
  | underflow
deriving Repr

namespace Outcome

/-- The outcome of an operation in front of a stack: its value is pushed, or its fault stops the run. -/
def push (result : Except RuntimeFault Value) (stack : List Value) : Outcome :=
  match result with
  | .ok v => running (v :: stack)
  | .error fault => stopped fault

/-- The outcome of a run that is taken further, unless it has stopped. -/
def andThen (outcome : Outcome) (further : List Value → Outcome) : Outcome :=
  match outcome with
  | running stack => further stack
  | stopped fault => stopped fault
  | underflow => underflow

/-- Taking a run further twice is taking it further by both at once. -/
theorem andThen_assoc (outcome : Outcome) (f g : List Value → Outcome) :
    (outcome.andThen f).andThen g = outcome.andThen fun stack => (f stack).andThen g := by
  cases outcome <;> rfl

end Outcome

/-- What is done at a node: a literal is pushed, parentheses do nothing, and an operator takes its
operands from the stack, the last one first, and pushes what it gives. -/
def step : Node → List Value → Outcome
  | literal v, stack => .running (v :: stack)
  | grouping, stack => .running stack
  | unary t, v :: stack => .push (t.applyUnary v) stack
  | binary t, b :: a :: stack => .push (t.applyBinary a b) stack
  | _, _ => .underflow

/-- The run over nodes from a stack of values. It ends at the first node at which it stops. -/
def run : List Node → List Value → Outcome
  | [], stack => .running stack
  | node :: nodes, stack => (node.step stack).andThen (run nodes)

/-- A run over two rows of nodes goes on over the second one where the first one ends. -/
theorem run_append (nodes more : List Node) (stack : List Value) :
    run (nodes ++ more) stack = (run nodes stack).andThen (run more) := by
  induction nodes generalizing stack with
  | nil => rfl
  | cons node nodes ih =>
    rw [List.cons_append, run, run, Outcome.andThen_assoc]
    exact congrArg (Outcome.andThen _) (funext ih)

/-- A run over one node is what the node does. -/
theorem run_singleton (node : Node) (stack : List Value) : run [node] stack = node.step stack := by
  rw [run]
  cases node.step stack <;> rfl

end Node

namespace Expr

/-! ## The order of the nodes -/

/-- The outermost node of a tree. -/
def node : Expr → Node
  | literal v => .literal v
  | grouping _ => .grouping
  | unary t _ => .unary t
  | binary _ t _ => .binary t

/-- The parts of a tree in the order in which they are completed: those of the left operand, those of the
right operand, and then the tree itself. -/
def subtrees : Expr → List Expr
  | literal v => [literal v]
  | grouping inner => inner.subtrees ++ [grouping inner]
  | unary t operand => operand.subtrees ++ [unary t operand]
  | binary left t right => left.subtrees ++ right.subtrees ++ [binary left t right]

/-- The nodes of a tree, every one behind the nodes of its operands. -/
def postorder (e : Expr) : List Node :=
  e.subtrees.map node

/-- The nodes of a binary operation are those of its operands, and its operator. -/
theorem postorder_binary (left : Expr) (t : Token) (right : Expr) :
    (binary left t right).postorder = left.postorder ++ (right.postorder ++ [.binary t]) := by
  rw [postorder, subtrees, List.map_append, List.map_append, List.append_assoc]
  rfl

/-- The list of the parts of a tree holds all of them. -/
theorem mem_subtrees_iff {part e : Expr} : part ∈ e.subtrees ↔ part.Part e := by
  constructor
  · intro h
    induction e with
    | literal v =>
      obtain rfl := List.mem_singleton.mp h
      exact .whole _
    | grouping inner ih =>
      obtain h | h := List.mem_append.mp h
      · exact .grouping (ih h)
      · obtain rfl := List.mem_singleton.mp h
        exact .whole _
    | unary t operand ih =>
      obtain h | h := List.mem_append.mp h
      · exact .unary t (ih h)
      · obtain rfl := List.mem_singleton.mp h
        exact .whole _
    | binary left t right ihl ihr =>
      obtain h | h := List.mem_append.mp h
      · obtain h | h := List.mem_append.mp h
        · exact .left t right (ihl h)
        · exact .right left t (ihr h)
      · obtain rfl := List.mem_singleton.mp h
        exact .whole _
  · intro h
    induction h with
    | whole => cases part <;> simp [subtrees]
    | grouping _ ih | unary _ _ ih => exact List.mem_append_left _ ih
    | left t right _ ih => exact List.mem_append_left _ (List.mem_append_left _ ih)
    | right left t _ ih => exact List.mem_append_left _ (List.mem_append_right _ ih)

/-! ## A run over a tree -/

/-- **The nodes of a tree push the value of the tree**, whatever the stack holds, or the run over them
stops at the fault of the tree.

**Proof sketch.** Induction on the tree. The nodes of an operand leave its value on the stack, above
everything that was there, which is where the operator looks for it. -/
theorem run_postorder (e : Expr) (stack : List Value) :
    Node.run e.postorder stack = .push e.eval stack := by
  induction e generalizing stack with
  | literal v => rfl
  | grouping inner ih =>
    rw [postorder, subtrees, List.map_append, Node.run_append, ← postorder, ih, eval]
    cases inner.eval <;> rfl
  | unary t operand ih =>
    rw [postorder, subtrees, List.map_append, Node.run_append, ← postorder, ih, eval]
    cases operand.eval with
    | error fault => rfl
    | ok v => exact Node.run_singleton (.unary t) (v :: stack)
  | binary left t right ihl ihr =>
    rw [postorder_binary, Node.run_append, ihl, eval]
    cases left.eval with
    | error fault => rfl
    | ok a =>
      -- the value of the left operand lies below whatever the right one needs
      show Node.run (right.postorder ++ [.binary t]) (a :: stack) = _
      rw [Node.run_append, ihr]
      cases right.eval with
      | error fault => rfl
      | ok b => exact Node.run_singleton (.binary t) (b :: a :: stack)

/-- The nodes of a tree that has a value push this value. -/
theorem run_postorder_of_eval {e : Expr} {v : Value} (value : e.eval = .ok v) (stack : List Value) :
    Node.run e.postorder stack = .running (v :: stack) := by
  rw [run_postorder, value]
  rfl

/-! ## Operations that fail -/

/-- **An operation that fails although its operands have values**: its operator is not defined on them,
or the token is no operator in its position. -/
inductive Refuses : Expr → RuntimeFault → Prop
  | stops {part : Expr} {fault : RuntimeFault} (stops : part.Stops fault) : Refuses part fault
  | notUnary {t : Token} {operand : Expr} {v : Value} (kind : t.kind.unaryOp? = none)
      (value : operand.eval = .ok v) : Refuses (unary t operand) ⟨.notAnOperator t.kind, t⟩
  | notBinary {t : Token} {left right : Expr} {a b : Value} (kind : t.kind.binaryOp? = none)
      (first : left.eval = .ok a) (second : right.eval = .ok b) :
      Refuses (binary left t right) ⟨.notAnOperator t.kind, t⟩

/-- A token that fails in front of a value makes the operation fail. -/
theorem refuses_of_applyUnary {t : Token} {operand : Expr} {v : Value} {fault : RuntimeFault}
    (value : operand.eval = .ok v) (h : t.applyUnary v = .error fault) :
    (unary t operand).Refuses fault := by
  cases hop : t.kind.unaryOp? with
  | some op =>
    have unary : t.IsUnary := by simp [Token.IsUnary, hop]
    exact .stops (stops_of_applyUnary unary value h)
  | none =>
    rw [Token.applyUnary, hop] at h
    cases h
    exact .notUnary hop value

/-- A token that fails between two values makes the operation fail. -/
theorem refuses_of_applyBinary {t : Token} {left right : Expr} {a b : Value} {fault : RuntimeFault}
    (first : left.eval = .ok a) (second : right.eval = .ok b) (h : t.applyBinary a b = .error fault) :
    (binary left t right).Refuses fault := by
  cases hop : t.kind.binaryOp? with
  | some op =>
    have binary : t.IsBinary := by simp [Token.IsBinary, hop]
    exact .stops (stops_of_applyBinary binary first second h)
  | none =>
    rw [Token.applyBinary, hop] at h
    cases h
    exact .notBinary hop first second

/-- An operation that fails has no value. -/
theorem Refuses.eval_eq {part : Expr} {fault : RuntimeFault} (refuses : part.Refuses fault) :
    part.eval = .error fault := by
  cases refuses with
  | stops stops => exact stops.eval_eq
  | notUnary kind value =>
    rw [eval, value]
    show Token.applyUnary _ _ = _
    rw [Token.applyUnary, kind]
    rfl
  | notBinary kind first second =>
    rw [eval, first, second]
    show Token.applyBinary _ _ _ = _
    rw [Token.applyBinary, kind]
    rfl

/-- All parts of a tree that has a value have values. -/
theorem Part.exists_eval {part e : Expr} (h : part.Part e) {v : Value} (value : e.eval = .ok v) :
    ∃ w, part.eval = .ok w := by
  induction h generalizing v with
  | whole => exact ⟨v, value⟩
  | grouping _ ih => exact ih value
  | unary t _ ih =>
    obtain ⟨w, hoperand, -⟩ := bind_eq_ok_iff.mp value
    exact ih hoperand
  | left t right _ ih =>
    obtain ⟨a, hleft, -⟩ := bind_eq_ok_iff.mp value
    exact ih hleft
  | right left t _ ih =>
    obtain ⟨a, -, hrest⟩ := bind_eq_ok_iff.mp value
    obtain ⟨b, hright, -⟩ := bind_eq_ok_iff.mp hrest
    exact ih hright

/-- A tree with a part that fails has no value. -/
theorem Part.exists_fault {part e : Expr} (h : part.Part e) {fault : RuntimeFault}
    (refuses : part.Refuses fault) : ∃ fault', e.eval = .error fault' := by
  cases heval : e.eval with
  | error fault' => exact ⟨fault', rfl⟩
  | ok v =>
    obtain ⟨w, value⟩ := h.exists_eval heval
    rw [refuses.eval_eq] at value
    cases value

/-! ## Where a run stops -/

/-- **A part at which a run from a stack stops**, behind other parts: all of these have values, so that
the run comes to the part, whose operator is the first to fail. -/
structure StopsAt (stack : List Value) (before : List Expr) (part : Expr) (fault : RuntimeFault) :
    Prop where
  /-- The parts before have values. -/
  values : ∀ p ∈ before, ∃ v, p.eval = .ok v
  /-- The operator of the part fails on the values of its operands. -/
  refuses : part.Refuses fault
  /-- The run goes on over the nodes before, and stops at the node of the part. -/
  stopped : ∃ above, Node.run (before.map node) stack = .running above ∧
    part.node.step above = .stopped fault

/-- A run that stops behind the parts of a tree with a value stops behind them also with the value of the
tree on the stack. -/
theorem StopsAt.behind {e part : Expr} {v : Value} {stack : List Value} {before : List Expr}
    {fault : RuntimeFault} (value : e.eval = .ok v) (stopsAt : StopsAt (v :: stack) before part fault) :
    StopsAt stack (e.subtrees ++ before) part fault where
  values p hp := by
    obtain hp | hp := List.mem_append.mp hp
    · exact (mem_subtrees_iff.mp hp).exists_eval value
    · exact stopsAt.values p hp
  refuses := stopsAt.refuses
  stopped := by
    rw [List.map_append, Node.run_append, ← postorder, run_postorder_of_eval value]
    exact stopsAt.stopped

/-- A run stops at an operation that fails if its operands are on the stack. -/
theorem Refuses.stopsAt {part : Expr} {fault : RuntimeFault} {stack : List Value}
    (refuses : part.Refuses fault) (step : part.node.step stack = .stopped fault) :
    StopsAt stack [] part fault where
  values := nofun
  refuses := refuses
  stopped := ⟨stack, rfl, step⟩

/-- **A failed evaluation has stopped at the first part that has no value**, whatever the stack held.

**Proof sketch.** Induction on the tree. If an operand fails, the run stops within that operand, behind
the whole left operand if it is the right one. Otherwise the values of the operands are on the stack, and
the run stops at the operator. -/
theorem exists_stopsAt {e : Expr} {fault : RuntimeFault} (h : e.eval = .error fault)
    (stack : List Value) :
    ∃ before part after, e.subtrees = before ++ part :: after ∧ StopsAt stack before part fault := by
  induction e generalizing stack with
  | literal v => cases h
  | grouping inner ih =>
    obtain ⟨before, part, after, hsplit, stopsAt⟩ := ih h stack
    exact ⟨before, part, after ++ [grouping inner], by simp [subtrees, hsplit], stopsAt⟩
  | unary t operand ih =>
    obtain hoperand | ⟨v, value, hfault⟩ := bind_eq_error_iff.mp h
    · obtain ⟨before, part, after, hsplit, stopsAt⟩ := ih hoperand stack
      exact ⟨before, part, after ++ [unary t operand], by simp [subtrees, hsplit], stopsAt⟩
    · have step : (Node.unary t).step (v :: stack) = .stopped fault := by
        rw [Node.step, hfault]
        rfl
      have stopsAt := ((refuses_of_applyUnary value hfault).stopsAt step).behind value
      rw [List.append_nil] at stopsAt
      exact ⟨operand.subtrees, unary t operand, [], rfl, stopsAt⟩
  | binary left t right ihl ihr =>
    obtain hleft | ⟨a, first, hrest⟩ := bind_eq_error_iff.mp h
    · obtain ⟨before, part, after, hsplit, stopsAt⟩ := ihl hleft stack
      exact ⟨before, part, after ++ right.subtrees ++ [binary left t right],
        by simp [subtrees, hsplit], stopsAt⟩
    obtain hright | ⟨b, second, hfault⟩ := bind_eq_error_iff.mp hrest
    -- the run has gone through the left operand, and stops in the right one
    · obtain ⟨before, part, after, hsplit, stopsAt⟩ := ihr hright (a :: stack)
      exact ⟨left.subtrees ++ before, part, after ++ [binary left t right],
        by simp [subtrees, hsplit], stopsAt.behind first⟩
    · have step : (Node.binary t).step (b :: a :: stack) = .stopped fault := by
        rw [Node.step, hfault]
        rfl
      have stopsAt := (((refuses_of_applyBinary first second hfault).stopsAt step).behind second).behind
        first
      rw [List.append_nil] at stopsAt
      exact ⟨left.subtrees ++ right.subtrees, binary left t right, [], rfl, stopsAt⟩

/-- A row of parts has one first part without a value, and so there is one fault at which runs stop. -/
theorem StopsAt.fault_unique {parts before before' after after' : List Expr} {part part' : Expr}
    {stack : List Value} {fault fault' : RuntimeFault} (hsplit : parts = before ++ part :: after)
    (hsplit' : parts = before' ++ part' :: after') (stopsAt : StopsAt stack before part fault)
    (stopsAt' : StopsAt stack before' part' fault') : fault = fault' := by
  have hfind {front behind : List Expr} {first : Expr} {f : RuntimeFault}
      (hparts : parts = front ++ first :: behind) (stops : StopsAt stack front first f) :
      parts.find? (!·.eval.isOk) = some first := by
    rw [List.find?_eq_some_iff_append]
    refine ⟨by rw [stops.refuses.eval_eq]; rfl, front, behind, hparts, fun p hp => ?_⟩
    obtain ⟨v, value⟩ := stops.values p hp
    rw [value]
    rfl
  obtain rfl : part = part' := by
    rw [← Option.some_inj, ← hfind hsplit stopsAt, ← hfind hsplit' stopsAt']
  have heval := stopsAt.refuses.eval_eq
  rw [stopsAt'.refuses.eval_eq] at heval
  cases heval
  rfl

/-- **The first failure in the order of evaluation wins.** An evaluation is the run over the nodes of the
tree from an empty stack, whatever tokens stand in the place of operators. It fails if and only if some
operation fails on the values of its operands. The fault is that of the first part in order that has no
value: all parts before it have values, the run comes to its node and stops there, and the operator and
the values of its operands alone decide the cause.

**Proof sketch.** The nodes of a tree push its value or stop at its fault (`Expr.run_postorder`). A failed
evaluation has stopped at a first part (`Expr.exists_stopsAt`), of which there is only one, and a tree
with a value has no part without one. -/
theorem first_failure_wins (e : Expr) :
    Node.run e.postorder [] = .push e.eval [] ∧
    ((∃ fault, e.eval = .error fault) ↔ ∃ part : Expr, part.Part e ∧ ∃ fault, part.Refuses fault) ∧
    ∀ fault, e.eval = .error fault ↔
      ∃ before part after, e.subtrees = before ++ part :: after ∧ StopsAt [] before part fault := by
  refine ⟨run_postorder e [], ⟨?_, ?_⟩, fun fault => ⟨fun h => exists_stopsAt h [], ?_⟩⟩
  · rintro ⟨fault, h⟩
    obtain ⟨before, part, after, hsplit, stopsAt⟩ := exists_stopsAt h []
    have hmem : part ∈ e.subtrees := by simp [hsplit]
    exact ⟨part, mem_subtrees_iff.mp hmem, fault, stopsAt.refuses⟩
  · rintro ⟨part, hpart, fault, refuses⟩
    exact hpart.exists_fault refuses
  · rintro ⟨before, part, after, hsplit, stopsAt⟩
    have hmem : part ∈ e.subtrees := by simp [hsplit]
    obtain ⟨fault', h⟩ := (mem_subtrees_iff.mp hmem).exists_fault stopsAt.refuses
    obtain ⟨before', part', after', hsplit', stopsAt'⟩ := exists_stopsAt h []
    rw [h, stopsAt.fault_unique hsplit hsplit' stopsAt']

/-- The negation of `nil` is completed before the comma on its right, which is no operator and would fail
as well, and before the sum of the two. -/
example (s : String) :
    (binary (applyUnary (.symbol .minus) (literal .nil)) (.ofKind (.symbol .plus) 2)
      (applyBinary (literal (.string s)) (.symbol .comma) (literal .nil))).eval =
      .error ⟨.negatedNonNumber, .ofKind (.symbol .minus) 1⟩ :=
  rfl

end Expr

end Lox

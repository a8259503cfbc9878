import Lox.Proofs.Expr.Failure

set_option autoImplicit false

/-!
# Trees with strings as values

An addition of two strings is the only operation that gives a string. A tree has a string as its value
if and only if nothing but additions and groups stands above its literals and all of these are strings,
and the value is then made of the literals in the order in which they stand, however they are grouped.

## Main definitions

* `Lox.Expr.literals` — the literals of a tree, from left to right.
* `Lox.Expr.AddsStrings` — trees of strings, groups and additions.
* `Lox.Expr.Foreign` — nodes that have no place in such a tree.

## Main results

* `Lox.BinaryOp.apply_eq_string_iff` — a string is the sum of two strings.
* `Lox.Expr.eval_eq_string_iff` — the trees with strings as values, and these strings.
* `Lox.Expr.strings_are_concatenations` — string results are pure concatenations.
-/

namespace Lox

/-! ## Operators with strings as results -/

/-- No operator in front of a value gives a string. -/
theorem UnaryOp.apply_ne_string (op : UnaryOp) (v : Value) (text : String) :
    op.apply v ≠ .ok (.string text) := by
  cases op with
  | not => simp [apply]
  | negate => cases v <;> simp [apply]

namespace BinaryOp

/-- What is defined on numbers gives a string only if its results are strings. -/
theorem onNumbers_ne_string {f : Number → Number → Value} {text : String}
    (h : ∀ x y, f x y ≠ .string text) (a b : Value) : onNumbers f a b ≠ .ok (.string text) := by
  intro hstring
  unfold onNumbers at hstring
  split at hstring
  · exact h _ _ (Except.ok.inj hstring)
  · cases hstring

/-- An addition gives a string if and only if it is given two, of which it is made. -/
theorem plus_eq_string_iff {a b : Value} {text : String} :
    plus a b = .ok (.string text) ↔ ∃ s t, a = .string s ∧ b = .string t ∧ text = s ++ t := by
  cases a <;> cases b <;> simp [plus, eq_comm]

/-- **A string is the sum of two strings.** -/
theorem apply_eq_string_iff {op : BinaryOp} {a b : Value} {text : String} :
    op.apply a b = .ok (.string text) ↔
      op = .add ∧ ∃ s t, a = .string s ∧ b = .string t ∧ text = s ++ t := by
  cases op with
  | add => simpa [apply] using plus_eq_string_iff
  | equal | notEqual => simp [apply]
  | greater | greaterEqual | less | lessEqual | subtract | multiply | divide =>
    refine iff_of_false (onNumbers_ne_string ?_ a b) ?_
    · intro x y h
      cases h
    · rintro ⟨h, -⟩
      cases h

/-- The tokens of the addition are the plus signs. -/
theorem binaryOp?_eq_add_iff {kind : Kind} : kind.binaryOp? = some .add ↔ kind = .symbol .plus := by
  constructor
  · exact eq_symbol_of_binaryOp?
  · rintro rfl
    rfl

end BinaryOp

namespace Token

/-- To lay a failure to a token changes no result. -/
theorem blame_eq_ok_iff {t : Token} {outcome : Except RuntimeCause Value} {v : Value} :
    t.blame outcome = .ok v ↔ outcome = .ok v := by
  cases outcome <;> simp [blame, Except.mapError]

/-- No token in front of a value gives a string. -/
theorem applyUnary_ne_string (t : Token) (v : Value) (text : String) :
    t.applyUnary v ≠ .ok (.string text) := by
  rw [applyUnary, ne_eq, blame_eq_ok_iff]
  cases t.kind.unaryOp? with
  | some op => exact op.apply_ne_string v text
  | none =>
    intro h
    cases h

/-- A token between two values gives a string if and only if it is a plus sign between two strings. -/
theorem applyBinary_eq_string_iff {t : Token} {a b : Value} {text : String} :
    t.applyBinary a b = .ok (.string text) ↔ t.kind = .symbol .plus ∧
      ∃ r s, a = .string r ∧ b = .string s ∧ text = r ++ s := by
  rw [applyBinary, blame_eq_ok_iff, ← BinaryOp.binaryOp?_eq_add_iff]
  cases t.kind.binaryOp? with
  | none => simp
  | some op => simpa using BinaryOp.apply_eq_string_iff

end Token

namespace Expr

/-! ## Trees of strings -/

/-- The literals of a tree, from left to right. -/
def literals : Expr → List Value
  | literal v => [v]
  | grouping inner => inner.literals
  | unary _ operand => operand.literals
  | binary left _ right => left.literals ++ right.literals

/-- **Trees of strings, groups and additions**: all literals are strings, no operator stands in front of
an operand, and all operators between two are plus signs. -/
def AddsStrings (e : Expr) : Prop :=
  e.All (fun v => ∃ s, v = .string s) (fun _ => False) (fun t => t.kind = .symbol .plus)

/-- **Nodes that have no place in a tree of strings, groups and additions.** -/
inductive Foreign : Expr → Prop
  | literal {v : Value} (noString : ∀ s, v ≠ .string s) : Foreign (literal v)
  | unary (t : Token) (operand : Expr) : Foreign (unary t operand)
  | binary {t : Token} (left right : Expr) (noPlus : t.kind ≠ .symbol .plus) :
      Foreign (binary left t right)

/-- The literals of a tree of strings, groups and additions are texts. -/
theorem AddsStrings.exists_literals {e : Expr} (adds : e.AddsStrings) :
    ∃ texts : List String, e.literals = texts.map .string := by
  induction e with
  | literal v =>
    obtain ⟨s, rfl⟩ := adds
    exact ⟨[s], rfl⟩
  | grouping inner ih => exact ih adds
  | unary t operand => exact adds.1.elim
  | binary left t right ihl ihr =>
    obtain ⟨ls, hl⟩ := ihl adds.1
    obtain ⟨rs, hr⟩ := ihr adds.2.2
    exact ⟨ls ++ rs, by rw [literals, hl, hr, List.map_append]⟩

/-- A node that has no place in a tree of strings, groups and additions is no part of one. -/
theorem AddsStrings.not_foreign {e part : Expr} (adds : e.AddsStrings) (hpart : part.Part e) :
    ¬part.Foreign := by
  intro foreign
  have h := hpart.all adds
  cases foreign with
  | literal noString =>
    obtain ⟨s, rfl⟩ := h
    exact noString s rfl
  | unary t operand => exact h.1
  | binary left right noPlus => exact noPlus h.2.1

/-- **The trees with strings as values** are those of strings, groups and additions, and the value is
made of the literals from left to right.

**Proof sketch.** Induction on the tree. An operator in front of an operand never gives a string, and one
between two operands gives a string if and only if it is a plus sign and both operands have strings as
values, to which the induction hypotheses apply. -/
theorem eval_eq_string_iff {e : Expr} {text : String} :
    e.eval = .ok (.string text) ↔
      e.AddsStrings ∧ ∃ texts : List String, e.literals = texts.map .string ∧
        text = String.join texts := by
  induction e generalizing text with
  | literal v =>
    constructor
    · intro h
      obtain rfl := Except.ok.inj h
      exact ⟨⟨text, rfl⟩, [text], rfl, by simp⟩
    · rintro ⟨⟨s, rfl⟩, texts, htexts, rfl⟩
      obtain rfl : texts = [s] := by
        have hmap : [s].map Value.string = texts.map Value.string := htexts
        exact (List.map_injective_iff.mpr (fun _ _ => Value.string.inj) hmap).symm
      simp [eval]
  | grouping inner ih => exact ih
  | unary t operand =>
    constructor
    · intro h
      obtain ⟨v, -, hv⟩ := bind_eq_ok_iff.mp h
      exact absurd hv (t.applyUnary_ne_string v text)
    · rintro ⟨adds, -⟩
      exact adds.1.elim
  | binary left t right ihl ihr =>
    constructor
    · intro h
      obtain ⟨a, first, hrest⟩ := bind_eq_ok_iff.mp h
      obtain ⟨b, second, hsum⟩ := bind_eq_ok_iff.mp hrest
      obtain ⟨plus, r, s, rfl, rfl, rfl⟩ := Token.applyBinary_eq_string_iff.mp hsum
      obtain ⟨addsLeft, ls, hl, rfl⟩ := ihl.mp first
      obtain ⟨addsRight, rs, hr, rfl⟩ := ihr.mp second
      refine ⟨⟨addsLeft, plus, addsRight⟩, ls ++ rs, ?_, ?_⟩
      · rw [literals, hl, hr, List.map_append]
      · rw [String.join_append]
    · rintro ⟨⟨addsLeft, plus, addsRight⟩, texts, htexts, rfl⟩
      obtain ⟨ls, rs, rfl, hl, hr⟩ := List.append_eq_map_iff.mp htexts
      have first := ihl.mpr ⟨addsLeft, ls, hl.symm, rfl⟩
      have second := ihr.mpr ⟨addsRight, rs, hr.symm, rfl⟩
      refine bind_eq_ok_iff.mpr ⟨_, first, bind_eq_ok_iff.mpr ⟨_, second, ?_⟩⟩
      exact Token.applyBinary_eq_string_iff.mpr
        ⟨plus, _, _, rfl, rfl, by rw [String.join_append]⟩

/-- **String results are pure concatenations.** A tree has a string as its value if and only if it is made
of strings, groups and additions, and the string is then made of the literals from left to right. So two
such trees with the same literals have the same string as value, however they are grouped; and a tree of
which some part is another literal, an operator in front of an operand or another operator between two
never has a string as its value. -/
theorem strings_are_concatenations (e : Expr) :
    (∀ text, e.eval = .ok (.string text) ↔
      e.AddsStrings ∧ ∃ texts : List String, e.literals = texts.map .string ∧
        text = String.join texts) ∧
    (∀ f : Expr, e.AddsStrings → f.AddsStrings → e.literals = f.literals →
      ∃ text, e.eval = .ok (.string text) ∧ f.eval = .ok (.string text)) ∧
    (∀ part : Expr, part.Part e → part.Foreign → ∀ text, e.eval ≠ .ok (.string text)) := by
  refine ⟨fun text => eval_eq_string_iff, fun f adds adds' same => ?_, ?_⟩
  · obtain ⟨texts, htexts⟩ := adds.exists_literals
    refine ⟨String.join texts, eval_eq_string_iff.mpr ⟨adds, texts, htexts, rfl⟩, ?_⟩
    exact eval_eq_string_iff.mpr ⟨adds', texts, same ▸ htexts, rfl⟩
  · intro part hpart foreign text h
    exact (eval_eq_string_iff.mp h).1.not_foreign hpart foreign

/-- Three strings give the same string in both groupings, and none at all if a negation stands in front of
the last one. -/
theorem strings_are_concatenations_three :
    let a : Expr := literal (.string "a")
    let b : Expr := literal (.string "b")
    let c : Expr := literal (.string "c")
    let sum (x y : Expr) : Expr := binary x (.ofKind (.symbol .plus) 1) y
    let negated : Expr := unary (.ofKind (.symbol .bang) 1) c
    (sum (sum a b) c).eval = .ok (.string "abc") ∧
      (∃ text, (sum a (grouping (sum b c))).eval = .ok (.string text) ∧
        (sum (sum a b) c).eval = .ok (.string text)) ∧
      ∀ text, (sum a negated).eval ≠ .ok (.string text) := by
  intro a b c sum negated
  have adds : (sum a (grouping (sum b c))).AddsStrings :=
    ⟨⟨_, rfl⟩, rfl, ⟨_, rfl⟩, rfl, ⟨_, rfl⟩⟩
  have adds' : (sum (sum a b) c).AddsStrings := ⟨⟨⟨_, rfl⟩, rfl, ⟨_, rfl⟩⟩, rfl, ⟨_, rfl⟩⟩
  refine ⟨?_, (strings_are_concatenations _).2.1 _ adds adds' rfl, ?_⟩
  · exact ((strings_are_concatenations _).1 "abc").mpr ⟨adds', ["a", "b", "c"], rfl, by simp⟩
  · exact (strings_are_concatenations _).2.2 negated (.right a _ (.whole _)) (.unary _ c)

end Expr

end Lox

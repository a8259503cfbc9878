import Lox.Expr.Parse
import Mathlib.Data.List.Forall2

set_option autoImplicit false

/-!
# The shape of expressions

An expression is written without the structure of its tree: what stands on the page is a row of
values, operators and parentheses. This module defines that row, and the trees whose structure is
the one that the precedence of the operators gives to it.

## Main definitions

* `Lox.Token.Denotes` — the values that tokens stand for by themselves.
* `Lox.Expr.All` — what holds of all literals and all operators of a tree.
* `Lox.Expr.Proper` — all operators are operators of their position.
* `Lox.Expr.level`, `Lox.Expr.Shaped` — how tightly a tree binds, and whether all its operands bind
  tightly enough to need no parentheses.
* `Lox.Expr.yield`, `Lox.Item.Spells` — the row of a tree, and the tokens that its items stand for.

## Main results

* `Lox.Expr.spells_grouping`, `Lox.Expr.spells_unary`, `Lox.Expr.spells_binary` — the tokens of a
  tree are the tokens of its parts in order.
-/

namespace Lox

/-! ## Tokens -/

/-- The kinds of tokens that are expressions by themselves. -/
def Kind.leaves : List Kind :=
  [.number, .string, .keyword .trueWord, .keyword .falseWord, .keyword .nilWord]

namespace BinaryOp

/-- The symbol that an operator is written with. -/
def symbol : BinaryOp → Symbol
  | equal => .equalEqual
  | notEqual => .bangEqual
  | greater => .greater
  | greaterEqual => .greaterEqual
  | less => .less
  | lessEqual => .lessEqual
  | add => .plus
  | subtract => .minus
  | multiply => .star
  | divide => .slash

/-- The kinds that are an operator are those of its symbol. -/
theorem eq_symbol_of_binaryOp? {k : Kind} {op : BinaryOp} (h : k.binaryOp? = some op) :
    k = .symbol op.symbol := by
  unfold Kind.binaryOp? at h
  split at h <;> cases h <;> rfl

end BinaryOp

namespace Token

/-- Whether a token is an operator in front of an operand. -/
def IsUnary (t : Token) : Prop :=
  t.kind.unaryOp?.isSome

/-- Whether a token is an operator between two operands. -/
def IsBinary (t : Token) : Prop :=
  t.kind.binaryOp?.isSome

instance (t : Token) : Decidable t.IsUnary :=
  inferInstanceAs (Decidable (t.kind.unaryOp?.isSome))

instance (t : Token) : Decidable t.IsBinary :=
  inferInstanceAs (Decidable (t.kind.binaryOp?.isSome))

/-- The tokens in front of an operand are those of the two unary operators. -/
theorem isUnary_iff {t : Token} :
    t.IsUnary ↔ ∃ s ∈ [Symbol.bang, Symbol.minus], t.kind = .symbol s := by
  simp only [IsUnary, List.mem_cons, List.not_mem_nil, or_false, exists_eq_or_imp, exists_eq_left]
  constructor
  · intro h
    unfold Kind.unaryOp? at h
    split at h
    · next hk => exact .inl hk
    · next hk => exact .inr hk
    · cases h
  · rintro (hk | hk) <;> rw [hk] <;> rfl

/-- There are two operators in front of an operand. -/
theorem IsUnary.kind_eq {t : Token} (h : t.IsUnary) :
    t.kind = .symbol .bang ∨ t.kind = .symbol .minus := by
  simpa using isUnary_iff.mp h

/-- The tokens between two operands are those of the binary operators. -/
theorem IsBinary.exists_symbol {t : Token} (h : t.IsBinary) :
    ∃ op : BinaryOp, t.kind = .symbol op.symbol := by
  obtain ⟨op, hop⟩ := Option.isSome_iff_exists.mp h
  exact ⟨op, BinaryOp.eq_symbol_of_binaryOp? hop⟩

/-- How tightly a token binds its two operands, or `0` if it is no binary operator. -/
def precedence (t : Token) : Nat :=
  (t.kind.binaryOp?.map BinaryOp.precedence).getD 0

/-- The precedence of a token is that of its operator. -/
theorem precedence_of_binaryOp? {t : Token} {op : BinaryOp} (h : t.kind.binaryOp? = some op) :
    t.precedence = op.precedence := by
  simp [precedence, h]

/-- **What a token stands for by itself**: three reserved words for themselves, and a number or a
quoted text for its literal, or for `nil` if it has none. -/
inductive Denotes (t : Token) : Value → Prop
  | falseWord (kind : t.kind = .keyword .falseWord) : Denotes t (.boolean false)
  | trueWord (kind : t.kind = .keyword .trueWord) : Denotes t (.boolean true)
  | nilWord (kind : t.kind = .keyword .nilWord) : Denotes t .nil
  | number {x : Number} (kind : t.kind = .number ∨ t.kind = .string)
      (literal : t.literal = some (.number x)) : Denotes t (.number x)
  | string {s : String} (kind : t.kind = .number ∨ t.kind = .string)
      (literal : t.literal = some (.string s)) : Denotes t (.string s)
  | missing (kind : t.kind = .number ∨ t.kind = .string) (literal : t.literal = none) :
      Denotes t .nil

/-- A number or a quoted text has the value of its literal. -/
theorem value?_eq_some_iff_of_literal {t : Token} {v : Value}
    (hk : t.kind = .number ∨ t.kind = .string) : t.value? = some v ↔ t.Denotes v := by
  have hv : t.value? = some ((t.literal.map Value.ofLiteral).getD .nil) := by
    rcases hk with hk | hk <;> simp [value?, hk]
  rw [hv, Option.some_inj]
  constructor
  · rintro rfl
    rcases hl : t.literal with _ | x | s
    · exact .missing hk hl
    · exact .number hk hl
    · exact .string hk hl
  · rintro (h | h | h | ⟨-, hl⟩ | ⟨-, hl⟩ | ⟨-, hl⟩)
    case number | string | missing => simp [hl, Value.ofLiteral]
    all_goals simp [h] at hk

/-- The value of a token is what it stands for. -/
theorem value?_eq_some_iff {t : Token} {v : Value} : t.value? = some v ↔ t.Denotes v := by
  by_cases hk : t.kind = .number ∨ t.kind = .string
  · exact value?_eq_some_iff_of_literal hk
  constructor
  · intro h
    unfold value? at h
    split at h
    case h_1 hf => cases h; exact .falseWord hf
    case h_2 ht => cases h; exact .trueWord ht
    case h_3 hn => cases h; exact .nilWord hn
    case h_4 hl => exact absurd (.inl hl) hk
    case h_5 hl => exact absurd (.inr hl) hk
    case h_6 => cases h
  · rintro (h | h | h | ⟨h, -⟩ | ⟨h, -⟩ | ⟨h, -⟩)
    case number | string | missing => exact absurd h hk
    all_goals simp [value?, h]

/-- The kinds of tokens that stand for a value are the leaves. -/
theorem exists_denotes_iff {t : Token} : (∃ v, t.Denotes v) ↔ t.kind ∈ Kind.leaves := by
  constructor
  · rintro ⟨v, hk | hk | hk | ⟨hk | hk, -⟩ | ⟨hk | hk, -⟩ | ⟨hk | hk, -⟩⟩ <;> rw [hk] <;> decide
  · intro hk
    have hv : t.value?.isSome := by
      simp only [Kind.leaves, List.mem_cons, List.not_mem_nil, or_false] at hk
      rcases hk with hk | hk | hk | hk | hk <;> simp [value?, hk]
    obtain ⟨v, hv⟩ := Option.isSome_iff_exists.mp hv
    exact ⟨v, value?_eq_some_iff.mp hv⟩

/-- An operator in front of an operand is no expression by itself. -/
theorem IsUnary.value?_eq_none {t : Token} (h : t.IsUnary) : t.value? = none := by
  unfold IsUnary Kind.unaryOp? at h
  unfold value?
  split at h <;> simp_all

/-- An opening parenthesis is no expression by itself. -/
theorem value?_of_leftParen {t : Token} (h : t.kind = .symbol .leftParen) : t.value? = none := by
  simp [value?, h]

end Token

namespace Expr

/-- What binds more tightly than all binary operators: values, groups and unary operators. -/
def tightest : Nat := 5

/-- How tightly a tree binds: as its outermost operator, if that is a binary one. -/
def level : Expr → Nat
  | binary _ operator _ => operator.precedence
  | _ => tightest

end Expr

/-- No binary operator binds as tightly as a unary one. -/
theorem BinaryOp.precedence_lt_tightest (op : BinaryOp) : op.precedence < Expr.tightest := by
  cases op <;> decide

/-- No token binds its operands as tightly as a unary operator does. -/
theorem Token.precedence_lt_tightest (t : Token) : t.precedence < Expr.tightest := by
  rw [precedence]
  cases t.kind.binaryOp? with
  | none => decide
  | some op => exact op.precedence_lt_tightest

namespace Expr

/-- No tree binds more tightly than a value. -/
theorem level_le_tightest (e : Expr) : e.level ≤ tightest := by
  cases e with
  | binary left t right => exact Nat.le_of_lt t.precedence_lt_tightest
  | _ => exact Nat.le_refl _

/-! ## Properties of all parts -/

/-- What holds of all values that are written out in a tree, of all operators in front of an operand
and of all operators between two. -/
def All (value : Value → Prop) (before between : Token → Prop) : Expr → Prop
  | literal v => value v
  | grouping inner => inner.All value before between
  | unary operator operand => before operator ∧ operand.All value before between
  | binary left operator right =>
    left.All value before between ∧ between operator ∧ right.All value before between

/-- What holds of all parts may be weakened part by part. -/
theorem All.imp {value value' : Value → Prop} {before before' between between' : Token → Prop}
    {e : Expr} (h : e.All value before between) (hv : ∀ v, value v → value' v)
    (hb : ∀ t, before t → before' t) (hw : ∀ t, between t → between' t) :
    e.All value' before' between' := by
  induction e with
  | literal v => exact hv v h
  | grouping inner ih => exact ih h
  | unary t operand ih => exact ⟨hb t h.1, ih h.2⟩
  | binary left t right ihl ihr => exact ⟨ihl h.1, hw t h.2.1, ihr h.2.2⟩

/-- What holds of all parts on two accounts holds of them on both together. -/
theorem All.and {value value' : Value → Prop} {before before' between between' : Token → Prop}
    {e : Expr} (h : e.All value before between) (h' : e.All value' before' between') :
    e.All (fun v => value v ∧ value' v) (fun t => before t ∧ before' t)
      (fun t => between t ∧ between' t) := by
  induction e with
  | literal v => exact ⟨h, h'⟩
  | grouping inner ih => exact ih h h'
  | unary t operand ih => exact ⟨⟨h.1, h'.1⟩, ih h.2 h'.2⟩
  | binary left t right ihl ihr =>
    exact ⟨ihl h.1 h'.1, ⟨h.2.1, h'.2.1⟩, ihr h.2.2 h'.2.2⟩

/-- Whether all operators of a tree are operators of their position. -/
def Proper (e : Expr) : Prop :=
  e.All (fun _ => True) Token.IsUnary Token.IsBinary

/-- **Grammar-shaped trees**: the operand of a unary operator is no binary operation, and a binary
operation has a left operand that binds at least as tightly as itself and a right operand that binds
more tightly. -/
def Shaped : Expr → Prop
  | literal _ => True
  | grouping inner => inner.Shaped
  | unary _ operand => operand.Shaped ∧ tightest ≤ operand.level
  | binary left operator right =>
    left.Shaped ∧ right.Shaped ∧ operator.precedence ≤ left.level ∧
      operator.precedence < right.level

/-- Whether a tree is shaped can be decided node by node. -/
instance decidableShaped : (e : Expr) → Decidable e.Shaped
  | literal _ => .isTrue trivial
  | grouping inner => decidableShaped inner
  | unary _ operand =>
    have := decidableShaped operand
    inferInstanceAs (Decidable (operand.Shaped ∧ tightest ≤ operand.level))
  | binary left operator right =>
    have := decidableShaped left
    have := decidableShaped right
    inferInstanceAs (Decidable (left.Shaped ∧ right.Shaped ∧ operator.precedence ≤ left.level ∧
      operator.precedence < right.level))

end Expr

/-! ## The row of a tree -/

/-- What a tree contributes to the row that is written for it. -/
inductive Item
  /-- A value. -/
  | value (v : Value)
  /-- An operator, unary or binary. -/
  | operator (t : Token)
  /-- The parenthesis that opens a group. -/
  | groupStart
  /-- The parenthesis that closes a group. -/
  | groupEnd
deriving Repr

/-- The row of a tree from left to right. -/
def Expr.yield : Expr → List Item
  | literal v => [.value v]
  | grouping inner => .groupStart :: (inner.yield ++ [.groupEnd])
  | unary operator operand => .operator operator :: operand.yield
  | binary left operator right => left.yield ++ .operator operator :: right.yield

/-- The tokens that an item can stand for: a value for the tokens that stand for it, an operator only
for itself, and each end of a group for its parenthesis. -/
def Item.Spells : Item → Token → Prop
  | value v, t => t.Denotes v
  | operator s, t => s = t
  | groupStart, t => t.kind = .symbol .leftParen
  | groupEnd, t => t.kind = .symbol .rightParen

/-- A row in two parts stands for tokens in two parts. -/
theorem forall₂_append_left_iff {α β : Type} {R : α → β → Prop} {xs ys : List α} {zs : List β} :
    List.Forall₂ R (xs ++ ys) zs ↔
      ∃ us vs, zs = us ++ vs ∧ List.Forall₂ R xs us ∧ List.Forall₂ R ys vs := by
  constructor
  · intro h
    exact ⟨zs.take xs.length, zs.drop xs.length, (List.take_append_drop _ _).symm,
      by simpa using List.forall₂_take xs.length h, by simpa using List.forall₂_drop xs.length h⟩
  · rintro ⟨us, vs, rfl, hx, hy⟩
    exact List.rel_append hx hy

namespace Expr

/-- The tokens that the row of a tree stands for. -/
def Spells (e : Expr) (words : List Token) : Prop :=
  List.Forall₂ Item.Spells e.yield words

/-- A value stands for one token. -/
theorem spells_literal {v : Value} {words : List Token} :
    (literal v).Spells words ↔ ∃ t, words = [t] ∧ t.Denotes v := by
  simp [Spells, yield, Item.Spells, List.forall₂_cons_left_iff, and_comm]

/-- A group stands for what it holds in parentheses. -/
theorem spells_grouping {inner : Expr} {words : List Token} :
    (grouping inner).Spells words ↔ ∃ start body close, words = start :: (body ++ [close]) ∧
      start.kind = .symbol .leftParen ∧ inner.Spells body ∧ close.kind = .symbol .rightParen := by
  simp only [Spells, yield, List.forall₂_cons_left_iff, forall₂_append_left_iff, Item.Spells,
    List.forall₂_nil_left_iff]
  constructor
  · rintro ⟨start, _, hs, ⟨body, _, rfl, hb, close, _, hc, rfl, rfl⟩, rfl⟩
    exact ⟨start, body, close, rfl, hs, hb, hc⟩
  · rintro ⟨start, body, close, rfl, hs, hb, hc⟩
    exact ⟨start, _, hs, ⟨body, _, rfl, hb, close, _, hc, rfl, rfl⟩, rfl⟩

/-- A unary operation stands for its operator and what its operand stands for. -/
theorem spells_unary {t : Token} {operand : Expr} {words : List Token} :
    (unary t operand).Spells words ↔ ∃ body, words = t :: body ∧ operand.Spells body := by
  simp only [Spells, yield, List.forall₂_cons_left_iff, Item.Spells]
  constructor
  · rintro ⟨_, body, rfl, hb, rfl⟩
    exact ⟨body, rfl, hb⟩
  · rintro ⟨body, rfl, hb⟩
    exact ⟨t, body, rfl, hb, rfl⟩

/-- A binary operation stands for what its operands stand for around its operator. -/
theorem spells_binary {left right : Expr} {t : Token} {words : List Token} :
    (binary left t right).Spells words ↔
      ∃ us vs, words = us ++ t :: vs ∧ left.Spells us ∧ right.Spells vs := by
  simp only [Spells, yield, forall₂_append_left_iff, List.forall₂_cons_left_iff, Item.Spells]
  constructor
  · rintro ⟨us, _, rfl, hu, _, vs, rfl, hv, rfl⟩
    exact ⟨us, vs, rfl, hu, hv⟩
  · rintro ⟨us, vs, rfl, hu, hv⟩
    exact ⟨us, _, rfl, hu, t, vs, rfl, hv, rfl⟩

end Expr

end Lox

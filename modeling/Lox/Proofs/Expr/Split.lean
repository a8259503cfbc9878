import Lox.Proofs.Cursor
import Mathlib.Data.List.TakeWhile

set_option autoImplicit false

/-!
# Splitting at the loosest operator

Which tree a row of tokens makes up can be said without reading it from left to right. If there are
binary operators outside of all parentheses, the tree splits at the last of those that bind least; if
there are none, its first token says what it is. Either way the parts of the tree are what the parts of
the row make up by themselves.

A minus is a binary operator only behind an operand, and a parenthesis is the end of a group only for the
one that is open. So operators are looked for behind tokens that end an operand, and outside of
parentheses by counting those that have been opened.

## Main definitions

* `Lox.openGroups` — how many more groups are opened than closed.
* `Lox.Balanced` — groups are closed after they have been opened, and all of them are.
* `Lox.Token.EndsOperand` — the last tokens of operands.
* `Lox.OuterOperator` — a binary operator outside of all parentheses.
* `Lox.LoosestOperator` — the one at which a row is split.
* `Lox.SplitsInto` — the tree that a row is split into.

## Main results

* `Lox.Expr.Proper.balanced` — the row of a tree is balanced.
* `Lox.Expr.level_le_precedence` — all outer operators bind at least as tightly as the tree.
* `Lox.splitsInto_of_parse` — what makes up a tree is split into it.
-/

namespace Lox

/-! ## Groups that are open -/

/-- How many groups a token opens, and how many fewer are open if it closes one. -/
def Token.opens (t : Token) : Int :=
  if t.kind = .symbol .leftParen then 1 else if t.kind = .symbol .rightParen then -1 else 0

/-- How many more groups are opened than closed in a row of tokens. -/
def openGroups : List Token → Int
  | [] => 0
  | t :: ts => t.opens + openGroups ts

@[simp] theorem openGroups_nil : openGroups [] = 0 := rfl

@[simp] theorem openGroups_cons (t : Token) (ts : List Token) :
    openGroups (t :: ts) = t.opens + openGroups ts := rfl

@[simp] theorem openGroups_append (us vs : List Token) :
    openGroups (us ++ vs) = openGroups us + openGroups vs := by
  induction us with
  | nil => simp
  | cons t us ih => rw [List.cons_append, openGroups_cons, openGroups_cons, ih, Int.add_assoc]

namespace Token

/-- An opening parenthesis opens a group. -/
theorem opens_of_leftParen {t : Token} (h : t.kind = .symbol .leftParen) : t.opens = 1 := by
  simp [opens, h]

/-- A closing parenthesis closes a group. -/
theorem opens_of_rightParen {t : Token} (h : t.kind = .symbol .rightParen) : t.opens = -1 := by
  simp [opens, h]

/-- Operators in front of an operand open no group. -/
theorem IsUnary.opens_eq_zero {t : Token} (h : t.IsUnary) : t.opens = 0 := by
  rcases h.kind_eq with hk | hk <;> simp [opens, hk]

/-- Operators between two operands open no group. -/
theorem IsBinary.opens_eq_zero {t : Token} (h : t.IsBinary) : t.opens = 0 := by
  obtain ⟨op, hk⟩ := h.exists_symbol
  cases op <;> simp [opens, hk, BinaryOp.symbol]

/-- Values open no group. -/
theorem Denotes.opens_eq_zero {t : Token} {v : Value} (h : t.Denotes v) : t.opens = 0 := by
  have hk := exists_denotes_iff.mp ⟨v, h⟩
  simp only [Kind.leaves, List.mem_cons, List.not_mem_nil, or_false] at hk
  rcases hk with hk | hk | hk | hk | hk <;> simp [opens, hk]

end Token

/-- **Balanced rows**: no group is closed that has not been opened in the row, and all groups are closed
in the end. -/
structure Balanced (w : List Token) : Prop where
  /-- At no place more groups have been closed than opened. -/
  nonneg : ∀ p, p <+: w → 0 ≤ openGroups p
  /-- In the end no group is open. -/
  closed : openGroups w = 0

namespace Balanced

/-- A token that opens no group and closes none is balanced. -/
theorem singleton {t : Token} (h : t.opens = 0) : Balanced [t] where
  nonneg p hp := by
    rcases List.prefix_cons_iff.mp hp with rfl | ⟨q, rfl, hq⟩
    · exact Int.le_refl 0
    · simp [List.prefix_nil.mp hq, h]
  closed := by rw [openGroups_cons, openGroups_nil, h, Int.add_zero]

/-- Balanced rows are balanced one behind another. -/
theorem append {us vs : List Token} (hu : Balanced us) (hv : Balanced vs) : Balanced (us ++ vs) where
  nonneg p hp := by
    rcases List.prefix_or_prefix_of_prefix hp (List.prefix_append us vs) with hp' | ⟨q, rfl⟩
    · exact hu.nonneg p hp'
    · rw [openGroups_append, hu.closed, Int.zero_add]
      exact hv.nonneg q ((List.prefix_append_right_inj us).mp hp)
  closed := by rw [openGroups_append, hu.closed, hv.closed, Int.add_zero]

/-- A balanced row is balanced in parentheses. -/
theorem enclosed {body : List Token} (h : Balanced body) {start close : Token}
    (hs : start.kind = .symbol .leftParen) (hc : close.kind = .symbol .rightParen) :
    Balanced (start :: (body ++ [close])) where
  nonneg p hp := by
    rcases List.prefix_cons_iff.mp hp with rfl | ⟨q, rfl, hq⟩
    · exact Int.le_refl 0
    rw [openGroups_cons, Token.opens_of_leftParen hs]
    rcases List.prefix_concat_iff.mp hq with rfl | hq
    · simp [h.closed, Token.opens_of_rightParen hc]
    · have := h.nonneg q hq
      omega
  closed := by
    simp [h.closed, Token.opens_of_leftParen hs, Token.opens_of_rightParen hc]

end Balanced

/-- **The row of a tree is balanced.** -/
theorem Expr.Proper.balanced {e : Expr} (proper : e.Proper) {w : List Token} (spells : e.Spells w) :
    Balanced w := by
  induction e generalizing w with
  | literal v =>
    obtain ⟨t, rfl, hv⟩ := spells_literal.mp spells
    exact .singleton hv.opens_eq_zero
  | grouping inner ih =>
    obtain ⟨start, body, close, rfl, hs, hb, hc⟩ := spells_grouping.mp spells
    exact (ih proper hb).enclosed hs hc
  | unary t operand ih =>
    obtain ⟨body, rfl, hb⟩ := spells_unary.mp spells
    exact (Balanced.singleton proper.1.opens_eq_zero).append (ih proper.2 hb)
  | binary left t right ihl ihr =>
    obtain ⟨us, vs, rfl, hu, hv⟩ := spells_binary.mp spells
    obtain ⟨hproperl, ht, hproperr⟩ := proper
    have hright := (Balanced.singleton ht.opens_eq_zero).append (ihr hproperr hv)
    exact (ihl hproperl hu).append hright

/-! ## Operators outside of all parentheses -/

namespace Token

/-- **The last tokens of operands**: values, and the ends of groups. -/
def EndsOperand (t : Token) : Prop :=
  t.kind ∈ Kind.leaves ∨ t.kind = .symbol .rightParen

instance (t : Token) : Decidable t.EndsOperand :=
  inferInstanceAs (Decidable (_ ∨ _))

/-- No operand ends in an operator that stands in front of one. -/
theorem IsUnary.not_endsOperand {t : Token} (h : t.IsUnary) : ¬t.EndsOperand := by
  rcases h.kind_eq with hk | hk <;> simp [EndsOperand, hk, Kind.leaves]

/-- No operand ends in an operator that stands between two. -/
theorem IsBinary.not_endsOperand {t : Token} (h : t.IsBinary) : ¬t.EndsOperand := by
  obtain ⟨op, hk⟩ := h.exists_symbol
  cases op <;> simp [EndsOperand, hk, Kind.leaves, BinaryOp.symbol]

/-- Behind a token in which no operand ends, the end of an operand stands further behind. -/
theorem mem_getLast?_of_cons {s p : Token} {ts : List Token} (hs : ¬s.EndsOperand)
    (hp : p ∈ (s :: ts).getLast?) (hends : p.EndsOperand) : p ∈ ts.getLast? := by
  rw [List.getLast?_cons] at hp
  cases hlast : ts.getLast? with
  | none =>
    rw [hlast] at hp
    cases hp
    exact absurd hends hs
  | some q =>
    rw [hlast] at hp
    exact hp

end Token

/-- The row of a tree ends like an operand. -/
theorem Expr.Spells.exists_endsOperand {e : Expr} {w : List Token} (spells : e.Spells w) :
    ∃ t ∈ w.getLast?, t.EndsOperand := by
  induction e generalizing w with
  | literal v =>
    obtain ⟨t, rfl, hv⟩ := spells_literal.mp spells
    exact ⟨t, rfl, .inl (Token.exists_denotes_iff.mp ⟨v, hv⟩)⟩
  | grouping inner ih =>
    obtain ⟨start, body, close, rfl, hs, hb, hc⟩ := spells_grouping.mp spells
    refine ⟨close, ?_, .inr hc⟩
    rw [← List.cons_append, List.getLast?_concat]
    rfl
  | unary t operand ih =>
    obtain ⟨body, rfl, hb⟩ := spells_unary.mp spells
    obtain ⟨last, hlast, hends⟩ := ih hb
    refine ⟨last, ?_, hends⟩
    rw [List.getLast?_cons, Option.mem_def.mp hlast]
    rfl
  | binary left t right ihl ihr =>
    obtain ⟨us, vs, rfl, hu, hv⟩ := spells_binary.mp spells
    obtain ⟨last, hlast, hends⟩ := ihr hv
    refine ⟨last, ?_, hends⟩
    rw [List.getLast?_append, List.getLast?_cons, Option.mem_def.mp hlast]
    rfl

/-- **A binary operator outside of all parentheses**: a token that can stand between two operands, with
the end of an operand in front of it and all groups closed that have been opened in front of it. -/
structure OuterOperator (w left : List Token) (t : Token) (right : List Token) : Prop where
  /-- The row in front of the operator and behind it. -/
  row : w = left ++ t :: right
  /-- The token can stand between two operands. -/
  operator : t.IsBinary
  /-- An operand ends in front of it. -/
  behind : ∃ p ∈ left.getLast?, p.EndsOperand
  /-- No group is open. -/
  outside : openGroups left = 0

/-- **The operator at which a row is split**: of the operators outside of all parentheses, the last one
of those that bind least. -/
structure LoosestOperator (w left : List Token) (t : Token) (right : List Token) : Prop
    extends OuterOperator w left t right where
  /-- No other one binds less. -/
  least : ∀ left' t' right', OuterOperator w left' t' right' → t.precedence ≤ t'.precedence
  /-- All others behind it bind more. -/
  last : ∀ left' t' right', OuterOperator w left' t' right' → left.length < left'.length →
    t.precedence < t'.precedence

namespace OuterOperator

variable {left right : List Token} {t : Token}

/-- Something stands in front of an outer operator. -/
theorem left_ne_nil {w : List Token} (h : OuterOperator w left t right) : left ≠ [] := by
  rintro rfl
  obtain ⟨p, ⟨⟩, -⟩ := h.behind

/-- There is none in a single token. -/
theorem not_singleton {s : Token} : ¬OuterOperator [s] left t right := by
  intro h
  rcases List.append_eq_singleton_iff.mp h.row.symm with ⟨hleft, -⟩ | ⟨-, hright⟩
  · exact h.left_ne_nil hleft
  · cases hright

/-- There is none in parentheses. -/
theorem not_enclosed {body : List Token} (balanced : Balanced body) {start close : Token}
    (hs : start.kind = .symbol .leftParen) :
    ¬OuterOperator (start :: (body ++ [close])) left t right := by
  intro h
  obtain ⟨hnil, -⟩ | ⟨front, rfl, hrow⟩ := List.append_eq_cons_iff.mp h.row.symm
  · exact h.left_ne_nil hnil
  -- the operator stands in front of the end of the group at the latest
  have hprefix : front <+: body ++ [close] := ⟨t :: right, hrow.symm⟩
  have hfront : front <+: body := by
    have hlength := congrArg List.length hrow
    simp only [List.length_append, List.length_cons, List.length_nil] at hlength
    exact List.prefix_of_prefix_length_le hprefix (List.prefix_append _ _) (by omega)
  have hopen := balanced.nonneg front hfront
  have houtside := h.outside
  rw [openGroups_cons, Token.opens_of_leftParen hs] at houtside
  omega

/-- Behind an operator in front of an operand, those of the operand are left. -/
theorem of_unary {s : Token} (hs : s.IsUnary) {body : List Token}
    (h : OuterOperator (s :: body) left t right) :
    ∃ front, left = s :: front ∧ OuterOperator body front t right := by
  obtain ⟨hnil, -⟩ | ⟨front, rfl, hrow⟩ := List.append_eq_cons_iff.mp h.row.symm
  · exact absurd hnil h.left_ne_nil
  obtain ⟨p, hp, hends⟩ := h.behind
  have houtside := h.outside
  rw [openGroups_cons, hs.opens_eq_zero, Int.zero_add] at houtside
  exact ⟨front, rfl, hrow, h.operator,
    ⟨p, Token.mem_getLast?_of_cons hs.not_endsOperand hp hends, hends⟩, houtside⟩

/-- Of two rows with an operator between them, the outer operators are those of the first row, the
operator between them, and those of the second row. -/
theorem of_binary {us vs : List Token} {s : Token} (balanced : Balanced us) (hs : s.IsBinary)
    (h : OuterOperator (us ++ s :: vs) left t right) :
    (∃ back, us = left ++ t :: back ∧ OuterOperator us left t back) ∨
      (left = us ∧ t = s) ∨ ∃ front, left = us ++ s :: front ∧ OuterOperator vs front t right := by
  -- `mid` is what one of the two cuts has in front of it and the other one behind it
  obtain ⟨mid, rfl, hmid⟩ | ⟨mid, rfl, hmid⟩ := List.append_eq_append_iff.mp h.row
  · obtain ⟨rfl, hcons⟩ | ⟨front, rfl, hvs⟩ := List.cons_eq_append_iff.mp hmid
    · cases hcons
      exact .inr (.inl ⟨List.append_nil us, rfl⟩)
    · obtain ⟨p, hp, hends⟩ := h.behind
      rw [List.getLast?_append_of_ne_nil _ (List.cons_ne_nil s front)] at hp
      have houtside := h.outside
      rw [openGroups_append, openGroups_cons, balanced.closed, hs.opens_eq_zero, Int.zero_add,
        Int.zero_add] at houtside
      exact .inr (.inr ⟨front, rfl, hvs, h.operator,
        ⟨p, Token.mem_getLast?_of_cons hs.not_endsOperand hp hends, hends⟩, houtside⟩)
  · obtain ⟨rfl, hcons⟩ | ⟨back, rfl, -⟩ := List.cons_eq_append_iff.mp hmid
    · cases hcons
      exact .inr (.inl ⟨(List.append_nil left).symm, rfl⟩)
    · exact .inl ⟨back, rfl, rfl, h.operator, h.behind, h.outside⟩

end OuterOperator

/-- **All operators outside of parentheses bind at least as tightly as the tree.** So there are none in a
tree that binds more tightly than binary operations do.

**Proof sketch.** Induction on the tree. An operator in front of an operand leaves the operators of the
operand, which binds most tightly; of a binary operation both operands bind at least as tightly as the
operation. -/
theorem Expr.level_le_precedence {e : Expr} (proper : e.Proper) (shaped : e.Shaped) {w : List Token}
    (spells : e.Spells w) {left right : List Token} {t : Token} (h : OuterOperator w left t right) :
    e.level ≤ t.precedence := by
  induction e generalizing w left right with
  | literal v =>
    obtain ⟨s, rfl, -⟩ := spells_literal.mp spells
    exact absurd h OuterOperator.not_singleton
  | grouping inner ih =>
    obtain ⟨start, body, close, rfl, hs, hb, hc⟩ := spells_grouping.mp spells
    have balanced : Balanced body := Proper.balanced (e := inner) proper hb
    exact absurd h (OuterOperator.not_enclosed balanced hs)
  | unary s operand ih =>
    obtain ⟨body, rfl, hb⟩ := spells_unary.mp spells
    obtain ⟨front, rfl, hbody⟩ := h.of_unary proper.1
    exact Nat.le_trans shaped.2 (ih proper.2 shaped.1 hb hbody)
  | binary a s b iha ihb =>
    obtain ⟨us, vs, rfl, hu, hv⟩ := spells_binary.mp spells
    obtain ⟨hpropera, hs, hproperb⟩ := proper
    obtain ⟨hshapeda, hshapedb, ha, hb⟩ := shaped
    have balanced : Balanced us := Proper.balanced hpropera hu
    obtain ⟨back, -, hus⟩ | ⟨-, rfl⟩ | ⟨front, -, hvs⟩ := h.of_binary balanced hs
    · exact Nat.le_trans ha (iha hpropera hshapeda hu hus)
    · exact Nat.le_refl _
    · exact Nat.le_of_lt (Nat.lt_of_lt_of_le hb (ihb hproperb hshapedb hv hvs))

/-- The operator of a shaped binary operation is the one at which its row is split. -/
theorem Expr.loosestOperator {a b : Expr} {s : Token} (proper : (binary a s b).Proper)
    (shaped : (binary a s b).Shaped) {us vs : List Token} (hu : a.Spells us) (hv : b.Spells vs) :
    LoosestOperator (us ++ s :: vs) us s vs := by
  obtain ⟨hpropera, hs, hproperb⟩ := proper
  obtain ⟨hshapeda, hshapedb, ha, hb⟩ := shaped
  have balanced : Balanced us := Proper.balanced hpropera hu
  have hleast {left right : List Token} {t : Token} (h : OuterOperator us left t right) :
      s.precedence ≤ t.precedence :=
    Nat.le_trans ha (level_le_precedence hpropera hshapeda hu h)
  have hlast {left right : List Token} {t : Token} (h : OuterOperator vs left t right) :
      s.precedence < t.precedence :=
    Nat.lt_of_lt_of_le hb (level_le_precedence hproperb hshapedb hv h)
  refine ⟨⟨rfl, hs, hu.exists_endsOperand, balanced.closed⟩, fun left t right h => ?_,
    fun left t right h hlength => ?_⟩
  · obtain ⟨back, -, hus⟩ | ⟨-, rfl⟩ | ⟨front, -, hvs⟩ := h.of_binary balanced hs
    · exact hleast hus
    · exact Nat.le_refl _
    · exact Nat.le_of_lt (hlast hvs)
  · obtain ⟨back, rfl, -⟩ | ⟨rfl, -⟩ | ⟨front, -, hvs⟩ := h.of_binary balanced hs
    · rw [List.length_append] at hlength
      omega
    · exact absurd hlength (Nat.lt_irrefl _)
    · exact hlast hvs

/-! ## The tree of a row -/

/-- Tokens without an end of input make up a tree if and only if they are the row of a proper and shaped
tree. -/
theorem parse_eq_ok_iff_spells {w : List Token} (words : ∀ t ∈ w, t.kind ≠ .endOfInput) {e : Expr} :
    parse w = .ok e ↔ e.Proper ∧ e.Shaped ∧ e.Spells w := by
  have hwords : Token.words w = w := List.takeWhile_eq_self_iff.mpr (by simpa using words)
  rw [parse_eq_ok_iff, hwords, Expr.read_eq_ok_iff]

/-- **The tree that a row is split into.** Four cases are tried in order: there are operators outside of all
parentheses, the first token is an operator, it opens a group, and the row is a value by itself. -/
structure SplitsInto (w : List Token) (e : Expr) : Prop where
  /-- With operators outside of all parentheses, the tree splits at the loosest one. -/
  atOperator : (∃ left t right, OuterOperator w left t right) →
    ∃ left t right a b, LoosestOperator w left t right ∧ e = .binary a t b ∧
      parse left = .ok a ∧ parse right = .ok b
  /-- Without, and behind an operator, the tree is the operator in front of what the others make up. -/
  behindOperator : (¬∃ left t right, OuterOperator w left t right) → ∀ t body, w = t :: body →
    t.IsUnary → ∃ a, e = .unary t a ∧ parse body = .ok a
  /-- Without, and from an opening parenthesis on, the tree is the group of what stands in front of the
  last token, which is the parenthesis that closes the group. -/
  inParentheses : (¬∃ left t right, OuterOperator w left t right) → ∀ start rest, w = start :: rest →
    start.kind = .symbol .leftParen → ∃ body close a, rest = body ++ [close] ∧
      close.kind = .symbol .rightParen ∧ Balanced body ∧ e = .grouping a ∧ parse body = .ok a
  /-- In all other rows there is only one token, which is a value. -/
  alone : (¬∃ left t right, OuterOperator w left t right) →
    (∀ t body, w = t :: body → ¬t.IsUnary ∧ t.kind ≠ .symbol .leftParen) →
    ∃ t v, w = [t] ∧ t.Denotes v ∧ e = .literal v

namespace SplitsInto

variable {w : List Token}

/-- A row with a loosest operator is split at it. -/
theorem of_loosest {left right : List Token} {t : Token} {a b : Expr}
    (loosest : LoosestOperator w left t right) (ha : parse left = .ok a) (hb : parse right = .ok b) :
    SplitsInto w (.binary a t b) := by
  have houter : ∃ left t right, OuterOperator w left t right :=
    ⟨left, t, right, loosest.toOuterOperator⟩
  exact ⟨fun _ => ⟨left, t, right, a, b, loosest, rfl, ha, hb⟩, fun hnone => absurd houter hnone,
    fun hnone => absurd houter hnone, fun hnone => absurd houter hnone⟩

/-- A row without outer operators that begins with an operator is split behind it. -/
theorem of_unary {t : Token} {body : List Token} {a : Expr}
    (hnone : ¬∃ left s right, OuterOperator (t :: body) left s right) (ht : t.IsUnary)
    (ha : parse body = .ok a) : SplitsInto (t :: body) (.unary t a) := by
  refine ⟨fun houter => absurd houter hnone, ?_, ?_, ?_⟩
  · rintro - _ _ ⟨⟩ -
    exact ⟨a, rfl, ha⟩
  · rintro - _ _ ⟨⟩ hparen
    simp [Token.IsUnary, hparen, Kind.unaryOp?] at ht
  · rintro - hfirst
    exact absurd ht (hfirst _ _ rfl).1

/-- A balanced row in parentheses is split into the group of it. -/
theorem of_group {start close : Token} {body : List Token} {a : Expr} (balanced : Balanced body)
    (hs : start.kind = .symbol .leftParen) (hc : close.kind = .symbol .rightParen)
    (ha : parse body = .ok a) : SplitsInto (start :: (body ++ [close])) (.grouping a) := by
  refine ⟨?_, ?_, ?_, ?_⟩
  · rintro ⟨left, t, right, houter⟩
    exact absurd houter (OuterOperator.not_enclosed balanced hs)
  · rintro - _ _ ⟨⟩ ht
    simp [Token.IsUnary, hs, Kind.unaryOp?] at ht
  · rintro - _ _ ⟨⟩ -
    exact ⟨body, close, a, rfl, hc, balanced, rfl, ha⟩
  · rintro - hfirst
    exact absurd hs (hfirst _ _ rfl).2

/-- A value is the tree of its token. -/
theorem of_value {t : Token} {v : Value} (hv : t.Denotes v) : SplitsInto [t] (.literal v) := by
  have hvalue : t.value? = some v := Token.value?_eq_some_iff.mpr hv
  refine ⟨?_, ?_, ?_, fun _ _ => ⟨t, v, rfl, hv, rfl⟩⟩
  · rintro ⟨left, s, right, houter⟩
    exact absurd houter OuterOperator.not_singleton
  · rintro - _ _ ⟨⟩ ht
    rw [ht.value?_eq_none] at hvalue
    cases hvalue
  · rintro - _ _ ⟨⟩ hparen
    rw [Token.value?_of_leftParen hparen] at hvalue
    cases hvalue

end SplitsInto

/-- **What makes up a tree is split into it.**

**Proof sketch.** The tree is shaped, and the row is its row. If it is a binary operation, its operator is
the loosest one (`Expr.loosestOperator`). If it is a unary operation, it binds more tightly than binary
operators do, so that none is outside of all parentheses (`Expr.level_le_precedence`). Nor is one in a
group or beside a value. -/
theorem splitsInto_of_parse {w : List Token} (words : ∀ t ∈ w, t.kind ≠ .endOfInput) {e : Expr}
    (h : parse w = .ok e) : SplitsInto w e := by
  obtain ⟨proper, shaped, spells⟩ := (parse_eq_ok_iff_spells words).mp h
  have hpart {us : List Token} {a : Expr} (hsub : us ⊆ w) (hproper : a.Proper) (hshaped : a.Shaped)
      (hspells : a.Spells us) : parse us = .ok a :=
    (parse_eq_ok_iff_spells fun t ht => words t (hsub ht)).mpr ⟨hproper, hshaped, hspells⟩
  cases e with
  | literal v =>
    obtain ⟨t, rfl, hv⟩ := Expr.spells_literal.mp spells
    exact .of_value hv
  | grouping inner =>
    obtain ⟨start, body, close, rfl, hs, hb, hc⟩ := Expr.spells_grouping.mp spells
    have balanced : Balanced body := Expr.Proper.balanced (e := inner) proper hb
    exact .of_group balanced hs hc (hpart (by simp) proper shaped hb)
  | unary t operand =>
    obtain ⟨body, rfl, hb⟩ := Expr.spells_unary.mp spells
    have hnone : ¬∃ left s right, OuterOperator (t :: body) left s right := by
      rintro ⟨left, s, right, houter⟩
      have hle : Expr.tightest ≤ s.precedence :=
        Expr.level_le_precedence proper shaped spells houter
      exact absurd s.precedence_lt_tightest (Nat.not_lt.mpr hle)
    exact .of_unary hnone proper.1 (hpart (by simp) proper.2 shaped.1 hb)
  | binary a t b =>
    obtain ⟨us, vs, rfl, hu, hv⟩ := Expr.spells_binary.mp spells
    have loosest := Expr.loosestOperator proper shaped hu hv
    obtain ⟨hpropera, -, hproperb⟩ := proper
    obtain ⟨hshapeda, hshapedb, -, -⟩ := shaped
    exact .of_loosest loosest (hpart (by simp) hpropera hshapeda hu)
      (hpart (by simp) hproperb hshapedb hv)

/-- A difference of three is split at the second of its three minus signs: the first one is outside of
parentheses as well but not the last, and the third one stands in front of its operand. -/
theorem splitsInto_of_parse_differences :
    let value := Token.ofKind (.keyword .nilWord) 1
    let minus := Token.ofKind (.symbol .minus)
    let w := [value, minus 1, value, minus 2, minus 3, value]
    let e := Expr.binary (.binary (.literal .nil) (minus 1) (.literal .nil)) (minus 2)
      (.unary (minus 3) (.literal .nil))
    (∀ t ∈ w, t.kind ≠ .endOfInput) ∧ parse w = .ok e ∧ SplitsInto w e ∧
      (∃ right, OuterOperator w [value] (minus 1) right) ∧
      ∃ left right, LoosestOperator w left (minus 2) right := by
  intro value minus w e
  have words : ∀ t ∈ w, t.kind ≠ .endOfInput := by decide
  have hparse : parse w = .ok e := rfl
  have splits : SplitsInto w e := splitsInto_of_parse words hparse
  have houter : OuterOperator w [value] (minus 1) [value, minus 2, minus 3, value] :=
    ⟨rfl, by decide, ⟨value, rfl, by decide⟩, by decide⟩
  obtain ⟨left, t, right, a, b, loosest, heq, -, -⟩ := splits.atOperator ⟨_, _, _, houter⟩
  obtain ⟨-, rfl, -⟩ := Expr.binary.inj heq
  exact ⟨words, hparse, splits, ⟨_, houter⟩, left, right, loosest⟩

end Lox

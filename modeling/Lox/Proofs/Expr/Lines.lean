import Lox.Proofs.Expr.Source

set_option autoImplicit false

/-!
# The lines of printed operators

In the source text of an expression only strings can hold line feeds. The tokens of the text are
therefore those of the expression, with each operator on the line that the strings to its left lead
to. What can be spelled in a text is stated value by value: a number needs to be finite and without
a sign.

## Main definitions

* `Lox.Expr.Spellable` — operators are canonical operators of their position, and all values can be
  spelled.
* `Lox.Expr.SameButLines` — trees that differ in nothing but the lines of their operators.
* `Lox.Expr.numbered` — a tree with the lines on which its printed operators stand.
* `Lox.Item.newlines`, `Lox.Item.Numbered` — line feeds to the left of an operator, and rows in which
  they are counted.

## Main results

* `Lox.Expr.Spellable.spells_numbered` — the tokens of the source text of a tree.
* `Lox.Expr.numbered_yield` — the lines in the row of a numbered tree.
-/

namespace Lox

/-! ## Values that can be spelled -/

namespace Value

/-- Whether a value can be spelled in a source text: a number if it is finite and its sign bit is
clear, a string if it holds no quote, and any other value. -/
def Spellable : Value → Prop
  | number x => x.Finite ∧ x.signBit = false
  | string s => '"' ∉ s.toList
  | _ => True

/-- How many line feeds the source text of a value holds. -/
def newlines : Value → Nat
  | string s => s.toList.count '\n'
  | _ => 0

/-- A value that can be spelled holds no quote. -/
theorem Spellable.quotable {v : Value} (spellable : v.Spellable) : v.Quotable := by
  cases v with
  | string s => exact spellable
  | _ => trivial

end Value

namespace Piece

/-- A piece without a line feed. -/
theorem newlines_eq_zero {p : Piece} (h : ∀ c ∈ p.text, c ≠ '\n') : p.newlines = 0 :=
  List.count_eq_zero.mpr fun hmem => h _ hmem rfl

/-- Symbols hold no line feed. -/
@[simp]
theorem newlines_symbol (s : Symbol) : (symbol s).newlines = 0 := by
  cases s <;> rfl

/-- A space holds no line feed. -/
@[simp]
theorem newlines_space : (blank ' ').newlines = 0 :=
  rfl

/-- The text of a string holds the line feeds of the string. -/
@[simp]
theorem newlines_string (content : List Char) :
    (string content).newlines = content.count '\n' := by
  simp [newlines, text]

/-- Words hold no line feed. -/
theorem WellFormed.newlines_word {letters : List Char} (wellFormed : (word letters).WellFormed) :
    (word letters).newlines = 0 := by
  obtain ⟨d, ds, rfl, hd, hds⟩ := wellFormed
  refine newlines_eq_zero fun c hc => ?_
  obtain rfl | hc := List.mem_cons.mp hc
  · exact ne_of_class rfl hd
  · exact ne_of_class rfl (hds c hc)

/-- Numbers hold no line feed. -/
theorem WellFormed.newlines_number {whole fraction : List Char}
    (wellFormed : (number whole fraction).WellFormed) : (number whole fraction).newlines = 0 := by
  obtain ⟨-, hwhole, hfraction⟩ := wellFormed
  refine newlines_eq_zero fun c hc => ?_
  rw [text, List.mem_append] at hc
  obtain hc | hc := hc
  · exact ne_of_class rfl (hwhole c hc)
  · split at hc
    · cases hc
    · obtain rfl | hc := List.mem_cons.mp hc
      · decide
      · exact ne_of_class rfl (hfraction c hc)

end Piece

/-- The text of a number holds no line feed. -/
theorem Number.newlines_body (x : Number) : x.body.newlines = 0 := by
  have wellFormed := x.wellFormed_body
  by_cases finite : x.Finite
  · rw [body_of_finite finite] at wellFormed ⊢
    exact wellFormed.newlines_number
  · obtain ⟨letters, -, hbody⟩ := exists_body_eq_word finite
    rw [hbody] at wellFormed ⊢
    exact wellFormed.newlines_word

namespace Value

/-- The pieces of a value hold the line feeds of the value. -/
theorem lines_pieces (v : Value) : Piece.lines v.pieces = v.newlines := by
  match v with
  | number x =>
    show Piece.lines x.pieces = 0
    rw [Number.pieces]
    split <;> simp [x.newlines_body]
  | string s => simp [pieces, newlines]
  | boolean true | boolean false | nil => rfl

/-- A value that can be spelled has one token, which stands for it. -/
theorem Spellable.exists_tokens_pieces {v : Value} (spellable : v.Spellable) (line : Nat) :
    ∃ t, Piece.tokens line v.pieces = [t] ∧ t.Denotes v := by
  match v with
  | number x =>
    obtain ⟨finite, positive⟩ := spellable
    have hpieces : pieces (number x) = [x.body] :=
      if_neg fun h => Bool.false_ne_true (positive.symm.trans h.1)
    rw [hpieces, x.body_of_finite finite]
    refine ⟨_, rfl, .number (.inl rfl) ?_⟩
    rw [Number.ofDecimal_digits finite, Number.ofBits_magnitude finite positive]
  | string s => exact ⟨_, rfl, .string (.inr rfl) (by rw [String.ofList_toList])⟩
  | boolean true => exact ⟨_, rfl, .trueWord rfl⟩
  | boolean false => exact ⟨_, rfl, .falseWord rfl⟩
  | nil => exact ⟨_, rfl, .nilWord rfl⟩

end Value

namespace Expr

/-! ## Trees with lines -/

/-- **Trees that can be spelled**: all operators are canonical operators of their position, and all
values can be spelled. -/
def Spellable (e : Expr) : Prop :=
  e.All Value.Spellable (fun t => t.IsUnary ∧ t.Canonical) (fun t => t.IsBinary ∧ t.Canonical)

/-- What can be spelled is legible. -/
theorem Spellable.legible {e : Expr} (spellable : e.Spellable) : e.Legible :=
  All.imp spellable (fun _ => Value.Spellable.quotable) (fun _ => id) (fun _ => id)

/-- How many line feeds the strings of a tree hold. -/
def newlines : Expr → Nat
  | literal v => v.newlines
  | grouping inner => inner.newlines
  | unary _ operand => operand.newlines
  | binary left _ right => left.newlines + right.newlines

/-- A tree with its operators on the lines on which they are printed, if the first line is `line`. -/
def numbered (line : Nat) : Expr → Expr
  | literal v => literal v
  | grouping inner => grouping (inner.numbered line)
  | unary t operand => unary { t with line := line } (operand.numbered line)
  | binary left t right =>
    binary (left.numbered line) { t with line := line + left.newlines }
      (right.numbered (line + left.newlines))

/-- The pieces of a tree hold the line feeds of the tree. -/
theorem Legible.lines_pieces {e : Expr} (legible : e.Legible) :
    Piece.lines e.pieces = e.newlines := by
  induction e with
  | literal v => exact v.lines_pieces
  | grouping inner ih => simp [pieces, newlines, ih legible]
  | unary t operand ih =>
    obtain ⟨⟨ht, -⟩, hoperand⟩ := legible
    obtain ⟨s, -, hk⟩ := Token.isUnary_iff.mp ht
    simp [pieces, newlines, Token.piece_of_symbol hk, ih hoperand]
  | binary left t right ihl ihr =>
    obtain ⟨hleft, ⟨ht, -⟩, hright⟩ := legible
    obtain ⟨op, hk⟩ := ht.exists_symbol
    simp [pieces, newlines, Token.piece_of_symbol hk, ihl hleft, ihr hright]

end Expr

/-- A space adds no token. -/
theorem Piece.tokens_space_cons (line : Nat) (ps : List Piece) :
    tokens line (blank ' ' :: ps) = tokens line ps := by
  simp [tokens]

/-- A canonical operator adds itself, on the line on which it stands. -/
theorem Token.Canonical.tokens_piece_cons {t : Token} {s : Symbol} (canonical : t.Canonical)
    (h : t.kind = .symbol s) (line : Nat) (ps : List Piece) :
    Piece.tokens line (t.piece :: ps) = { t with line := line } :: Piece.tokens line ps := by
  rw [Piece.tokens, canonical.token?_piece h, Token.piece_of_symbol h]
  simp

namespace Expr

/-- **The tokens of the source text** of a tree are the row of the tree, numbered from the first line
of the text.

**Proof sketch.** Induction on the tree. The tokens of an operand are those of its pieces, from the
line on; behind a left operand the line has grown by the line feeds of the operand. Spaces give no
tokens, and neither they nor operators hold a line feed. -/
theorem Spellable.spells_numbered {e : Expr} (spellable : e.Spellable) (line : Nat) :
    (e.numbered line).Spells (Piece.tokens line e.pieces) := by
  induction e generalizing line with
  | literal v =>
    obtain ⟨t, ht, denotes⟩ := Value.Spellable.exists_tokens_pieces spellable line
    exact spells_literal.mpr ⟨t, ht, denotes⟩
  | grouping inner ih =>
    refine spells_grouping.mpr ⟨⟨.symbol .leftParen, Symbol.text .leftParen, none, line⟩, _,
      ⟨.symbol .rightParen, Symbol.text .rightParen, none, line + Piece.lines inner.pieces⟩, ?_,
      rfl, ih spellable line, rfl⟩
    simp [pieces, Piece.tokens, Piece.tokens_append]
  | unary t operand ih =>
    obtain ⟨⟨ht, canonical⟩, hoperand⟩ := spellable
    obtain ⟨s, -, hk⟩ := Token.isUnary_iff.mp ht
    exact spells_unary.mpr ⟨_, canonical.tokens_piece_cons hk line _, ih hoperand line⟩
  | binary left t right ihl ihr =>
    obtain ⟨hleft, ⟨ht, canonical⟩, hright⟩ := spellable
    obtain ⟨op, hk⟩ := ht.exists_symbol
    have hlines : Piece.lines left.pieces = left.newlines :=
      Legible.lines_pieces (Spellable.legible hleft)
    refine spells_binary.mpr ⟨_, _, ?_, ihl hleft line, ihr hright (line + left.newlines)⟩
    rw [pieces, Piece.tokens_append, hlines, Piece.tokens_space_cons,
      canonical.tokens_piece_cons hk, Piece.tokens_space_cons]

end Expr

/-! ## Trees that differ in lines -/

/-- Whether two tokens differ in nothing but their lines. -/
def Token.SameButLine (s t : Token) : Prop :=
  s.kind = t.kind ∧ s.lexeme = t.lexeme ∧ s.literal = t.literal

namespace Expr

/-- **Trees that differ in nothing but the lines of their operators**: they have the same nodes, with
identical values and with operators of the same kind, text and literal. -/
inductive SameButLines : Expr → Expr → Prop
  | literal (v : Value) : SameButLines (literal v) (literal v)
  | grouping {a b : Expr} (inner : SameButLines a b) : SameButLines (grouping a) (grouping b)
  | unary {s t : Token} {a b : Expr} (operator : s.SameButLine t) (operand : SameButLines a b) :
      SameButLines (unary s a) (unary t b)
  | binary {s t : Token} {a b c d : Expr} (left : SameButLines a b) (operator : s.SameButLine t)
      (right : SameButLines c d) : SameButLines (binary a s c) (binary b t d)

/-- Numbering a tree changes nothing but lines. -/
theorem sameButLines_numbered (e : Expr) (line : Nat) : (e.numbered line).SameButLines e := by
  induction e generalizing line with
  | literal v => exact .literal v
  | grouping inner ih => exact .grouping (ih line)
  | unary t operand ih => exact .unary ⟨rfl, rfl, rfl⟩ (ih line)
  | binary left t right ihl ihr => exact .binary (ihl line) ⟨rfl, rfl, rfl⟩ (ihr _)

/-- If a tree differs from another in lines, so does the other from the one. -/
theorem SameButLines.symm {e f : Expr} (same : e.SameButLines f) : f.SameButLines e := by
  induction same with
  | literal v => exact .literal v
  | grouping _ ih => exact .grouping ih
  | unary operator _ ih =>
    exact .unary ⟨operator.1.symm, operator.2.1.symm, operator.2.2.symm⟩ ih
  | binary _ operator _ ihl ihr =>
    exact .binary ihl ⟨operator.1.symm, operator.2.1.symm, operator.2.2.symm⟩ ihr

/-- Trees that differ in lines bind equally tightly. -/
theorem SameButLines.level_eq {e f : Expr} (same : e.SameButLines f) : e.level = f.level := by
  cases same with
  | binary _ operator _ => rw [level, level, Token.precedence, Token.precedence, operator.1]
  | _ => rfl

/-- The strings of trees that differ in lines hold equally many line feeds. -/
theorem SameButLines.newlines_eq {e f : Expr} (same : e.SameButLines f) :
    e.newlines = f.newlines := by
  induction same with
  | literal v => rfl
  | grouping _ ih => exact ih
  | unary _ _ ih => exact ih
  | binary _ _ _ ihl ihr => rw [newlines, newlines, ihl, ihr]

/-- Trees that differ in lines are equally shaped. -/
theorem SameButLines.shaped {e f : Expr} (same : e.SameButLines f) (shaped : e.Shaped) :
    f.Shaped := by
  induction same with
  | literal v => trivial
  | grouping _ ih => exact ih shaped
  | unary _ operand ih =>
    obtain ⟨hshaped, hlevel⟩ := shaped
    exact ⟨ih hshaped, operand.level_eq ▸ hlevel⟩
  | @binary s t _ _ _ _ left operator right ihl ihr =>
    obtain ⟨hleft, hright, hlevell, hlevelr⟩ := shaped
    have hprecedence : t.precedence = s.precedence := by
      rw [Token.precedence, Token.precedence, operator.1]
    refine ⟨ihl hleft, ihr hright, ?_, ?_⟩
    · rw [hprecedence, ← left.level_eq]
      exact hlevell
    · rw [hprecedence, ← right.level_eq]
      exact hlevelr

/-- Trees that differ in lines are equally proper. -/
theorem SameButLines.proper {e f : Expr} (same : e.SameButLines f) (proper : e.Proper) :
    f.Proper := by
  induction same with
  | literal v => trivial
  | grouping _ ih => exact ih proper
  | unary operator _ ih =>
    obtain ⟨ht, hoperand⟩ := proper
    refine ⟨?_, ih hoperand⟩
    rw [Token.IsUnary, ← operator.1]
    exact ht
  | binary _ operator _ ihl ihr =>
    obtain ⟨hleft, ht, hright⟩ := proper
    refine ⟨ihl hleft, ?_, ihr hright⟩
    rw [Token.IsBinary, ← operator.1]
    exact ht

end Expr

/-! ## Lines in a row -/

namespace Item

/-- How many line feeds the text of an item holds. -/
def newlines : Item → Nat
  | value v => v.newlines
  | _ => 0

/-- Whether each operator of a row stands on the line that the items to its left lead to. -/
def Numbered (line : Nat) : List Item → Prop
  | [] => True
  | operator t :: items => t.line = line ∧ Numbered line items
  | item :: items => Numbered (line + item.newlines) items

/-- The operators of two rows stand on their lines if those of the one and those of the other do. -/
theorem numbered_append {line : Nat} {items rest : List Item} :
    Numbered line (items ++ rest) ↔
      Numbered line items ∧ Numbered (line + (items.map newlines).sum) rest := by
  induction items generalizing line with
  | nil => simp [Numbered]
  | cons item items ih =>
    cases item <;> simp [Numbered, ih, newlines, Nat.add_assoc, and_assoc]

/-- An operator in a row stands on the line that all items to its left lead to. -/
theorem Numbered.line_eq {line : Nat} {before after : List Item} {t : Token}
    (h : Numbered line (before ++ operator t :: after)) :
    t.line = line + (before.map newlines).sum :=
  (numbered_append.mp h).2.1

end Item

namespace Expr

/-- The row of a tree holds the line feeds of the tree. -/
theorem sum_newlines_yield (e : Expr) : (e.yield.map Item.newlines).sum = e.newlines := by
  induction e with
  | literal v => simp [yield, Item.newlines, newlines]
  | grouping inner ih => simp [yield, Item.newlines, newlines, ih]
  | unary t operand ih => simp [yield, Item.newlines, newlines, ih]
  | binary left t right ihl ihr => simp [yield, Item.newlines, newlines, ihl, ihr]

/-- **In the row of a numbered tree** each operator stands on the line that the strings to its left
lead to. -/
theorem numbered_yield (e : Expr) (line : Nat) :
    Item.Numbered line (e.numbered line).yield := by
  induction e generalizing line with
  | literal v => trivial
  | grouping inner ih => exact Item.numbered_append.mpr ⟨ih line, trivial⟩
  | unary t operand ih => exact ⟨rfl, ih line⟩
  | binary left t right ihl ihr =>
    have hlines : (left.numbered line).newlines = left.newlines :=
      (left.sameButLines_numbered line).newlines_eq
    refine Item.numbered_append.mpr ⟨ihl line, ?_⟩
    rw [sum_newlines_yield, hlines]
    exact ⟨rfl, ihr _⟩

end Expr

end Lox

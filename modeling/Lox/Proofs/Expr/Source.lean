import Lox.Expr.Print
import Lox.Proofs.Expr.Shape
import Lox.Proofs.Lexed
import Lox.Proofs.Number.Text

set_option autoImplicit false

/-!
# The pieces of a printed expression

The source text of an expression is a row of pieces: those of its values, its operators and its
parentheses, and the spaces around binary operators. None of them is continued by what is printed
behind it, so that splitting the text finds exactly these pieces again, for trees of any shape.

## Main definitions

* `Lox.Token.Written` — a token with the text of its kind.
* `Lox.Token.Canonical` — a token with the text of its kind, and nothing else to it.
* `Lox.Expr.Legible` — operators are canonical operators of their position, and no text in the tree
  holds a quote.
* `Lox.Expr.pieces` — the pieces of the source text of a tree.

## Main results

* `Lox.Expr.Legible.toList_source` — the pieces make up the source text.
* `Lox.Expr.Legible.separated_pieces` — no piece is continued by what follows it.
* `Lox.Expr.Legible.split_source` — splitting the source text gives the pieces.
-/

namespace Lox

/-! ## Operators -/

namespace Token

/-- Whether a token is written with the fixed text of its kind. -/
def Written (t : Token) : Prop :=
  t.kind.text? = some t.lexeme

/-- A symbol that is written as such has the text of the symbol. -/
theorem Written.lexeme_of_symbol {t : Token} (written : t.Written) {s : Symbol}
    (h : t.kind = .symbol s) : t.lexeme = s.text := by
  rw [Written, h] at written
  exact (Option.some_inj.mp written).symm

/-- Whether a token is written with the fixed text of its kind and stands for nothing by itself. -/
def Canonical (t : Token) : Prop :=
  t.kind.text? = some t.lexeme ∧ t.literal = none

instance (t : Token) : Decidable t.Canonical :=
  inferInstanceAs (Decidable (_ ∧ _))

/-- The piece that an operator is written with. -/
def piece (t : Token) : Piece :=
  match t.kind with
  | .symbol s => .symbol s
  | _ => .word t.lexeme.toList

/-- The piece of a symbol. -/
theorem piece_of_symbol {t : Token} {s : Symbol} (h : t.kind = .symbol s) : t.piece = .symbol s := by
  rw [piece, h]

/-- A canonical symbol is written as such. -/
theorem Canonical.lexeme_of_symbol {t : Token} {s : Symbol} (canonical : t.Canonical)
    (h : t.kind = .symbol s) : t.lexeme = s.text :=
  Written.lexeme_of_symbol canonical.1 h

/-- The piece of a canonical operator has this operator as its token, on the line of the piece. -/
theorem Canonical.token?_piece {t : Token} {s : Symbol} (canonical : t.Canonical)
    (h : t.kind = .symbol s) (line : Nat) : t.piece.token? line = some { t with line := line } := by
  rw [Piece.token?_eq_some_iff, piece_of_symbol h]
  refine ⟨?_, ?_, rfl⟩
  · rw [Piece.kind?, h, canonical.2]
  · rw [Piece.text, String.ofList_toList]
    exact canonical.lexeme_of_symbol h

end Token

/-! ## Beginnings of operands -/

namespace Piece

/-- Whether a piece can begin the source text of an operand. -/
def BeginsOperand : Piece → Prop
  | word _ | number _ _ | string _ => True
  | symbol s => s ∈ [Symbol.leftParen, .bang, .minus]
  | _ => False

/-- No operand begins with an equals sign. -/
theorem BeginsOperand.head?_ne_equal {p : Piece} (begins : p.BeginsOperand)
    (wellFormed : p.WellFormed) (rest : List Char) : (p.text ++ rest).head? ≠ some '=' := by
  cases p with
  | word letters =>
    obtain ⟨c, cs, rfl, hc, -⟩ := wellFormed
    exact fun h => ne_of_class rfl hc (Option.some_inj.mp h)
  | number whole fraction =>
    obtain ⟨hne, hwhole, -⟩ := wellFormed
    obtain ⟨c, cs, rfl⟩ := List.exists_cons_of_ne_nil hne
    exact fun h => ne_of_class rfl (hwhole c (.head _)) (Option.some_inj.mp h)
  | string content => exact nofun
  | symbol s =>
    simp only [BeginsOperand, List.mem_cons, List.not_mem_nil, or_false] at begins
    obtain rfl | rfl | rfl := begins <;> exact nofun
  | _ => exact begins.elim

end Piece

namespace Number

/-- Digits and words can begin an operand. -/
theorem beginsOperand_body (x : Number) : x.body.BeginsOperand := by
  unfold body
  split
  · trivial
  · split <;> trivial

/-- A number begins with a piece that can begin an operand. -/
theorem exists_pieces_eq_cons (x : Number) : ∃ p ps, x.pieces = p :: ps ∧ p.BeginsOperand := by
  unfold pieces
  split
  · exact ⟨_, _, rfl, .tail _ (.tail _ (.head _))⟩
  · exact ⟨_, _, rfl, x.beginsOperand_body⟩

end Number

/-! ## Pieces -/

namespace Value

/-- Whether a value holds no quote. -/
def Quotable : Value → Prop
  | string s => '"' ∉ s.toList
  | _ => True

/-- The pieces of the source text of a value. -/
def pieces : Value → List Piece
  | number x => x.pieces
  | string s => [.string s.toList]
  | boolean true => [.word ['t', 'r', 'u', 'e']]
  | boolean false => [.word ['f', 'a', 'l', 's', 'e']]
  | nil => [.word ['n', 'i', 'l']]

/-- The pieces of a value make up its source text. -/
theorem toList_source (v : Value) : v.source.toList = v.pieces.flatMap Piece.text := by
  match v with
  | number x => exact x.toList_display
  | string s => simp [source, pieces, Piece.text]
  | boolean true | boolean false | nil => rfl

/-- The pieces of a value are found again in front of a delimiter. -/
theorem Quotable.separated_pieces {v : Value} (quotable : v.Quotable) {rest : List Char}
    (delimits : Piece.Delimits rest) : Piece.Separated v.pieces rest := by
  match v with
  | number x => exact x.separated_pieces delimits
  | string s => exact ⟨quotable, trivial, trivial⟩
  | boolean true | boolean false | nil =>
    exact ⟨⟨_, _, rfl, rfl, List.all_eq_true.mp rfl⟩, delimits.stops rfl rfl, trivial⟩

/-- A value begins with a piece that can begin an operand. -/
theorem exists_pieces_eq_cons (v : Value) :
    ∃ p ps, v.pieces = p :: ps ∧ p.BeginsOperand := by
  match v with
  | number x => exact x.exists_pieces_eq_cons
  | string s => exact ⟨_, _, rfl, trivial⟩
  | boolean true | boolean false | nil => exact ⟨_, _, rfl, trivial⟩

end Value

namespace Expr

/-- **Trees whose printed operators and strings can be told apart**: all operators are canonical
operators of their position, and no string holds a quote. Numbers may be any. -/
def Legible (e : Expr) : Prop :=
  e.All Value.Quotable (fun t => t.IsUnary ∧ t.Canonical) (fun t => t.IsBinary ∧ t.Canonical)

/-- **The pieces of the source text** of a tree. -/
def pieces : Expr → List Piece
  | literal v => v.pieces
  | grouping inner => .symbol .leftParen :: (inner.pieces ++ [.symbol .rightParen])
  | unary operator operand => operator.piece :: operand.pieces
  | binary left operator right =>
    left.pieces ++ .blank ' ' :: operator.piece :: .blank ' ' :: right.pieces

/-- A tree begins with a piece that can begin an operand. -/
theorem Legible.exists_pieces_eq_cons {e : Expr} (legible : e.Legible) :
    ∃ p ps, e.pieces = p :: ps ∧ p.BeginsOperand := by
  induction e with
  | literal v => exact v.exists_pieces_eq_cons
  | grouping inner => exact ⟨_, _, rfl, .head _⟩
  | unary t operand =>
    obtain ⟨⟨ht, -⟩, -⟩ := legible
    obtain ⟨s, hs, hk⟩ := Token.isUnary_iff.mp ht
    refine ⟨_, _, rfl, ?_⟩
    rw [Token.piece_of_symbol hk]
    exact .tail _ hs
  | binary left t right ihl =>
    obtain ⟨p, ps, hp, begins⟩ := ihl legible.1
    exact ⟨p, _, by rw [pieces, hp, List.cons_append], begins⟩

/-- **The pieces of a tree make up its source text.** -/
theorem Legible.toList_source {e : Expr} (legible : e.Legible) :
    e.source.toList = e.pieces.flatMap Piece.text := by
  induction e with
  | literal v => exact v.toList_source
  | grouping inner ih =>
    have hopen : (Piece.symbol .leftParen).text = ['('] := rfl
    have hclose : (Piece.symbol .rightParen).text = [')'] := rfl
    simp [source, pieces, ih legible, hopen, hclose]
  | unary t operand ih =>
    obtain ⟨⟨ht, canonical⟩, hoperand⟩ := legible
    obtain ⟨s, -, hk⟩ := Token.isUnary_iff.mp ht
    simp [source, pieces, ih hoperand, Token.piece_of_symbol hk,
      canonical.lexeme_of_symbol hk, Piece.text]
  | binary left t right ihl ihr =>
    obtain ⟨hleft, ⟨ht, canonical⟩, hright⟩ := legible
    obtain ⟨op, hk⟩ := ht.exists_symbol
    simp [source, pieces, ihl hleft, ihr hright, Token.piece_of_symbol hk,
      canonical.lexeme_of_symbol hk, Piece.text]

/-- **No piece of a tree is continued** by the piece behind it or, if the tree stands in front of a
delimiter, by what follows the tree.

**Proof sketch.** Induction on the tree. What stands behind an operand is a space, a closing
parenthesis or the end, and all of these are delimiters. Only two pieces are not followed by a
delimiter: an opening parenthesis, which nothing continues, and a unary operator, which only an
equals sign could continue, and no operand begins with one. -/
theorem Legible.separated_pieces {e : Expr} (legible : e.Legible) {rest : List Char}
    (delimits : Piece.Delimits rest) : Piece.Separated e.pieces rest := by
  induction e generalizing rest with
  | literal v => exact Value.Quotable.separated_pieces legible delimits
  | grouping inner ih =>
    have hparen : Piece.Delimits (')' :: rest) := fun _ hc => .inr (Option.some_inj.mp hc).symm
    refine ⟨trivial, ⟨nofun, nofun⟩, Piece.separated_append.mpr ⟨ih legible hparen, ?_⟩⟩
    exact ⟨trivial, ⟨nofun, nofun⟩, trivial⟩
  | unary t operand ih =>
    obtain ⟨⟨ht, -⟩, hoperand⟩ := legible
    obtain ⟨s, hs, hk⟩ := Token.isUnary_iff.mp ht
    obtain ⟨p, ps, hp, begins⟩ := Legible.exists_pieces_eq_cons hoperand
    have hseparated := ih hoperand delimits
    have hhead : (operand.pieces.flatMap Piece.text ++ rest).head? ≠ some '=' := by
      rw [hp] at hseparated ⊢
      rw [List.flatMap_cons, List.append_assoc]
      exact begins.head?_ne_equal hseparated.1 _
    have hslash : s ≠ .slash := by
      rintro rfl
      simp at hs
    rw [pieces, Token.piece_of_symbol hk]
    exact ⟨trivial, ⟨fun _ => hhead, fun h => absurd h hslash⟩, hseparated⟩
  | binary left t right ihl ihr =>
    obtain ⟨hleft, ⟨ht, -⟩, hright⟩ := legible
    obtain ⟨op, hk⟩ := ht.exists_symbol
    have hspace (cs : List Char) : Piece.Delimits (' ' :: cs) :=
      fun _ hc => .inl (Option.some_inj.mp hc).symm
    rw [pieces, Token.piece_of_symbol hk]
    refine Piece.separated_append.mpr ⟨ihl hleft (hspace _), rfl, trivial, trivial, ?_, rfl,
      trivial, ihr hright delimits⟩
    exact ⟨nofun, nofun⟩

/-- **Splitting the source text** of a tree gives the pieces of the tree. -/
theorem Legible.split_source {e : Expr} (legible : e.Legible) :
    Piece.split e.source.toList = e.pieces := by
  have hend : Piece.Delimits [] := nofun
  have hsplit := Piece.split_append (legible.separated_pieces hend)
  rw [List.append_nil] at hsplit
  rw [legible.toList_source, hsplit, Piece.split, List.append_nil]

end Expr

end Lox

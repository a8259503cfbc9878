import Lox.Proofs.Cursor
import Lox.Proofs.Piece.Cut
import Lox.Source

set_option autoImplicit false

/-!
# Tokens of pieces

The tokens of a text are those of its pieces one after another, each on the line on which its piece
ends, and the end of the input behind them. A text is an expression if and only if all its pieces are
in order and its tokens are the row of the expression.

## Main definitions

* `Lox.Piece.lines` — how many line feeds a row of pieces holds.
* `Lox.Piece.tokens` — the tokens of a row of pieces.

## Main results

* `Lox.Piece.tokens_append` — the tokens of two rows are those of the one and of the other.
* `Lox.Log.lex_of_clean` — the tokens of a text without fault.
* `Lox.words_lex` — the tokens of a text before the end of the input.
* `Lox.parseSource_eq_ok_iff` — the expressions that texts stand for.
-/

namespace Lox

namespace Piece

/-- How many line feeds a row of pieces holds. -/
def lines (ps : List Piece) : Nat :=
  (ps.map newlines).sum

/-- The tokens of a row of pieces of which the first begins on `line`. -/
def tokens (line : Nat) : List Piece → List Token
  | [] => []
  | p :: ps => (p.token? (line + p.newlines)).toList ++ tokens (line + p.newlines) ps

/-- An empty row holds no line feed. -/
@[simp]
theorem lines_nil : lines [] = 0 :=
  rfl

/-- The line feeds of a row are those of its first piece and those of the others. -/
@[simp]
theorem lines_cons (p : Piece) (ps : List Piece) : lines (p :: ps) = p.newlines + lines ps := by
  simp [lines]

/-- The line feeds of two rows are those of the one and those of the other. -/
@[simp]
theorem lines_append (ps qs : List Piece) : lines (ps ++ qs) = lines ps + lines qs := by
  simp [lines]

/-- **The tokens of two rows** are those of the one and, from the line on which it ends, those of the
other. -/
theorem tokens_append (line : Nat) (ps qs : List Piece) :
    tokens line (ps ++ qs) = tokens line ps ++ tokens (line + lines ps) qs := by
  induction ps generalizing line with
  | nil => simp [tokens]
  | cons p ps ih => simp [tokens, ih, Nat.add_assoc]

/-- Each token of a row is the token of one of its pieces. -/
theorem exists_of_mem_tokens {line : Nat} {ps : List Piece} {t : Token} (h : t ∈ tokens line ps) :
    ∃ p ∈ ps, ∃ last, p.token? last = some t := by
  induction ps generalizing line with
  | nil => cases h
  | cons p ps ih =>
    rw [tokens, List.mem_append, Option.mem_toList] at h
    obtain h | h := h
    · exact ⟨p, .head _, _, h⟩
    · obtain ⟨q, hq, last, ht⟩ := ih h
      exact ⟨q, .tail _ hq, last, ht⟩

/-- A piece has the token that its kind, its text and its literal make up. -/
theorem token?_eq_some_iff {p : Piece} {line : Nat} {t : Token} :
    p.token? line = some t ↔
      p.kind? = some (t.kind, t.literal) ∧ t.lexeme = String.ofList p.text ∧ t.line = line := by
  obtain ⟨kind, lexeme, literal, tline⟩ := t
  rw [token?, Option.map_eq_some_iff]
  constructor
  · rintro ⟨⟨k, l⟩, hk, ht⟩
    cases ht
    exact ⟨hk, rfl, rfl⟩
  · rintro ⟨hk, hlexeme, hline⟩
    refine ⟨(kind, literal), hk, ?_⟩
    simp only at hlexeme hline
    rw [hlexeme, hline]

/-- The token of a symbol is written like the symbol. -/
@[simp]
theorem token?_symbol (s : Symbol) (line : Nat) :
    (symbol s).token? line = some ⟨.symbol s, s.text, none, line⟩ :=
  token?_eq_some_iff.mpr ⟨rfl, String.ofList_toList.symm, rfl⟩

/-- White space has no token. -/
@[simp]
theorem token?_blank (c : Char) (line : Nat) : (blank c).token? line = none :=
  rfl

/-- Symbols give no cause for a fault. -/
@[simp]
theorem cause?_symbol (s : Symbol) : (symbol s).cause? = none :=
  rfl

/-- White space gives no cause for a fault. -/
@[simp]
theorem cause?_blank (c : Char) : (blank c).cause? = none :=
  rfl

/-- A word is reserved or an identifier. -/
theorem kind_of_word {letters : List Char} {k : Kind} {literal : Option Literal}
    (h : (word letters).kind? = some (k, literal)) : (∃ reserved, k = .keyword reserved) ∨ k = .identifier := by
  simp only [kind?, Kind.ofWord, Option.some.injEq, Prod.mk.injEq] at h
  obtain ⟨rfl, -⟩ := h
  split
  · exact .inl ⟨_, rfl⟩
  · exact .inr rfl

/-- No piece is an end of input. -/
theorem kind_ne_endOfInput {p : Piece} {line : Nat} {t : Token} (h : p.token? line = some t) :
    t.kind ≠ .endOfInput := by
  intro hkind
  rw [token?_eq_some_iff, hkind] at h
  cases p with
  | word letters => obtain ⟨_, hword⟩ | hword := kind_of_word h.1 <;> cases hword
  | _ => cases h.1

/-- No token of a row is an end of input. -/
theorem ne_endOfInput_of_mem_tokens {line : Nat} {ps : List Piece} {t : Token}
    (h : t ∈ tokens line ps) : t.kind ≠ .endOfInput := by
  obtain ⟨p, -, last, hp⟩ := exists_of_mem_tokens h
  exact kind_ne_endOfInput hp

end Piece

/-! ## Whole texts -/

/-- The tokens of pieces are followed by the end of the input. -/
theorem Lexed.tokens_ofPieces (line : Nat) (ps : List Piece) :
    (ofPieces line ps).tokens = Piece.tokens line ps ++ [.endOfInput (line + Piece.lines ps)] := by
  induction ps generalizing line with
  | nil => rfl
  | cons p ps ih => simp [ofPieces, Piece.tokens, ih, Nat.add_assoc]

/-- There is no fault if no piece gives cause for one. -/
theorem Lexed.faults_ofPieces_eq_nil_iff {line : Nat} {ps : List Piece} :
    (ofPieces line ps).faults = [] ↔ ∀ p ∈ ps, p.cause? = none := by
  induction ps generalizing line with
  | nil => simp [ofPieces]
  | cons p ps ih => simp [ofPieces, ih, Piece.fault?]

/-- **A text without fault** has the tokens of its pieces, and nothing is added to the log. -/
theorem Log.lex_of_clean (log : Log) {source : String} {ps : List Piece}
    (hsplit : Piece.split source.toList = ps) (clean : ∀ p ∈ ps, p.cause? = none) :
    log.lex source = (Piece.tokens 1 ps ++ [.endOfInput (1 + Piece.lines ps)], log) := by
  simp [Log.lex, Lox.lex, hsplit, Lexed.tokens_ofPieces, Lexed.faults_ofPieces_eq_nil_iff.mpr clean]

/-- The tokens of a text before the end of the input are those of its pieces. -/
theorem words_lex (source : String) :
    Token.words (lex source).tokens = Piece.tokens 1 (Piece.split source.toList) := by
  rw [lex, Lexed.tokens_ofPieces, Token.words, List.takeWhile_append_of_pos]
  · simp [Token.endOfInput]
  · exact fun t ht => bne_iff_ne.mpr (Piece.ne_endOfInput_of_mem_tokens ht)

/-- A text is an expression if its characters are without fault and its tokens are an expression. -/
theorem parseSource_eq_ok_iff_parse {source : String} {e : Expr} :
    parseSource source = .ok e ↔
      (lex source).faults = [] ∧ parse (lex source).tokens = .ok e := by
  have hstatic : (Log.mk ((lex source).faults.map Fault.lex)).hasStaticFault = false ↔
      (lex source).faults = [] := by
    cases hfaults : (lex source).faults <;> simp [Log.hasStaticFault, Fault.isStatic]
  simp only [parseSource, Log.lex, Log.empty, Log.parse, List.nil_append]
  cases hparse : parse (lex source).tokens with
  | error fault => simp
  | ok e' =>
    rw [← hstatic]
    cases hstate : (Log.mk ((lex source).faults.map Fault.lex)).hasStaticFault <;> simp [hstate]

/-- **A text is an expression** if and only if no piece of it gives cause for a fault and its tokens
are the row of the expression, which is proper and shaped. -/
theorem parseSource_eq_ok_iff {source : String} {e : Expr} :
    parseSource source = .ok e ↔
      (∀ p ∈ Piece.split source.toList, p.cause? = none) ∧ e.Proper ∧ e.Shaped ∧
        e.Spells (Piece.tokens 1 (Piece.split source.toList)) := by
  rw [parseSource_eq_ok_iff_parse, lex, Lexed.faults_ofPieces_eq_nil_iff, ← lex, parse_eq_ok_iff,
    words_lex, Expr.read_eq_ok_iff]

end Lox

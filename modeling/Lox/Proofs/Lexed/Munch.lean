import Lox.Proofs.Lexed
import Lox.Proofs.Piece.Longest

set_option autoImplicit false

/-!
# Tokens and faults account for every character

A source text is made up of pieces of which each is the longest one. Its tokens are those of the
pieces that are token texts, each with the text of its piece and with the kind and the literal that
the piece alone decides. Its faults are those of the pieces that belong to no token, and blanks and
comments give neither.

## Main definitions

* `Lox.Piece.Means` — the kind and the literal that a piece stands for.
* `Lox.Piece.Makes`, `Lox.Piece.Blames` — the token and the fault of a piece, but for the line.

## Main results

* `Lox.Piece.means_iff_kind?` — what a piece stands for is what its token is given.
* `Lox.Log.lex_accounts_for_source` — the tokens and the faults of a source text are those of the one
  row of longest pieces that makes up the text.
-/

namespace Lox

namespace Piece

/-! ## The tokens of pieces -/

/-- **What a piece stands for.** A symbol stands for itself, a word for the reserved word that is
spelled exactly so or else for an identifier, digits for the number nearest to them, and a string for
the characters between its quotes, whatever they are. -/
inductive Means : Piece → Kind → Option Literal → Prop
  | symbol (s : Symbol) : Means (symbol s) (.symbol s) none
  | keyword {letters : List Char} {k : Keyword} (spelled : k.text.toList = letters) :
      Means (word letters) (.keyword k) none
  | identifier {letters : List Char} (free : ∀ k : Keyword, k.text.toList ≠ letters) :
      Means (word letters) .identifier none
  | number (whole fraction : List Char) :
      Means (number whole fraction) .number
        (some (.number (Number.ofDecimal (.ofDigits whole fraction))))
  | string (content : List Char) :
      Means (string content) .string (some (.string (String.ofList content)))

/-- **The token of a piece**, but for its line: it has the text of the piece, and the kind and the
literal that the piece stands for. -/
structure Makes (p : Piece) (t : Token) : Prop where
  /-- The token has the text of the piece. -/
  lexeme : t.lexeme = String.ofList p.text
  /-- The token is what the piece stands for. -/
  means : p.Means t.kind t.literal

/-- The kind of a word is that of the reserved word with its letters, or else an identifier. -/
theorem means_word (letters : List Char) :
    (word letters).Means (.ofWord (String.ofList letters)) none := by
  unfold Kind.ofWord
  split
  · next k hk =>
    refine .keyword ?_
    rw [Keyword.text_of_ofText? hk, String.toList_ofList]
  · next hnone =>
    refine .identifier fun k hspelled => ?_
    have hfound := Keyword.ofText?_text k
    rw [← String.ofList_toList (s := k.text), hspelled, hnone] at hfound
    cases hfound

/-- **What a piece stands for is what its token is given**, so that it stands for one thing at most. -/
theorem means_iff_kind? {p : Piece} {k : Kind} {l : Option Literal} :
    p.Means k l ↔ p.kind? = some (k, l) := by
  constructor
  · intro means
    cases means with
    | @keyword letters k spelled =>
      rw [kind?, Kind.ofWord, ← spelled, String.ofList_toList, Keyword.ofText?_text]
    | @identifier letters free =>
      have hnone : Keyword.ofText? (String.ofList letters) = none := by
        rw [Option.eq_none_iff_forall_not_mem]
        intro k hk
        refine free k ?_
        rw [Keyword.text_of_ofText? hk, String.toList_ofList]
      rw [kind?, Kind.ofWord, hnone]
    | _ => rfl
  · intro h
    cases p with
    | symbol s =>
      cases h
      exact .symbol s
    | word letters =>
      cases h
      exact means_word letters
    | number whole fraction =>
      cases h
      exact .number whole fraction
    | string content =>
      cases h
      exact .string content
    | blank | comment | stray | openString => cases h

/-- The pieces with a kind are the token texts. -/
theorem isSome_kind? (p : Piece) : p.kind?.isSome = p.isToken := by
  cases p <;> rfl

/-- The pieces with a token are the token texts. -/
theorem token?_eq_none_iff {p : Piece} {line : Nat} : p.token? line = none ↔ p.isToken = false := by
  rw [token?, Option.map_eq_none_iff, ← isSome_kind?, Option.isSome_eq_false_iff,
    Option.isNone_iff_eq_none]

/-- **The tokens of a row of pieces** are those that its token texts make, in order. -/
theorem forall₂_makes_tokens (line : Nat) (ps : List Piece) :
    List.Forall₂ Makes (ps.filter isToken) (tokens line ps) := by
  induction ps generalizing line with
  | nil => exact .nil
  | cons p ps ih =>
    rw [tokens]
    cases ht : p.token? (line + p.newlines) with
    | none =>
      rw [List.filter_cons_of_neg (by simp [token?_eq_none_iff.mp ht])]
      exact ih _
    | some t =>
      obtain ⟨hkind, hlexeme, -⟩ := token?_eq_some_iff.mp ht
      have htoken : p.isToken = true := by rw [← isSome_kind?, hkind]; rfl
      rw [List.filter_cons_of_pos htoken]
      exact .cons ⟨hlexeme, means_iff_kind?.mpr hkind⟩ (ih _)

/-! ## The faults of pieces -/

/-- Whether a piece belongs to no token and is no layout either. -/
def isFaulty : Piece → Bool
  | stray _ | openString _ => true
  | _ => false

/-- **The fault of a piece**, but for its line: a character that starts nothing is named, and a quote
that is never closed is not. -/
inductive Blames : Piece → LexFault → Prop
  | stray (c : Char) (line : Nat) : Blames (stray c) ⟨.strayCharacter c, line⟩
  | openString (content : List Char) (line : Nat) : Blames (openString content) ⟨.openString, line⟩

/-- **The faults of a row of pieces** are those of its faulty pieces, in order. -/
theorem forall₂_blames_faults (line : Nat) (ps : List Piece) :
    List.Forall₂ Blames (ps.filter isFaulty) (Lexed.ofPieces line ps).faults := by
  induction ps generalizing line with
  | nil => exact .nil
  | cons p ps ih =>
    rw [Lexed.ofPieces]
    cases p with
    | stray c => exact .cons (.stray c _) (ih _)
    | openString content => exact .cons (.openString content _) (ih _)
    | blank | comment | symbol | word | number | string => exact ih _

end Piece

/-- **Tokens and faults account for every character of a source text.** The text is made up of one row
of pieces, and of no other, of which each is a blank, the longest comment or token text that begins
where it does, a character that starts nothing, or a last quote that is never closed. The tokens are
those of the token texts in order, and behind them one end of input without a text. The faults, which
are added to the log, are those of the other pieces that are neither blanks nor comments. -/
theorem Log.lex_accounts_for_source (log : Log) (source : String) :
    ∃ ps, (Piece.Munches source.toList ps ∧ ∀ qs, Piece.Munches source.toList qs → qs = ps) ∧
      ps.flatMap Piece.text = source.toList ∧
      (∃ words stop, (log.lex source).1 = words ++ [stop] ∧
        List.Forall₂ Piece.Makes (ps.filter Piece.isToken) words ∧
        (∀ t ∈ words, t.kind ≠ .endOfInput) ∧
        stop.kind = .endOfInput ∧ stop.lexeme = "" ∧ stop.literal = none) ∧
      ∃ faults, (log.lex source).2.faults = log.faults ++ faults.map .lex ∧
        List.Forall₂ Piece.Blames (ps.filter Piece.isFaulty) faults := by
  refine ⟨Piece.split source.toList, ⟨Piece.munches_iff.mpr rfl, fun _ => Piece.munches_iff.mp⟩,
    Piece.flatMap_text_split _, ?_, _, rfl, Piece.forall₂_blames_faults 1 _⟩
  refine ⟨_, _, Lexed.tokens_ofPieces 1 _, Piece.forall₂_makes_tokens 1 _, ?_, rfl, rfl, rfl⟩
  intro t ht
  obtain ⟨p, -, line, hp⟩ := Piece.exists_of_mem_tokens ht
  exact Piece.kind_ne_endOfInput hp

end Lox

import Lox.Proofs.Lexed.Lines

set_option autoImplicit false

/-!
# Texts without their faults

A fault in the characters of a text says nothing about the rest of the text. If the characters at fault
are replaced by spaces, with the line feeds among them kept, the text has the same tokens on the same lines
and no fault. A space begins no token and continues none, so that the pieces around the characters at
fault are found where they were.

## Main definitions

* `Lox.Piece.cleared` — the characters of a piece, or spaces if it is at fault.
* `Lox.Blanked` — a character that may have been replaced by a space.

## Main results

* `Lox.Piece.Ends.of_blanked` — what ends before a text ends before it also with spaces put into it.
* `Lox.Piece.split_cleared` — the pieces of a text without its faults.
* `Lox.Log.lex_cleared` — a text without its faults has the tokens of the text.
-/

namespace Lox

/-- A space in the place of a character, unless the character is a line feed. -/
def spaceFor (c : Char) : Char :=
  if c = '\n' then '\n' else ' '

/-- **A character that may have been replaced by a space**: it is still there, or it is no line feed and
there is a space. -/
def Blanked (c d : Char) : Prop :=
  d = c ∨ c ≠ '\n' ∧ d = ' '

/-- The space for a character replaces it. -/
theorem blanked_spaceFor (c : Char) : Blanked c (spaceFor c) := by
  by_cases h : c = '\n'
  · exact .inl (by rw [spaceFor, if_pos h, h])
  · exact .inr ⟨h, if_neg h⟩

/-- Line feeds are not replaced, and nothing is replaced by them. -/
theorem count_newline_of_blanked {cs ds : List Char} (h : List.Forall₂ Blanked cs ds) :
    ds.count '\n' = cs.count '\n' := by
  induction h with
  | nil => rfl
  | cons hc _ ih =>
    obtain rfl | ⟨hne, rfl⟩ := hc
    · rw [List.count_cons, List.count_cons, ih]
    · rw [List.count_cons_of_ne (by decide), List.count_cons_of_ne hne, ih]

section Rest

variable {rest rest' : List Char} (h : List.Forall₂ Blanked rest rest')

include h

/-- No character but a space is put at the front of a text. -/
theorem head?_of_blanked {c : Char} (hne : c ≠ ' ') (hhead : rest'.head? = some c) :
    rest.head? = some c := by
  cases h with
  | nil => cases hhead
  | cons hc _ =>
    cases hhead
    obtain rfl | ⟨-, rfl⟩ := hc
    · rfl
    · exact absurd rfl hne

/-- The text behind the first character has spaces put into it as well. -/
theorem tail_blanked : List.Forall₂ Blanked rest.tail rest'.tail := by
  cases h with
  | nil => exact .nil
  | cons _ htail => exact htail

namespace Piece

/-! ## Pieces in front of spaces -/

/-- A text that does not begin with a character of a class does not with spaces put into it, unless the
space is one of the class. -/
theorem Stops.of_blanked {p : Char → Bool} (hspace : p ' ' = false) (stops : Stops p rest) :
    Stops p rest' := by
  intro d hd
  cases h with
  | nil => cases hd
  | cons hc _ =>
    cases hd
    obtain rfl | ⟨-, rfl⟩ := hc
    · exact stops d rfl
    · exact hspace

/-- **What ends before a text ends before it also with spaces put into it.**

**Proof sketch.** By the kind of the piece. A word, a number or a symbol is not continued by a space, and a
comment ends in front of a line feed only, which is never replaced. -/
theorem Ends.of_blanked {p : Piece} (ends : p.Ends rest) : p.Ends rest' := by
  cases p with
  | blank c | string content | stray c => trivial
  | comment body =>
    intro d hd
    cases h with
    | nil => cases hd
    | @cons c _ _ _ hc _ =>
      cases hd
      obtain rfl | ⟨hne, -⟩ := hc
      · exact ends d rfl
      · have hfeed := ends c rfl
        simp [hne] at hfeed
  | symbol s =>
    exact ⟨fun hs hhead => ends.1 hs (head?_of_blanked h (by decide) hhead),
      fun hs hhead => ends.2 hs (head?_of_blanked h (by decide) hhead)⟩
  | word letters => exact Stops.of_blanked h rfl ends
  | number whole fraction =>
    refine ⟨Stops.of_blanked h rfl ends.1, fun hnil hhead => ?_⟩
    exact Stops.of_blanked (tail_blanked h) rfl (ends.2 hnil (head?_of_blanked h (by decide) hhead))
  | openString content =>
    cases ends
    cases h
    rfl

end Piece

end Rest

namespace Piece

/-! ## Rows of blanks -/

/-- Blanks are written as their characters. -/
theorem flatMap_text_map_blank (cs : List Char) : (cs.map blank).flatMap text = cs := by
  induction cs with
  | nil => rfl
  | cons c cs ih => exact congrArg (c :: ·) ih

/-- White space is a row of blanks, whatever follows it. -/
theorem separated_map_blank {cs : List Char} (h : ∀ c ∈ cs, c.isWhitespace) (rest : List Char) :
    Separated (cs.map blank) rest := by
  induction cs with
  | nil => trivial
  | cons c cs ih =>
    obtain ⟨hc, hcs⟩ := List.forall_mem_cons.mp h
    exact ⟨hc, trivial, ih hcs⟩

/-- Blanks have no tokens. -/
theorem tokens_map_blank (line : Nat) (cs : List Char) : tokens line (cs.map blank) = [] := by
  induction cs generalizing line with
  | nil => rfl
  | cons c cs ih => exact ih _

/-! ## Pieces without their faults -/

/-- **The characters of a piece without its fault**: a space for a character that starts nothing, and
spaces for a quote that is never closed and all that follows it but line feeds. -/
def cleared : Piece → List Char
  | stray _ => [' ']
  | openString content => ' ' :: content.map spaceFor
  | p => p.text

/-- The pieces that a piece without its fault is made of. -/
def clearedPieces (p : Piece) : List Piece :=
  if p.isFaulty then p.cleared.map blank else [p]

/-- Only pieces at fault are changed. -/
theorem cleared_of_not_isFaulty {p : Piece} (h : p.isFaulty = false) : p.cleared = p.text := by
  cases p with
  | stray c | openString content => cases h
  | _ => rfl

/-- A piece without its fault is made of its pieces. -/
theorem flatMap_text_clearedPieces (p : Piece) : p.clearedPieces.flatMap text = p.cleared := by
  unfold clearedPieces
  split
  · exact flatMap_text_map_blank _
  · next h => rw [cleared_of_not_isFaulty (by simpa using h), List.flatMap_singleton]

/-- What is put in the place of a piece at fault is white space. -/
theorem isWhitespace_of_mem_cleared {p : Piece} (faulty : p.isFaulty) :
    ∀ c ∈ p.cleared, c.isWhitespace := by
  have hspace (c : Char) : (spaceFor c).isWhitespace := by
    unfold spaceFor
    split <;> rfl
  cases p with
  | stray c => simp [cleared]
  | openString content => simpa [cleared] using fun c _ => hspace c
  | _ => cases faulty

/-- A piece without its fault has spaces put into it. -/
theorem WellFormed.blanked {p : Piece} (wellFormed : p.WellFormed) :
    List.Forall₂ Blanked p.text p.cleared := by
  cases p with
  | stray c =>
    have hne : c ≠ '\n' := by
      rintro rfl
      exact wellFormed.1 rfl
    exact .cons (.inr ⟨hne, rfl⟩) .nil
  | openString content =>
    refine .cons (.inr ⟨by decide, rfl⟩) ?_
    rw [List.forall₂_map_right_iff, List.forall₂_same]
    exact fun c _ => blanked_spaceFor c
  | _ => exact List.forall₂_same.mpr fun c _ => .inl rfl

/-- A row of pieces without their faults has spaces put into it. -/
theorem Separated.blanked {ps : List Piece} {rest : List Char} (separated : Separated ps rest) :
    List.Forall₂ Blanked (ps.flatMap text) (ps.flatMap cleared) := by
  induction ps with
  | nil => exact .nil
  | cons p ps ih =>
    obtain ⟨wellFormed, -, hps⟩ := separated
    rw [List.flatMap_cons, List.flatMap_cons]
    exact List.rel_append wellFormed.blanked (ih hps)

/-- The text of a row of pieces without their faults. -/
theorem flatMap_text_flatMap_clearedPieces (ps : List Piece) :
    (ps.flatMap clearedPieces).flatMap text = ps.flatMap cleared := by
  rw [List.flatMap_assoc]
  exact congrArg (ps.flatMap ·) (funext flatMap_text_clearedPieces)

/-- **Pieces without their faults are separated.**

**Proof sketch.** Induction on the row. A piece at fault gives way to blanks, which are never continued,
and any other piece still ends before what follows it. -/
theorem Separated.clearedPieces {ps : List Piece} (separated : Separated ps []) :
    Separated (ps.flatMap clearedPieces) [] := by
  induction ps with
  | nil => trivial
  | cons p ps ih =>
    obtain ⟨wellFormed, ends, hps⟩ := separated
    rw [List.flatMap_cons, separated_append]
    refine ⟨?_, ih hps⟩
    rw [List.append_nil] at ends ⊢
    rw [flatMap_text_flatMap_clearedPieces]
    unfold Piece.clearedPieces
    -- what follows the piece has lost its faults as well, so that its end is not the one that is given
    split
    · next faulty => exact separated_map_blank (isWhitespace_of_mem_cleared faulty) _
    · exact ⟨wellFormed, Ends.of_blanked hps.blanked ends, trivial⟩

/-- **The pieces of a text without its faults** are those that are not at fault, and blanks. -/
theorem split_cleared {ps : List Piece} (separated : Separated ps []) :
    split (ps.flatMap cleared) = ps.flatMap clearedPieces := by
  have hsplit := split_append separated.clearedPieces
  rw [List.append_nil, flatMap_text_flatMap_clearedPieces, split, List.append_nil] at hsplit
  exact hsplit

/-- A piece without its fault gives no cause for one. -/
theorem cause?_of_mem_clearedPieces {p q : Piece} (h : q ∈ p.clearedPieces) : q.cause? = none := by
  unfold clearedPieces at h
  split at h
  · obtain ⟨c, -, rfl⟩ := List.mem_map.mp h
    rfl
  · next hfaulty =>
    obtain rfl := List.mem_singleton.mp h
    cases q with
    | stray c | openString content => exact absurd rfl hfaulty
    | _ => rfl

/-! ## Tokens without faults -/

/-- A piece without its fault holds the same line feeds. -/
theorem WellFormed.lines_clearedPieces {p : Piece} (wellFormed : p.WellFormed) :
    lines p.clearedPieces = p.newlines := by
  rw [lines_eq_count, flatMap_text_clearedPieces, count_newline_of_blanked wellFormed.blanked, newlines]

/-- A piece without its fault has the same token, or none. -/
theorem tokens_clearedPieces (line : Nat) (p : Piece) :
    tokens line p.clearedPieces = (p.token? (line + p.newlines)).toList := by
  unfold clearedPieces
  split
  · next faulty =>
    rw [tokens_map_blank]
    cases p with
    | stray c | openString content => rfl
    | _ => cases faulty
  · rw [tokens, tokens, List.append_nil]

/-- Pieces without their faults hold the same line feeds. -/
theorem Separated.lines_clearedPieces {ps : List Piece} {rest : List Char}
    (separated : Separated ps rest) : lines (ps.flatMap Piece.clearedPieces) = lines ps := by
  rw [lines_eq_count, lines_eq_count, flatMap_text_flatMap_clearedPieces,
    count_newline_of_blanked separated.blanked]

/-- **Pieces without their faults have the same tokens** on the same lines. -/
theorem Separated.tokens_clearedPieces {ps : List Piece} {rest : List Char}
    (separated : Separated ps rest) (line : Nat) :
    tokens line (ps.flatMap Piece.clearedPieces) = tokens line ps := by
  induction ps generalizing line with
  | nil => rfl
  | cons p ps ih =>
    obtain ⟨wellFormed, -, hps⟩ := separated
    rw [List.flatMap_cons, tokens_append, Piece.tokens_clearedPieces, wellFormed.lines_clearedPieces,
      ih hps, tokens]

end Piece

/-- **A text without its faults has the tokens of the text.** The faults of a source text are those of its
characters that start nothing, and of a quote that is never closed. If each of these characters is replaced
by a space, and so is the quote with all that follows it but line feeds, the text has no fault, and its
tokens are the same in all their parts, lines and the end of the input included.

**Proof sketch.** Spaces continue no piece, so that the other pieces of the text are found again between
blanks (`Piece.split_cleared`). Blanks have no tokens, and the line feeds are still there. -/
theorem Log.lex_cleared (log log' : Log) (source : String) :
    ∃ ps, Piece.Munches source.toList ps ∧
      (∃ faults, (log.lex source).2.faults = log.faults ++ faults.map .lex ∧
        List.Forall₂ (Place.Blames source.toList) ((Piece.places [] ps).filter (·.piece.isFaulty))
          faults) ∧
      log'.lex (String.ofList (ps.flatMap Piece.cleared)) = ((log.lex source).1, log') := by
  have munches := Piece.munches_split source.toList
  have separated := munches.separated
  have hsplit : Piece.split (String.ofList
      ((Piece.split source.toList).flatMap Piece.cleared)).toList =
      (Piece.split source.toList).flatMap Piece.clearedPieces := by
    rw [String.toList_ofList, Piece.split_cleared separated]
  have clean : ∀ p ∈ (Piece.split source.toList).flatMap Piece.clearedPieces, p.cause? = none := by
    intro p hp
    obtain ⟨q, -, hp⟩ := List.mem_flatMap.mp hp
    exact Piece.cause?_of_mem_clearedPieces hp
  refine ⟨_, munches, ⟨_, rfl, munches.forall₂_blames⟩, ?_⟩
  rw [log'.lex_of_clean hsplit clean, separated.tokens_clearedPieces, separated.lines_clearedPieces,
    ← Lexed.tokens_ofPieces]
  rfl

/-- The halves of `!=` are still kept apart, and the line feed behind a quote that is never closed stays. -/
example :
    (Piece.split "!@= 1.#\n\"a\nb".toList).flatMap Piece.cleared = "! = 1. \n  \n ".toList := by
  decide +kernel

end Lox

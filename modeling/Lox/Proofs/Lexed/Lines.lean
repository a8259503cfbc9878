import Lox.Proofs.Lexed.Munch

set_option autoImplicit false

/-!
# Lines of tokens and faults

The pieces of a text stand in it one behind another, each at a place of its own. The line of a token is
the one on which the text of the token ends, counted by the line feeds of the source text up to there,
wherever these line feeds stand. The line of a fault is counted in the same way.

## Main definitions

* `Lox.lineAfter` — the line on which a text ends.
* `Lox.Place` — a piece and what stands in front of it, and `Lox.Piece.places` for a row of pieces.
* `Lox.Piece.collect` — what the pieces of a row give, each on the line on which it ends.
* `Lox.Place.Makes`, `Lox.Place.Blames` — the token and the fault of a place, with their lines.

## Main results

* `Lox.Piece.forall₂_collect` — what a row of pieces gives is what its places give.
* `Lox.Piece.pairwise_collect` — lines never decrease along a row of pieces.
* `Lox.Piece.Munches.forall₂_makes`, `Lox.Piece.Munches.forall₂_blames` — the lines of the tokens and of
  the faults of a source text.
-/

namespace Lox

/-! ## Places -/

/-- The line on which a text ends, counted from one. -/
def lineAfter (cs : List Char) : Nat :=
  1 + cs.count '\n'

/-- The line on which two texts end is further on by the line feeds of the second one. -/
theorem lineAfter_append (cs ds : List Char) : lineAfter (cs ++ ds) = lineAfter cs + ds.count '\n' := by
  rw [lineAfter, lineAfter, List.count_append, Nat.add_assoc]

/-- **A place in a source text**: a piece, and all characters in front of it. -/
structure Place where
  /-- The characters in front of the piece. -/
  before : List Char
  /-- The piece. -/
  piece : Piece

namespace Place

/-- The source text up to the end of the piece. -/
def upTo (place : Place) : List Char :=
  place.before ++ place.piece.text

/-- **The token of a place**: what the piece makes, found in the source text behind what stands in front
of the piece, and on the line on which it ends there. -/
structure Makes (source : List Char) (place : Place) (t : Token) : Prop where
  /-- The source text holds the text of the token at the place. -/
  within : place.before ++ t.lexeme.toList <+: source
  /-- The token is the one that the piece makes. -/
  makes : place.piece.Makes t
  /-- The line is counted up to the end of the text of the token. -/
  line : t.line = lineAfter (place.before ++ t.lexeme.toList)

/-- **The fault of a place**: a character that starts nothing is on the line on which it stands, and a
quote that is never closed is on the last line of the source text. -/
inductive Blames (source : List Char) : Place → LexFault → Prop
  | stray {before : List Char} {c : Char} (within : before ++ [c] <+: source) :
      Blames source ⟨before, .stray c⟩ ⟨.strayCharacter c, lineAfter before⟩
  | openString {before content : List Char} (within : before ++ '"' :: content = source) :
      Blames source ⟨before, .openString content⟩ ⟨.openString, lineAfter source⟩

end Place

namespace Piece

/-- The places of a row of pieces behind given characters. -/
def places (before : List Char) : List Piece → List Place
  | [] => []
  | p :: ps => ⟨before, p⟩ :: places (before ++ p.text) ps

/-- The piece of a place is one of the row. -/
theorem piece_mem_of_mem_places {before : List Char} {ps : List Piece} {place : Place}
    (h : place ∈ places before ps) : place.piece ∈ ps := by
  induction ps generalizing before with
  | nil => cases h
  | cons p ps ih =>
    obtain rfl | h := List.mem_cons.mp h
    · exact .head _
    · exact .tail _ (ih h)

/-- The text up to the end of a place is the beginning of the text of the row. -/
theorem upTo_of_mem_places {before : List Char} {ps : List Piece} {place : Place}
    (h : place ∈ places before ps) : place.upTo <+: before ++ ps.flatMap text := by
  induction ps generalizing before with
  | nil => cases h
  | cons p ps ih =>
    rw [List.flatMap_cons, ← List.append_assoc]
    obtain rfl | h := List.mem_cons.mp h
    · exact List.prefix_append _ _
    · exact ih h

/-- Nothing stands behind a quote that is never closed. -/
theorem Munches.eq_of_openString_mem_places {cs : List Char} {ps : List Piece} (munches : Munches cs ps)
    {before front content : List Char} (h : ⟨before, .openString content⟩ ∈ places front ps) :
    before ++ '"' :: content = front ++ cs := by
  induction munches generalizing front with
  | nil => cases h
  | @blank c cs ps _ _ ih | @stray c cs ps _ _ ih =>
    obtain h | h := List.mem_cons.mp h
    · cases h
    · rw [ih h]
      exact List.append_assoc front [c] cs
  | @longest p rest ps longest _ ih =>
    obtain h | h := List.mem_cons.mp h
    · obtain ⟨-, hkind⟩ := longest.lexical
      cases h
      simp [isToken, isComment] at hkind
    · rw [ih h, List.append_assoc]
  | openString _ =>
    cases List.mem_singleton.mp h
    rfl

/-- The line feeds of a row of pieces are those of its text. -/
theorem lines_eq_count (ps : List Piece) : lines ps = (ps.flatMap text).count '\n' := by
  induction ps with
  | nil => rfl
  | cons p ps ih => rw [lines_cons, List.flatMap_cons, List.count_append, ih, newlines]

/-! ## What the pieces of a row give -/

section Collect

variable {α : Type} {f : Piece → Nat → Option α}

/-- What the pieces of a row give, each on the line on which it ends. -/
def collect (f : Piece → Nat → Option α) (line : Nat) : List Piece → List α
  | [] => []
  | p :: ps => (f p (line + p.newlines)).toList ++ collect f (line + p.newlines) ps

/-- The tokens of a row are collected from its pieces. -/
theorem tokens_eq_collect (line : Nat) (ps : List Piece) : tokens line ps = collect token? line ps := by
  induction ps generalizing line with
  | nil => rfl
  | cons p ps ih => rw [tokens, collect, ih]

/-- The faults of a row are collected from its pieces. -/
theorem faults_eq_collect (line : Nat) (ps : List Piece) :
    (Lexed.ofPieces line ps).faults = collect fault? line ps := by
  induction ps generalizing line with
  | nil => rfl
  | cons p ps ih => rw [Lexed.ofPieces, collect, ← ih]

/-- **What a row of pieces gives is what its places give**, if it depends on a piece alone whether the
piece gives anything. -/
theorem forall₂_collect {gives : Piece → Bool} (hgives : ∀ p line, (f p line).isSome = gives p)
    {R : Place → α → Prop} {before : List Char} {ps : List Piece}
    (h : ∀ place ∈ places before ps, ∀ a, f place.piece (lineAfter place.upTo) = some a → R place a) :
    List.Forall₂ R ((places before ps).filter (gives ·.piece)) (collect f (lineAfter before) ps) := by
  induction ps generalizing before with
  | nil => exact .nil
  | cons p ps ih =>
    obtain ⟨hp, hps⟩ := List.forall_mem_cons.mp h
    have hline : lineAfter before + p.newlines = lineAfter (before ++ p.text) :=
      (lineAfter_append before p.text).symm
    rw [places, collect, hline]
    cases ha : f p (lineAfter (before ++ p.text)) with
    | none =>
      have hnone : gives p = false := by rw [← hgives p (lineAfter (before ++ p.text)), ha]; rfl
      rw [List.filter_cons, if_neg (Bool.eq_false_iff.mp hnone)]
      exact ih hps
    | some a =>
      have hsome : gives p = true := by rw [← hgives p (lineAfter (before ++ p.text)), ha]; rfl
      rw [List.filter_cons, if_pos hsome]
      exact .cons (hp a ha) (ih hps)

variable {lineOf : α → Nat} (hline : ∀ {p line a}, f p line = some a → lineOf a = line)

include hline in
/-- What a row of pieces gives is on the lines of the row. -/
theorem line_of_mem_collect {line : Nat} {ps : List Piece} {a : α} (h : a ∈ collect f line ps) :
    line ≤ lineOf a ∧ lineOf a ≤ line + lines ps := by
  induction ps generalizing line with
  | nil => cases h
  | cons p ps ih =>
    rw [lines_cons]
    obtain h | h := List.mem_append.mp h
    · have := hline (Option.mem_toList.mp h)
      omega
    · have := ih h
      omega

include hline in
/-- **Lines never decrease** along what a row of pieces gives. -/
theorem pairwise_collect (line : Nat) (ps : List Piece) :
    (collect f line ps).Pairwise (lineOf · ≤ lineOf ·) := by
  induction ps generalizing line with
  | nil => exact .nil
  | cons p ps ih =>
    refine List.pairwise_append.mpr ⟨?_, ih _, fun a ha b hb => ?_⟩
    · cases f p (line + p.newlines) with
      | none => exact .nil
      | some a => exact List.pairwise_singleton _ _
    · rw [hline (Option.mem_toList.mp ha)]
      exact (line_of_mem_collect hline hb).1

end Collect

/-! ## Tokens and faults -/

/-- A token is on the line on which its piece ends. -/
theorem line_of_token? {p : Piece} {line : Nat} {t : Token} (h : p.token? line = some t) :
    t.line = line :=
  (token?_eq_some_iff.mp h).2.2

/-- A fault is on the line on which its piece ends. -/
theorem line_of_fault? {p : Piece} {line : Nat} {fault : LexFault} (h : p.fault? line = some fault) :
    fault.line = line := by
  obtain ⟨cause, -, rfl⟩ := Option.map_eq_some_iff.mp h
  rfl

/-- It depends on a piece alone whether it gives a token. -/
theorem isSome_token? (p : Piece) (line : Nat) : (p.token? line).isSome = p.isToken := by
  rw [token?, Option.isSome_map, isSome_kind?]

/-- It depends on a piece alone whether it gives a fault. -/
theorem isSome_fault? (p : Piece) (line : Nat) : (p.fault? line).isSome = p.isFaulty := by
  cases p <;> rfl

/-- **The lines of the tokens of a source text** are those on which their texts end. -/
theorem Munches.forall₂_makes {cs : List Char} {ps : List Piece} (munches : Munches cs ps) :
    List.Forall₂ (Place.Makes cs) ((places [] ps).filter (·.piece.isToken)) (tokens 1 ps) := by
  rw [tokens_eq_collect]
  refine forall₂_collect isSome_token? fun place hplace t ht => ?_
  obtain ⟨hkind, hlexeme, hline⟩ := token?_eq_some_iff.mp ht
  have htext : t.lexeme.toList = place.piece.text := by rw [hlexeme, String.toList_ofList]
  have hwithin := upTo_of_mem_places hplace
  rw [munches.eq_split, flatMap_text_split, List.nil_append] at hwithin
  exact ⟨by rw [htext]; exact hwithin, ⟨hlexeme, means_iff_kind?.mpr hkind⟩, by rw [htext]; exact hline⟩

/-- **The lines of the faults of a source text** are those of its stray characters, and the last line for
a quote that is never closed. -/
theorem Munches.forall₂_blames {cs : List Char} {ps : List Piece} (munches : Munches cs ps) :
    List.Forall₂ (Place.Blames cs) ((places [] ps).filter (·.piece.isFaulty))
      (Lexed.ofPieces 1 ps).faults := by
  rw [faults_eq_collect]
  refine forall₂_collect isSome_fault? fun place hplace fault hfault => ?_
  have hwithin := upTo_of_mem_places hplace
  rw [munches.eq_split, flatMap_text_split, List.nil_append] at hwithin
  have wellFormed : place.piece.WellFormed := by
    have hmem := piece_mem_of_mem_places hplace
    rw [munches.eq_split] at hmem
    exact wellFormed_of_mem_split hmem
  obtain ⟨before, p⟩ := place
  cases p with
  | stray c =>
    cases hfault
    have hc : [c].count '\n' = 0 := by
      refine List.count_eq_zero.mpr fun hmem => wellFormed.1 ?_
      rw [← List.mem_singleton.mp hmem]
      rfl
    have hstray : lineAfter (before ++ [c]) = lineAfter before := by
      rw [lineAfter_append, hc, Nat.add_zero]
    show Place.Blames cs _ ⟨_, lineAfter (before ++ [c])⟩
    rw [hstray]
    exact .stray hwithin
  | openString content =>
    cases hfault
    have hsource := munches.eq_of_openString_mem_places hplace
    show Place.Blames cs _ ⟨_, lineAfter (before ++ '"' :: content)⟩
    rw [hsource]
    exact .openString hsource
  | blank | comment | symbol | word | number | string => cases hfault

end Piece

end Lox

import Lox.Piece
import Mathlib

set_option autoImplicit false

/-!
# Which pieces are cut off

A piece is cut off a text if it is made as its kind demands, and if what follows it neither continues
the piece nor makes a longer one with it. Pieces that are put one behind another in this way are
therefore found again, whatever stands behind them.

## Main definitions

* `Lox.Piece.WellFormed` — the characters of a piece are those of its kind.
* `Lox.Piece.Ends` — a piece is not continued by what follows it.
* `Lox.Piece.Delimits` — a text ends every operand in front of it.
* `Lox.Piece.Separated` — pieces in a row of which none is continued by what follows.

## Main results

* `Lox.Piece.split_cons` — a well-formed piece that ends is the first piece of a text.
* `Lox.Piece.split_append` — separated pieces are the first pieces of a text.
* `Lox.Piece.wellFormed_of_mem_split` — all pieces of a text are well-formed.
-/

namespace Lox

namespace Piece

/-! ## Well-formed pieces -/

/-- Whether a text does not begin with a character of some class. -/
def Stops (p : Char → Bool) (rest : List Char) : Prop :=
  ∀ c ∈ rest.head?, p c = false

/-- **What a piece of a kind is made of.** -/
def WellFormed : Piece → Prop
  | blank c => c.isWhitespace
  | comment body => '\n' ∉ body
  | symbol _ => True
  | word letters => ∃ c cs, letters = c :: cs ∧ isLetter c ∧ ∀ d ∈ cs, isWordChar d
  | number whole fraction =>
    whole ≠ [] ∧ (∀ d ∈ whole, d.isDigit) ∧ ∀ d ∈ fraction, d.isDigit
  | string content => '"' ∉ content
  | stray c => ¬c.isWhitespace ∧ ¬c.isDigit ∧ ¬isLetter c ∧ c ≠ '"' ∧ Symbol.ofChar? c = none
  | openString content => '"' ∉ content

/-- **Whether a piece ends before the text `rest`**: the text does not continue the piece. A whole
number is also continued by a point with a digit behind it, and a slash by a second one. -/
def Ends : Piece → List Char → Prop
  | comment _, rest => Stops (· != '\n') rest
  | symbol s, rest =>
    (s.withEqual?.isSome → rest.head? ≠ some '=') ∧ (s = .slash → rest.head? ≠ some '/')
  | word _, rest => Stops isWordChar rest
  | number _ fraction, rest =>
    Stops Char.isDigit rest ∧
      (fraction = [] → rest.head? = some '.' → Stops Char.isDigit rest.tail)
  | openString _, rest => rest = []
  | _, _ => True

/-- Whether a text is empty or begins with a space or a closing parenthesis, as what stands behind
an operand does. -/
def Delimits (rest : List Char) : Prop :=
  ∀ c ∈ rest.head?, c = ' ' ∨ c = ')'

/-! ## Classes of characters -/

/-- A character in a class is none of the characters outside it. -/
theorem ne_of_class {p : Char → Bool} {c d : Char} (hd : p d = false) (hc : p c) : c ≠ d := by
  rintro rfl
  rw [hd] at hc
  cases hc

/-- A class without a space and a closing parenthesis stops at a delimiter. -/
theorem Delimits.stops {p : Char → Bool} {rest : List Char} (delimits : Delimits rest)
    (hspace : p ' ' = false) (hparen : p ')' = false) : Stops p rest := by
  intro c hc
  obtain rfl | rfl := delimits c hc
  · exact hspace
  · exact hparen

/-- What a class takes from the front of a text is all that is in it, up to where the text stops. -/
theorem takeWhile_append_of_stops {p : Char → Bool} {cs rest : List Char} (h : ∀ c ∈ cs, p c)
    (stops : Stops p rest) : (cs ++ rest).takeWhile p = cs := by
  rw [List.takeWhile_append_of_pos h]
  cases rest with
  | nil => simp
  | cons c rest => simp [stops c rfl]

/-- What a class leaves of a text begins where the text stops. -/
theorem dropWhile_append_of_stops {p : Char → Bool} {cs rest : List Char} (h : ∀ c ∈ cs, p c)
    (stops : Stops p rest) : (cs ++ rest).dropWhile p = rest := by
  rw [List.dropWhile_append_of_pos h]
  cases rest with
  | nil => rfl
  | cons c rest => simp [stops c rfl]

/-- A text in which some character does not occur lies in the class of all others. -/
theorem forall_bne_of_not_mem {d : Char} {cs : List Char} (h : d ∉ cs) : ∀ c ∈ cs, (c != d) = true :=
  fun _ hc => bne_iff_ne.mpr fun heq => h (heq ▸ hc)

/-- A class without the four characters of white space has no white space in it. -/
theorem not_isWhitespace {p : Char → Bool} (blanks : [' ', '\t', '\r', '\n'].any p = false)
    {c : Char} (h : p c) : ¬c.isWhitespace := by
  intro hspace
  have hmem : c ∈ [' ', '\t', '\r', '\n'] := by
    simpa [Char.isWhitespace, or_assoc] using hspace
  rw [List.any_eq_true.mpr ⟨c, hmem, h⟩] at blanks
  cases blanks

/-- A letter is no digit. -/
theorem not_isDigit_of_isLetter {c : Char} (h : isLetter c) : ¬c.isDigit := by
  intro hdigit
  simp only [isLetter, Char.isAlpha, Char.isUpper, Char.isLower, Char.isDigit, Bool.or_eq_true,
    Bool.and_eq_true, decide_eq_true_eq, beq_iff_eq] at h hdigit
  obtain (⟨hlow, -⟩ | ⟨hlow, -⟩) | rfl := h
  · exact absurd (UInt32.le_trans hlow hdigit.2) (by decide)
  · exact absurd (UInt32.le_trans hlow hdigit.2) (by decide)
  · exact absurd hdigit.2 (by decide)

/-! ## Single cuts -/

/-- A number whose point is followed by a digit has a fraction. -/
theorem cutNumber_of_point {c d : Char} {cs ds rest : List Char}
    (hpoint : cs.dropWhile Char.isDigit = '.' :: rest)
    (hfraction : rest.takeWhile Char.isDigit = d :: ds) :
    cutNumber c cs =
      (number (c :: cs.takeWhile Char.isDigit) (d :: ds), rest.dropWhile Char.isDigit) := by
  simp only [cutNumber, hpoint, hfraction]

/-- A number that no digit follows, not even behind a point, has no fraction. -/
theorem cutNumber_of_ends {c : Char} {cs rest : List Char} (hrest : cs.dropWhile Char.isDigit = rest)
    (hpoint : rest.head? = some '.' → Stops Char.isDigit rest.tail) :
    cutNumber c cs = (number (c :: cs.takeWhile Char.isDigit) [], rest) := by
  cases rest with
  | nil => simp only [cutNumber, hrest]
  | cons d rest =>
    by_cases hd : d = '.'
    · have hnone : ∀ d ∈ ([] : List Char), d.isDigit := nofun
      have hstops : rest.takeWhile Char.isDigit = [] :=
        takeWhile_append_of_stops hnone (hpoint (congrArg some hd))
      rw [hd] at hrest ⊢
      simp only [cutNumber, hrest, hstops]
    · simp [cutNumber, hrest, hd]

/-- Digits that end are cut off as a number. -/
theorem cutNumber_append {c : Char} {ds fraction rest : List Char} (hds : ∀ d ∈ ds, d.isDigit)
    (hfraction : ∀ d ∈ fraction, d.isDigit) (ends : (number (c :: ds) fraction).Ends rest) :
    cutNumber c (ds ++ ((if fraction.isEmpty then [] else '.' :: fraction) ++ rest)) =
      (number (c :: ds) fraction, rest) := by
  obtain ⟨hstops, hpoint⟩ := ends
  cases fraction with
  | nil =>
    show cutNumber c (ds ++ rest) = _
    rw [cutNumber_of_ends (dropWhile_append_of_stops hds hstops) (hpoint rfl),
      takeWhile_append_of_stops hds hstops]
  | cons d fraction =>
    have hdot : Stops Char.isDigit ('.' :: (d :: fraction ++ rest)) := by
      intro e he
      cases he
      rfl
    show cutNumber c (ds ++ '.' :: (d :: fraction ++ rest)) = _
    rw [cutNumber_of_point (dropWhile_append_of_stops hds hdot)
      (takeWhile_append_of_stops hfraction hstops), takeWhile_append_of_stops hds hdot,
      dropWhile_append_of_stops hfraction hstops]

/-- A text up to the next quote is cut off as a string. -/
theorem cutString_append {content : List Char} (h : '"' ∉ content) (rest : List Char) :
    cutString (content ++ '"' :: rest) = (string content, rest) := by
  have hquote : Stops (· != '"') ('"' :: rest) := by
    intro e he
    cases he
    rfl
  have hcontent := forall_bne_of_not_mem h
  rw [cutString, takeWhile_append_of_stops hcontent hquote,
    dropWhile_append_of_stops hcontent hquote]

/-- A text without a further quote is cut off as an open string. -/
theorem cutString_of_not_mem {content : List Char} (h : '"' ∉ content) :
    cutString content = (openString content, []) := by
  have hnil : content.dropWhile (· != '"') = [] :=
    List.dropWhile_eq_nil_iff.mpr (forall_bne_of_not_mem h)
  rw [cutString, hnil]

/-- A symbol that no equals sign continues is cut off as it is. -/
theorem cutSymbol_of_ends {s : Symbol} {rest : List Char}
    (h : s.withEqual?.isSome → rest.head? ≠ some '=') : cutSymbol s rest = (symbol s, rest) := by
  unfold cutSymbol
  split
  · next hs => exact absurd rfl (h (by rw [hs]; rfl))
  · rfl

/-- The character of a symbol begins this symbol, unless a second slash makes a comment. -/
theorem cut_of_ofChar? {c : Char} {s : Symbol} {rest : List Char} (hs : Symbol.ofChar? c = some s)
    (h : s = .slash → rest.head? ≠ some '/') : cut c rest = cutSymbol s rest := by
  unfold Symbol.ofChar? at hs
  split at hs <;> cases hs
  case h_10 =>
    cases rest with
    | nil => rfl
    | cons d rest =>
      have hd : d ≠ '/' := by simpa using h rfl
      simp [cut, Symbol.ofChar?, isLetter, hd]
  all_goals rfl

/-- A symbol that ends is cut off. -/
theorem cut_symbol {s : Symbol} {c : Char} {cs rest : List Char} (htext : s.text.toList = c :: cs)
    (ends : (symbol s).Ends rest) : cut c (cs ++ rest) = (symbol s, rest) := by
  obtain ⟨hequal, hslash⟩ := ends
  cases s
  case bangEqual | equalEqual | greaterEqual | lessEqual =>
    cases htext
    rfl
  all_goals
    cases htext
    rw [List.nil_append, cut_of_ofChar? rfl hslash, cutSymbol_of_ends hequal]

/-- A quote is no white space, no digit and no letter. -/
theorem cut_quote (cs : List Char) : cut '"' cs = cutString cs :=
  rfl

/-- The first cut from a piece that ends is this piece. -/
theorem cut_of_ends {p : Piece} {c : Char} {cs rest : List Char} (htext : p.text = c :: cs)
    (wellFormed : p.WellFormed) (ends : p.Ends rest) : cut c (cs ++ rest) = (p, rest) := by
  cases p with
  | blank d =>
    cases htext
    exact if_pos wellFormed
  | comment body =>
    cases htext
    have hbody := forall_bne_of_not_mem wellFormed
    show (comment ((body ++ rest).takeWhile _), (body ++ rest).dropWhile _) = _
    rw [takeWhile_append_of_stops hbody ends, dropWhile_append_of_stops hbody ends]
  | symbol s => exact cut_symbol htext ends
  | word letters =>
    obtain ⟨d, ds, rfl, hd, hds⟩ := wellFormed
    cases htext
    unfold cut
    rw [if_neg (not_isWhitespace rfl hd), if_neg (not_isDigit_of_isLetter hd),
      if_pos hd, takeWhile_append_of_stops hds ends, dropWhile_append_of_stops hds ends]
  | number whole fraction =>
    obtain ⟨hne, hwhole, hfraction⟩ := wellFormed
    obtain ⟨d, ds, rfl⟩ := List.exists_cons_of_ne_nil hne
    obtain ⟨hd, hds⟩ := List.forall_mem_cons.mp hwhole
    cases htext
    unfold cut
    rw [if_neg (not_isWhitespace rfl hd), if_pos hd]
    exact (congrArg (cutNumber _) (List.append_assoc ..)).trans
      (cutNumber_append hds hfraction ends)
  | string content =>
    cases htext
    rw [cut_quote]
    exact (congrArg cutString (List.append_assoc ..)).trans (cutString_append wellFormed rest)
  | stray d =>
    obtain ⟨hspace, hdigit, hletter, hquote, hsymbol⟩ := wellFormed
    cases htext
    unfold cut
    rw [if_neg hspace, if_neg hdigit, if_neg hletter, if_neg hquote]
    split
    · cases hsymbol
    · rw [hsymbol]
      rfl
  | openString content =>
    cases htext
    obtain rfl : rest = [] := ends
    rw [cut_quote, List.append_nil, cutString_of_not_mem wellFormed]

/-- No well-formed piece is empty. -/
theorem WellFormed.exists_text_eq_cons {p : Piece} (wellFormed : p.WellFormed) :
    ∃ c cs, p.text = c :: cs := by
  cases p with
  | symbol s => cases s <;> exact ⟨_, _, rfl⟩
  | word letters =>
    obtain ⟨c, cs, rfl, -⟩ := wellFormed
    exact ⟨c, cs, rfl⟩
  | number whole fraction =>
    obtain ⟨d, ds, rfl⟩ := List.exists_cons_of_ne_nil wellFormed.1
    exact ⟨d, _, rfl⟩
  | _ => exact ⟨_, _, rfl⟩

/-! ## Rows of pieces -/

/-- **A well-formed piece that ends is the first piece of a text.** -/
theorem split_cons {p : Piece} {rest : List Char} (wellFormed : p.WellFormed)
    (ends : p.Ends rest) : split (p.text ++ rest) = p :: split rest := by
  obtain ⟨c, cs, htext⟩ := wellFormed.exists_text_eq_cons
  rw [htext, List.cons_append, split, cut_of_ends htext wellFormed ends]

/-- Whether the pieces of a row are well-formed and each of them ends before what follows it, be it
the next piece or, at last, the text `rest`. -/
def Separated : List Piece → List Char → Prop
  | [], _ => True
  | p :: ps, rest => p.WellFormed ∧ p.Ends (ps.flatMap text ++ rest) ∧ Separated ps rest

/-- Two rows are separated if the first one is, before the second one. -/
theorem separated_append {ps qs : List Piece} {rest : List Char} :
    Separated (ps ++ qs) rest ↔ Separated ps (qs.flatMap text ++ rest) ∧ Separated qs rest := by
  induction ps with
  | nil => simp [Separated]
  | cons p ps ih => simp [Separated, ih, and_assoc]

/-- **Separated pieces are the first pieces of a text.** -/
theorem split_append {ps : List Piece} {rest : List Char} (h : Separated ps rest) :
    split (ps.flatMap text ++ rest) = ps ++ split rest := by
  induction ps with
  | nil => rfl
  | cons p ps ih =>
    obtain ⟨wellFormed, ends, hps⟩ := h
    rw [List.flatMap_cons, List.append_assoc, split_cons wellFormed ends, ih hps, List.cons_append]

/-! ## All pieces of a text are well-formed -/

/-- A character does not occur in what the class of all others takes. -/
theorem not_mem_takeWhile_bne (d : Char) (cs : List Char) : d ∉ cs.takeWhile (· != d) := by
  intro h
  have hd := List.mem_takeWhile_imp h
  simp at hd

/-- A cut number has digits on both sides of its point. -/
theorem wellFormed_cutNumber {c : Char} (h : c.isDigit) (cs : List Char) :
    (cutNumber c cs).1.WellFormed := by
  have hwhole : ∀ d ∈ c :: cs.takeWhile Char.isDigit, d.isDigit :=
    List.forall_mem_cons.mpr ⟨h, fun _ => List.mem_takeWhile_imp⟩
  unfold cutNumber
  split
  · next rest _ =>
    split
    · exact ⟨List.cons_ne_nil _ _, hwhole, by simp⟩
    · next d ds hds =>
      refine ⟨List.cons_ne_nil _ _, hwhole, fun e he => ?_⟩
      rw [← hds] at he
      exact List.mem_takeWhile_imp he
  · exact ⟨List.cons_ne_nil _ _, hwhole, by simp⟩

/-- A cut string has no quote between its quotes. -/
theorem wellFormed_cutString (cs : List Char) : (cutString cs).1.WellFormed := by
  unfold cutString
  split
  · exact not_mem_takeWhile_bne '"' cs
  · next hnil =>
    intro hmem
    have hne := List.dropWhile_eq_nil_iff.mp hnil '"' hmem
    simp at hne

/-- A cut piece is well-formed. -/
theorem wellFormed_cut (c : Char) (cs : List Char) : (cut c cs).1.WellFormed := by
  unfold cut
  split
  · next hspace => exact hspace
  split
  · next hdigit => exact wellFormed_cutNumber hdigit cs
  split
  · next hletter => exact ⟨c, _, rfl, hletter, fun _ => List.mem_takeWhile_imp⟩
  split
  · exact wellFormed_cutString cs
  split
  · next rest _ _ _ _ => exact not_mem_takeWhile_bne '\n' rest
  · split
    · next s _ =>
      unfold cutSymbol
      split <;> trivial
    · next hspace hdigit hletter hquote _ _ _ _ hsymbol =>
      exact ⟨hspace, hdigit, hletter, hquote, hsymbol⟩

/-- **All pieces of a text are well-formed.** -/
theorem wellFormed_of_mem_split {cs : List Char} {p : Piece} (h : p ∈ split cs) :
    p.WellFormed := by
  fun_induction split cs with
  | case1 => cases h
  | case2 c cs ih =>
    obtain rfl | h := List.mem_cons.mp h
    · exact wellFormed_cut c cs
    · exact ih h

end Piece

end Lox

import Lox.Token.Kind

set_option autoImplicit false

/-!
# Pieces of a source text

A source text is a sequence of pieces: blanks and comments, the texts of tokens, and what cannot
be part of a token. Every character belongs to exactly one piece, and each piece is the longest one
that can be cut off where it begins.

## Main definitions

* `Lox.Piece` — a piece, with its `text`.
* `Lox.Piece.cut` — the first piece of a text, and the rest.
* `Lox.Piece.split` — all pieces of a text.

## Main results

* `Lox.Piece.text_cut` — a piece and the rest after it make up the text.
* `Lox.Piece.flatMap_text_split` — the pieces make up the text.
-/

namespace Lox

/-- A piece of a source text. -/
inductive Piece
  /-- A space, a tab, a carriage return or a line feed. -/
  | blank (c : Char)
  /-- Two slashes and what follows them on the line. -/
  | comment (body : List Char)
  /-- Punctuation or an operator. -/
  | symbol (s : Symbol)
  /-- Letters, underscores and digits, of which the first is no digit. -/
  | word (letters : List Char)
  /-- Digits and, if `fraction` is not empty, a point and further digits. -/
  | number (whole fraction : List Char)
  /-- A text between two quotes. -/
  | string (content : List Char)
  /-- A character that starts no token. -/
  | stray (c : Char)
  /-- A quote and all that follows it, if no second quote does. -/
  | openString (content : List Char)
deriving DecidableEq, Repr

namespace Piece

/-! ## Classes of characters -/

/-- A letter of a word: an ASCII letter or an underscore. -/
def isLetter (c : Char) : Bool :=
  c.isAlpha || c == '_'

/-- A character of a word after its first letter. -/
def isWordChar (c : Char) : Bool :=
  isLetter c || c.isDigit

/-! ## Cutting -/

/-- The characters of a piece. -/
def text : Piece → List Char
  | blank c => [c]
  | comment body => '/' :: '/' :: body
  | symbol s => s.text.toList
  | word letters => letters
  | number whole fraction => whole ++ if fraction.isEmpty then [] else '.' :: fraction
  | string content => '"' :: content ++ ['"']
  | stray c => [c]
  | openString content => '"' :: content

/-- The number whose digits before the point begin with `c`. A point that no digit follows is left
in the rest. -/
def cutNumber (c : Char) (cs : List Char) : Piece × List Char :=
  let whole := c :: cs.takeWhile Char.isDigit
  match cs.dropWhile Char.isDigit with
  | '.' :: rest => match rest.takeWhile Char.isDigit with
    | [] => (number whole [], '.' :: rest)
    | d :: ds => (number whole (d :: ds), rest.dropWhile Char.isDigit)
  | rest => (number whole [], rest)

/-- The text that a quote before `cs` opens: up to the next quote, if there is one. -/
def cutString (cs : List Char) : Piece × List Char :=
  match cs.dropWhile (· != '"') with
  | _ :: rest => (string (cs.takeWhile (· != '"')), rest)
  | [] => (openString cs, [])

/-- A symbol and what follows it: an equals sign belongs to the symbol if the two make one. -/
def cutSymbol (s : Symbol) (cs : List Char) : Piece × List Char :=
  match s.withEqual?, cs with
  | some t, '=' :: rest => (symbol t, rest)
  | _, _ => (symbol s, cs)

/-- The first piece of the text `c :: cs`, and the rest. -/
def cut (c : Char) (cs : List Char) : Piece × List Char :=
  if c.isWhitespace then (blank c, cs)
  else if c.isDigit then cutNumber c cs
  else if isLetter c then (word (c :: cs.takeWhile isWordChar), cs.dropWhile isWordChar)
  else if c = '"' then cutString cs
  else match c, cs with
    | '/', '/' :: rest =>
      (comment (rest.takeWhile (· != '\n')), rest.dropWhile (· != '\n'))
    | _, _ => match Symbol.ofChar? c with
      | some s => cutSymbol s cs
      | none => (stray c, cs)

/-! ## Nothing is lost -/

/-- A symbol is written with its one character. -/
theorem text_of_ofChar? {c : Char} {s : Symbol} (h : Symbol.ofChar? c = some s) :
    s.text.toList = [c] := by
  unfold Symbol.ofChar? at h
  split at h <;> cases h <;> rfl

/-- A symbol that an equals sign turns into another is continued by it. -/
theorem text_of_withEqual? {s t : Symbol} (h : s.withEqual? = some t) :
    t.text.toList = s.text.toList ++ ['='] := by
  cases s <;> cases h <;> rfl

/-- A cut number and the rest make up the text. -/
theorem text_cutNumber (c : Char) (cs : List Char) :
    (cutNumber c cs).1.text ++ (cutNumber c cs).2 = c :: cs := by
  have whole : cs.takeWhile Char.isDigit ++ cs.dropWhile Char.isDigit = cs :=
    List.takeWhile_append_dropWhile
  unfold cutNumber
  split
  · next rest h =>
    have fraction : rest.takeWhile Char.isDigit ++ rest.dropWhile Char.isDigit = rest :=
      List.takeWhile_append_dropWhile
    rw [h] at whole
    split
    · simp [text, whole]
    · next d ds hd =>
      rw [hd] at fraction
      simp only [List.cons_append] at fraction
      simp [text, fraction, whole]
  · simp [text, whole]

/-- A cut string and the rest make up the text. -/
theorem text_cutString (cs : List Char) :
    (cutString cs).1.text ++ (cutString cs).2 = '"' :: cs := by
  have content : cs.takeWhile (· != '"') ++ cs.dropWhile (· != '"') = cs :=
    List.takeWhile_append_dropWhile
  unfold cutString
  split
  · next q rest h =>
    have hq : q = '"' := by
      have := List.head?_dropWhile_not (· != '"') cs
      rw [h] at this
      simpa using this
    rw [h, hq] at content
    simp [text, content]
  · simp [text]

/-- A cut symbol and the rest make up the text. -/
theorem text_cutSymbol (s : Symbol) (cs : List Char) :
    (cutSymbol s cs).1.text ++ (cutSymbol s cs).2 = s.text.toList ++ cs := by
  unfold cutSymbol
  split
  · next h => simp [text, text_of_withEqual? h]
  · rfl

/-- A piece and the rest after it make up the text. -/
theorem text_cut (c : Char) (cs : List Char) : (cut c cs).1.text ++ (cut c cs).2 = c :: cs := by
  unfold cut
  split
  · rfl
  split
  · exact text_cutNumber c cs
  split
  · simp [text, List.takeWhile_append_dropWhile]
  split
  · next h => rw [h]; exact text_cutString cs
  split
  · simp [text, List.takeWhile_append_dropWhile]
  · split
    · next h => rw [text_cutSymbol, text_of_ofChar? h]; rfl
    · rfl

private theorem text_symbol_ne_empty (s : Symbol) : s.text ≠ "" := by
  cases s <;> decide

/-- A cut piece has at least one character. -/
theorem text_cut_ne_nil (c : Char) (cs : List Char) : (cut c cs).1.text ≠ [] := by
  unfold cut cutNumber cutString cutSymbol
  repeat' split
  all_goals simp [text, text_symbol_ne_empty]

/-- The rest after a piece is shorter than the text. -/
theorem length_cut (c : Char) (cs : List Char) : (cut c cs).2.length ≤ cs.length := by
  have total := congrArg List.length (text_cut c cs)
  have positive := List.length_pos_iff.mpr (text_cut_ne_nil c cs)
  simp only [List.length_append, List.length_cons] at total
  omega

/-! ## Splitting -/

/-- All pieces of a text, in order. -/
def split : List Char → List Piece
  | [] => []
  | c :: cs => (cut c cs).1 :: split (cut c cs).2
termination_by cs => cs.length
decreasing_by
  have := length_cut c cs
  simp only [List.length_cons]
  omega

/-- The pieces make up the text. -/
theorem flatMap_text_split (cs : List Char) : (split cs).flatMap text = cs := by
  fun_induction split cs with
  | case1 => rfl
  | case2 c cs ih => rw [List.flatMap_cons, ih, text_cut]

end Piece

end Lox

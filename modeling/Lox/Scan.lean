import Lox.Coding
import Lox.Lexed

set_option autoImplicit false

/-!
# Scans

A text can also be cut into tokens by a scan, which goes over its units with a cursor: it looks at no more
than two units, one at a time, and takes what it has gone over out of the text by its two ends. What it
takes out has to begin and to end between characters. A scan that takes out anything else, or looks for a
unit behind the end of the text, breaks off without a result.

## Main definitions

* `Lox.Scan` — a cursor over the units of a text, with the tokens and faults behind it.
* `Lox.Scan.step` — what the scan does from the beginning of one piece to the next.
* `Lox.Scan.finish` — all steps up to the end of the text.
* `Lox.scan` — the tokens and faults of a source text.

## Main results

* `Lox.Scan.step_advances` — each step leaves fewer units.
-/

namespace Lox

/-- **A scan** of a text in units. -/
structure Scan (α : Type) where
  /-- The text in units. -/
  input : List α
  /-- The position at which the piece begins. -/
  start : Nat
  /-- The position of the next unit. -/
  current : Nat
  /-- The line of the next unit. -/
  line : Nat
  /-- The tokens so far. -/
  tokens : List Token
  /-- The faults so far. -/
  faults : List LexFault
deriving Repr

namespace Scan

variable {α : Type} (coding : Coding α)

/-- The beginning of a scan of a text. -/
def ofText (cs : List Char) : Scan α :=
  ⟨coding.units cs, 0, 0, 1, [], []⟩

/-! ## The cursor -/

/-- What the next unit is taken for. -/
def peek (s : Scan α) : Option Char :=
  s.input[s.current]?.map coding.glyph

/-- What the unit behind the next one is taken for. -/
def peekNext (s : Scan α) : Option Char :=
  s.input[s.current + 1]?.map coding.glyph

/-- What the next units are taken for, as long as it belongs to a class. -/
def ahead (p : Char → Bool) (s : Scan α) : List Char :=
  ((s.input.drop s.current).map coding.glyph).takeWhile p

/-- Goes over the next units as long as they are taken for characters of a class. -/
def skip (p : Char → Bool) (s : Scan α) : Scan α :=
  { s with current := s.current + (s.ahead coding p).length }

/-- Goes over the next units as long as they are taken for characters of a class, and counts the line feeds
among them. -/
def skipLines (p : Char → Bool) (s : Scan α) : Scan α :=
  { s.skip coding p with line := s.line + (s.ahead coding p).count '\n' }

/-- Goes over one unit. -/
def advance (s : Scan α) : Scan α :=
  { s with current := s.current + 1 }

/-! ## Tokens and faults -/

/-- The text of the piece. -/
def lexeme (s : Scan α) : Option String :=
  coding.slice s.input s.start s.current

/-- Adds a token with the text of the piece. -/
def push (kind : Kind) (literal : Option Literal) (s : Scan α) : Option (Scan α) :=
  (s.lexeme coding).map fun lexeme =>
    { s with tokens := s.tokens ++ [⟨kind, lexeme, literal, s.line⟩] }

/-- Adds a fault. -/
def report (cause : LexCause) (s : Scan α) : Scan α :=
  { s with faults := s.faults ++ [⟨cause, s.line⟩] }

/-! ## Pieces behind their first unit -/

/-- A symbol: an equals sign belongs to it if the two make one. -/
def readSymbol (symbol : Symbol) (s : Scan α) : Option (Scan α) :=
  match symbol.withEqual? with
  | some longer =>
    if s.peek coding = some '=' then s.advance.push coding (.symbol longer) none
    else s.push coding (.symbol symbol) none
  | none => s.push coding (.symbol symbol) none

/-- A slash, or with a second one a comment up to the end of the line. -/
def readSlash (s : Scan α) : Option (Scan α) :=
  if s.peek coding = some '/' then some (s.advance.skip coding (· != '\n'))
  else s.push coding (.symbol .slash) none

/-- A string up to the next quote, with the line feeds in it, or what a quote without a second one leaves
of the text. -/
def readString (s : Scan α) : Option (Scan α) :=
  let s := s.skipLines coding (· != '"')
  if s.input.length ≤ s.current then some (s.report .openString)
  else
    let s := s.advance
    (coding.slice s.input (s.start + 1) (s.current - 1)).bind fun content =>
      s.push coding .string (some (.string content))

/-- A number: a point belongs to it if a digit follows. -/
def readNumber (s : Scan α) : Option (Scan α) :=
  let s := s.skip coding Char.isDigit
  let s := if s.peek coding = some '.' ∧ (s.peekNext coding).any Char.isDigit
    then s.advance.skip coding Char.isDigit else s
  (s.lexeme coding).bind fun lexeme =>
    let number := ((Decimal.ofText? lexeme.toList).map Number.ofDecimal).getD 0
    s.push coding .number (some (.number number))

/-- A word. -/
def readWord (s : Scan α) : Option (Scan α) :=
  let s := s.skip coding Piece.isWordChar
  (s.lexeme coding).bind fun lexeme => s.push coding (.ofWord lexeme) none

variable (replacement : Char)

/-- A character that starts no token. It is taken from the text behind it, and would be a replacement if
there were none; all of its units are gone over. -/
def readStray (s : Scan α) : Option (Scan α) :=
  (coding.slice s.input s.start s.input.length).map fun rest =>
    let c := rest.toList.head?.getD replacement
    { s with current := s.start + (coding.encode c).length }.report (.strayCharacter c)

/-- The piece of which the first unit is taken for `c`. -/
def read (c : Char) (s : Scan α) : Option (Scan α) :=
  if c = '\n' then some { s with line := s.line + 1 }
  else if c.isWhitespace then some s
  else if c.isDigit then s.readNumber coding
  else if Piece.isLetter c then s.readWord coding
  else if c = '"' then s.readString coding
  else if c = '/' then s.readSlash coding
  else match Symbol.ofChar? c with
    | some symbol => s.readSymbol coding symbol
    | none => s.readStray coding replacement

/-! ## Steps -/

/-- **One step of a scan**: the piece that begins at the next unit. -/
def step (s : Scan α) : Option (Scan α) :=
  s.input[s.current]?.bind fun unit =>
    { s with start := s.current, current := s.current + 1 }.read coding replacement
      (coding.glyph unit)

/-- What a scan does behind the first unit of a piece: the text and the beginning of the piece stay, and the
cursor does not go back. -/
structure Follows (s t : Scan α) : Prop where
  /-- The text stays. -/
  input : t.input = s.input
  /-- The beginning of the piece stays. -/
  start : t.start = s.start
  /-- The cursor does not go back. -/
  current : s.current ≤ t.current

variable {coding replacement}

/-- To go on twice is to go on. -/
theorem Follows.trans {s t u : Scan α} (first : s.Follows t) (second : t.Follows u) : s.Follows u :=
  ⟨second.input.trans first.input, second.start.trans first.start,
    Nat.le_trans first.current second.current⟩

/-- To go over units of a class is to go on. -/
theorem skip_follows (p : Char → Bool) (s : Scan α) : s.Follows (s.skip coding p) :=
  ⟨rfl, rfl, Nat.le_add_right _ _⟩

/-- To go over units of a class and to count lines is to go on. -/
theorem skipLines_follows (p : Char → Bool) (s : Scan α) : s.Follows (s.skipLines coding p) :=
  ⟨rfl, rfl, Nat.le_add_right _ _⟩

/-- To go over one unit is to go on. -/
theorem advance_follows (s : Scan α) : s.Follows s.advance :=
  ⟨rfl, rfl, Nat.le_add_right _ _⟩

/-- A fault is added where the cursor is. -/
theorem report_follows (cause : LexCause) (s : Scan α) : s.Follows (s.report cause) :=
  ⟨rfl, rfl, Nat.le_refl _⟩

/-- A token is added where the cursor is. -/
theorem push_follows {kind : Kind} {literal : Option Literal} {s t : Scan α}
    (h : s.push coding kind literal = some t) : s.Follows t := by
  obtain ⟨lexeme, -, rfl⟩ := Option.map_eq_some_iff.mp h
  exact ⟨rfl, rfl, Nat.le_refl _⟩

/-- To read a symbol is to go on. -/
theorem readSymbol_follows {symbol : Symbol} {s t : Scan α}
    (h : s.readSymbol coding symbol = some t) : s.Follows t := by
  unfold readSymbol at h
  split at h
  · split at h
    · exact s.advance_follows.trans (push_follows h)
    · exact push_follows h
  · exact push_follows h

/-- To read a slash or a comment is to go on. -/
theorem readSlash_follows {s t : Scan α} (h : s.readSlash coding = some t) : s.Follows t := by
  unfold readSlash at h
  split at h
  · obtain rfl := Option.some.inj h
    exact s.advance_follows.trans (skip_follows _ _)
  · exact push_follows h

/-- To read a string is to go on. -/
theorem readString_follows {s t : Scan α} (h : s.readString coding = some t) : s.Follows t := by
  unfold readString at h
  dsimp only at h
  split at h
  · obtain rfl := Option.some.inj h
    exact (skipLines_follows _ s).trans (report_follows _ _)
  · obtain ⟨content, -, hpush⟩ := Option.bind_eq_some_iff.mp h
    exact (skipLines_follows _ s).trans ((advance_follows _).trans (push_follows hpush))

/-- To read a number is to go on. -/
theorem readNumber_follows {s t : Scan α} (h : s.readNumber coding = some t) : s.Follows t := by
  unfold readNumber at h
  dsimp only at h
  obtain ⟨lexeme, -, hpush⟩ := Option.bind_eq_some_iff.mp h
  refine Follows.trans ?_ (push_follows hpush)
  split
  · exact (skip_follows _ s).trans ((advance_follows _).trans (skip_follows _ _))
  · exact skip_follows _ s

/-- To read a word is to go on. -/
theorem readWord_follows {s t : Scan α} (h : s.readWord coding = some t) : s.Follows t := by
  obtain ⟨lexeme, -, hpush⟩ := Option.bind_eq_some_iff.mp h
  exact (skip_follows _ s).trans (push_follows hpush)

/-- To read a character that starts nothing is to go on, from behind its first unit. -/
theorem readStray_follows {s t : Scan α} (hs : s.current = s.start + 1)
    (h : s.readStray coding replacement = some t) : s.Follows t := by
  obtain ⟨rest, -, rfl⟩ := Option.map_eq_some_iff.mp h
  refine ⟨rfl, rfl, ?_⟩
  rw [hs]
  exact Nat.add_le_add_left (List.length_pos_iff.mpr (coding.encode_ne_nil _)) _

/-- To read a piece is to go on. -/
theorem read_follows {c : Char} {s t : Scan α} (hs : s.current = s.start + 1)
    (h : s.read coding replacement c = some t) : s.Follows t := by
  unfold read at h
  split at h
  · obtain rfl := Option.some.inj h
    exact ⟨rfl, rfl, Nat.le_refl _⟩
  split at h
  · obtain rfl := Option.some.inj h
    exact ⟨rfl, rfl, Nat.le_refl _⟩
  split at h
  · exact readNumber_follows h
  split at h
  · exact readWord_follows h
  split at h
  · exact readString_follows h
  split at h
  · exact readSlash_follows h
  split at h
  · exact readSymbol_follows h
  · exact readStray_follows hs h

/-- **Each step leaves fewer units**: the next piece begins where the cursor was, and the cursor is behind
that position after the step. -/
theorem step_advances {s t : Scan α} (h : s.step coding replacement = some t) :
    t.input = s.input ∧ t.start = s.current ∧ s.current < t.current := by
  obtain ⟨unit, -, hread⟩ := Option.bind_eq_some_iff.mp h
  have follows := read_follows rfl hread
  exact ⟨follows.input, follows.start, follows.current⟩

variable (coding replacement)

/-- **All steps up to the end of the text.** -/
def finish (s : Scan α) : Option (Scan α) :=
  if s.current < s.input.length then
    match _h : s.step coding replacement with
    | some t => t.finish
    | none => none
  else some s
termination_by s.input.length - s.current
decreasing_by
  obtain ⟨hinput, -, hcurrent⟩ := step_advances _h
  rw [hinput]
  omega

end Scan

/-- The tokens of a source text, and what is wrong with its characters, by a scan of the text in units. -/
def scan {α : Type} (coding : Coding α) (replacement : Char) (source : String) : Option Lexed :=
  ((Scan.ofText coding source.toList).finish coding replacement).map fun s =>
    ⟨s.tokens ++ [.endOfInput s.line], s.faults⟩

end Lox

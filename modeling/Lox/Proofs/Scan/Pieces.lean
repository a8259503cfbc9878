import Lox.Proofs.Coding
import Lox.Proofs.Expr.Lines
import Lox.Scan

set_option autoImplicit false

/-!
# Pieces that are read unit by unit

A scan over the units of a text may stand inside a character while it goes over a piece. It asks its units
only for characters up to 127, which are units by themselves, and for classes that make no difference among
the others. So it goes over the same characters that are cut off as a piece, and takes out of the text what
lies between two characters.

## Main definitions

* `Lox.Scan.Spans` — the piece that a scan has gone over, and what stands in front of it and behind it.
* `Lox.Scan.Passes`, `Lox.Scan.Takes` — what a scan looks like when it has gone over a piece, and when it has
  read it.

## Main results

* `Lox.Scan.Takes.unique` — what a scan looks like behind a piece is determined.
* `Lox.Scan.exists_read` — what begins with a character up to 127 is read as it is cut off.
* `Lox.Scan.exists_readStray` — a character that starts nothing is read as it is cut off.
-/

namespace Lox

/-! ## Characters up to 127 -/

namespace Piece

/-- White space is among the characters up to 127. -/
theorem lt_of_isWhitespace {c : Char} (h : c.isWhitespace = true) : c.toNat < 128 := by
  have hmem : c ∈ [' ', '\t', '\r', '\n'] := by simpa [Char.isWhitespace, or_assoc] using h
  simp only [List.mem_cons, List.not_mem_nil, or_false] at hmem
  rcases hmem with rfl | rfl | rfl | rfl <;> decide

/-- Digits are among the characters up to 127. -/
theorem lt_of_isDigit {c : Char} (h : c.isDigit = true) : c.toNat < 128 := by
  simp only [Char.isDigit, Bool.and_eq_true, decide_eq_true_eq, UInt32.le_iff_toNat_le] at h
  exact Nat.lt_of_le_of_lt h.2 (by decide)

/-- Letters are among the characters up to 127. -/
theorem lt_of_isLetter {c : Char} (h : isLetter c = true) : c.toNat < 128 := by
  simp only [isLetter, Char.isAlpha, Char.isUpper, Char.isLower, Bool.or_eq_true, Bool.and_eq_true,
    decide_eq_true_eq, beq_iff_eq, UInt32.le_iff_toNat_le] at h
  obtain (h | h) | rfl := h
  · exact Nat.lt_of_le_of_lt h.2 (by decide)
  · exact Nat.lt_of_le_of_lt h.2 (by decide)
  · decide

/-- The characters of words are among the characters up to 127. -/
theorem lt_of_isWordChar {c : Char} (h : isWordChar c = true) : c.toNat < 128 :=
  (Bool.or_eq_true _ _ ▸ h).elim lt_of_isLetter lt_of_isDigit

/-- The characters of symbols are among the characters up to 127. -/
theorem lt_of_ofChar? {c : Char} {symbol : Symbol} (h : Symbol.ofChar? c = some symbol) :
    c.toNat < 128 := by
  unfold Symbol.ofChar? at h
  split at h <;> cases h <;> decide

/-- The other characters start nothing. -/
theorem wellFormed_stray_of_le {c : Char} (h : 128 ≤ c.toNat) : (stray c).WellFormed := by
  have hlow : ¬c.toNat < 128 := Nat.not_lt.mpr h
  refine ⟨mt lt_of_isWhitespace hlow, mt lt_of_isDigit hlow, mt lt_of_isLetter hlow, ?_, ?_⟩
  · rintro rfl
    exact hlow (by decide)
  · exact Option.eq_none_iff_forall_not_mem.mpr fun symbol hsymbol => hlow (lt_of_ofChar? hsymbol)

end Piece

/-- The text of a number reads as its digits. -/
theorem Decimal.ofText?_text {whole fraction : List Char}
    (wellFormed : (Piece.number whole fraction).WellFormed) :
    ofText? (Piece.number whole fraction).text = some (ofDigits whole fraction) := by
  obtain ⟨hne, hwhole, hfraction⟩ := wellFormed
  have hempty : whole.isEmpty = false := by simpa using hne
  cases fraction with
  | nil =>
    show ofText? (whole ++ []) = _
    have hstops : Piece.Stops Char.isDigit [] := by
      intro c hc
      cases hc
    rw [ofText?, Piece.takeWhile_append_of_stops hwhole hstops,
      Piece.dropWhile_append_of_stops hwhole hstops, if_neg (Bool.eq_false_iff.mp hempty)]
  | cons d ds =>
    show ofText? (whole ++ '.' :: d :: ds) = _
    have hstops : Piece.Stops Char.isDigit ('.' :: d :: ds) := by
      intro c hc
      cases hc
      rfl
    have hall : (d :: ds).all Char.isDigit = true := List.all_eq_true.mpr hfraction
    rw [ofText?, Piece.takeWhile_append_of_stops hwhole hstops,
      Piece.dropWhile_append_of_stops hwhole hstops, if_neg (Bool.eq_false_iff.mp hempty)]
    exact if_pos hall

namespace Scan

variable {α : Type} {coding : Coding α}

/-! ## Where a scan stands -/

/-- **Where a scan stands** in a text: the piece begins behind `front`, the scan has gone over `text`, and
`rest` is left. -/
structure Spans (coding : Coding α) (front text rest : List Char) (s : Scan α) : Prop where
  /-- The text in units. -/
  input : s.input = coding.units (front ++ (text ++ rest))
  /-- The piece begins behind what stands in front of it. -/
  start : s.start = coding.size front
  /-- The cursor is behind what the scan has gone over. -/
  current : s.current = coding.size front + coding.size text

/-- A scan begins in front of its text. -/
theorem spans_ofText (cs : List Char) : Spans coding [] [] cs (ofText coding cs) :=
  ⟨rfl, rfl, rfl⟩

namespace Spans

variable {front text rest : List Char} {s : Scan α}

/-- The next units are those of what is left. -/
theorem drop (spans : Spans coding front text rest s) :
    s.input.drop s.current = coding.units rest := by
  rw [spans.input, spans.current, ← Coding.size_append, ← List.append_assoc, Coding.units_append]
  exact List.drop_left

/-- What is seen of the next unit. -/
theorem peek_eq (spans : Spans coding front text rest s) :
    s.peek coding = (coding.glyphs rest).head? := by
  rw [peek, ← List.head?_drop, spans.drop, ← List.head?_map, Coding.glyphs]

/-- The cursor is at the end of the text if and only if nothing is left. -/
theorem length_le_iff (spans : Spans coding front text rest s) :
    s.input.length ≤ s.current ↔ rest = [] := by
  have hlength := congrArg List.length spans.drop
  rw [List.length_drop] at hlength
  constructor
  · intro hle
    cases rest with
    | nil => rfl
    | cons c cs =>
      have hpos : 0 < (coding.units (c :: cs)).length := Coding.size_cons_pos c cs
      omega
  · rintro rfl
    have hnil : (coding.units []).length = 0 := rfl
    omega

/-- The scan takes out of the text what it has gone over. -/
theorem lexeme (faithful : coding.Faithful) (spans : Spans coding front text rest s) :
    s.lexeme coding = some (String.ofList text) := by
  rw [Scan.lexeme, spans.input, spans.start, spans.current, faithful.slice_units]

variable (faithful : coding.Faithful)

include faithful

/-- A character up to 127 is seen next if and only if it is. -/
theorem peek_eq_some_iff (spans : Spans coding front text rest s) {c : Char} (hc : c.toNat < 128) :
    s.peek coding = some c ↔ rest.head? = some c := by
  rw [spans.peek_eq, faithful.head?_glyphs_eq_some_iff hc]

/-- What a class takes of the next units is what it takes of what is left. -/
theorem ahead_eq (spans : Spans coding front text rest s) {p : Char → Bool}
    (uniform : Coding.Uniform p) : s.ahead coding p = coding.glyphs (rest.takeWhile p) := by
  rw [ahead, spans.drop, ← faithful.takeWhile_glyphs uniform, Coding.glyphs]

/-- To go over the units of a class is to go over its characters. -/
theorem skip (spans : Spans coding front text rest s) {p : Char → Bool}
    (uniform : Coding.Uniform p) :
    Spans coding front (text ++ rest.takeWhile p) (rest.dropWhile p) (s.skip coding p) where
  input := by
    rw [List.append_assoc, List.takeWhile_append_dropWhile]
    exact spans.input
  start := spans.start
  current := by
    rw [Scan.skip, spans.ahead_eq faithful uniform, Coding.length_glyphs, spans.current,
      Coding.size_append, Nat.add_assoc]

/-- To go over the units of a class and to count lines is to go over its characters. -/
theorem skipLines (spans : Spans coding front text rest s) {p : Char → Bool}
    (uniform : Coding.Uniform p) :
    Spans coding front (text ++ rest.takeWhile p) (rest.dropWhile p) (s.skipLines coding p) :=
  have hskip := spans.skip faithful uniform
  ⟨hskip.input, hskip.start, hskip.current⟩

/-- The line feeds that are counted are those of the characters. -/
theorem line_skipLines (spans : Spans coding front text rest s) {p : Char → Bool}
    (uniform : Coding.Uniform p) :
    (s.skipLines coding p).line = s.line + (rest.takeWhile p).count '\n' := by
  rw [Scan.skipLines, spans.ahead_eq faithful uniform, faithful.count_glyphs]

/-- The scan takes out of the text what it has gone over between two quotes. -/
theorem slice_content {content : List Char}
    (spans : Spans coding front (['"'] ++ content ++ ['"']) rest s) :
    coding.slice s.input (s.start + 1) (s.current - 1) = some (String.ofList content) := by
  have hquote : coding.size ['"'] = 1 := faithful.size_of_ascii (by decide)
  have hinput : s.input = coding.units ((front ++ ['"']) ++ (content ++ '"' :: rest)) := by
    rw [spans.input]
    simp
  have hfirst : s.start + 1 = coding.size (front ++ ['"']) := by
    rw [spans.start, Coding.size_append, hquote]
  have hlast : s.current - 1 = coding.size (front ++ ['"']) + coding.size content := by
    rw [spans.current, Coding.size_append, Coding.size_append, Coding.size_append, hquote]
    omega
  rw [hinput, hfirst, hlast, faithful.slice_units]

/-- To go over a unit is to go over a character up to 127. -/
theorem advance {c : Char} (spans : Spans coding front text (c :: rest) s) (hc : c.toNat < 128) :
    Spans coding front (text ++ [c]) rest s.advance where
  input := by
    rw [List.append_assoc]
    exact spans.input
  start := spans.start
  current := by
    rw [Scan.advance, spans.current, Coding.size_append, faithful.size_of_ascii hc, Nat.add_assoc]

end Spans

/-! ## What a scan looks like behind a piece -/

/-- **What a scan looks like when it has gone over a piece** behind `front` and has not added anything: it
stands behind the piece, on the line on which the piece ends. -/
structure Passes (coding : Coding α) (s : Scan α) (front : List Char) (p : Piece) (rest : List Char)
    (t : Scan α) : Prop where
  /-- The scan stands behind the piece. -/
  spans : Spans coding front p.text rest t
  /-- The line feeds of the piece are counted. -/
  line : t.line = s.line + p.newlines
  /-- The tokens stay. -/
  tokens : t.tokens = s.tokens
  /-- The faults stay. -/
  faults : t.faults = s.faults

/-- **What a scan looks like when it has read a piece**: it has gone over the piece and has added the token
and the fault of the piece. -/
structure Takes (coding : Coding α) (s : Scan α) (front : List Char) (p : Piece) (rest : List Char)
    (t : Scan α) : Prop where
  /-- The scan stands behind the piece. -/
  spans : Spans coding front p.text rest t
  /-- The line feeds of the piece are counted. -/
  line : t.line = s.line + p.newlines
  /-- The token of the piece is added. -/
  tokens : t.tokens = s.tokens ++ (p.token? t.line).toList
  /-- The fault of the piece is added. -/
  faults : t.faults = s.faults ++ (p.fault? t.line).toList

/-- What a scan looks like behind a piece is determined. -/
theorem Takes.unique {s t u : Scan α} {front rest : List Char} {p : Piece}
    (first : Takes coding s front p rest t) (second : Takes coding s front p rest u) : t = u := by
  have hline := first.line.trans second.line.symm
  have hinput := first.spans.input.trans second.spans.input.symm
  have hstart := first.spans.start.trans second.spans.start.symm
  have hcurrent := first.spans.current.trans second.spans.current.symm
  have htokens := first.tokens
  have hfaults := first.faults
  rw [hline, ← second.tokens] at htokens
  rw [hline, ← second.faults] at hfaults
  cases t
  cases u
  simp only at hinput hstart hcurrent hline htokens hfaults
  subst hinput hstart hcurrent hline htokens hfaults
  rfl

namespace Passes

variable {front rest : List Char} {p : Piece} {s u : Scan α}

/-- A scan that has gone over a piece without a token and without a fault has read it. -/
theorem takes (passes : Passes coding s front p rest u) (hkind : p.kind? = none)
    (hcause : p.cause? = none) : Takes coding s front p rest u where
  spans := passes.spans
  line := passes.line
  tokens := by
    rw [Piece.token?, hkind, passes.tokens]
    exact (List.append_nil _).symm
  faults := by
    rw [Piece.fault?, hcause, passes.faults]
    exact (List.append_nil _).symm

/-- A scan that has gone over a piece with a fault and adds the fault has read it. -/
theorem report {cause : LexCause} (passes : Passes coding s front p rest u) (hkind : p.kind? = none)
    (hcause : p.cause? = some cause) : Takes coding s front p rest (u.report cause) where
  spans := ⟨passes.spans.input, passes.spans.start, passes.spans.current⟩
  line := passes.line
  tokens := by
    rw [Piece.token?, hkind, ← passes.tokens]
    exact (List.append_nil _).symm
  faults := by
    rw [Piece.fault?, hcause, ← passes.faults]
    rfl

/-- A scan that has gone over the text of a token and adds the token has read it. -/
theorem push (faithful : coding.Faithful) {kind : Kind} {literal : Option Literal}
    (passes : Passes coding s front p rest u) (hkind : p.kind? = some (kind, literal))
    (hcause : p.cause? = none) :
    ∃ t, u.push coding kind literal = some t ∧ Takes coding s front p rest t := by
  refine ⟨{ u with tokens := u.tokens ++ [⟨kind, String.ofList p.text, literal, u.line⟩] }, ?_, ?_⟩
  · rw [Scan.push, passes.spans.lexeme faithful, Option.map_some]
  · refine ⟨⟨passes.spans.input, passes.spans.start, passes.spans.current⟩, passes.line, ?_, ?_⟩
    · rw [Piece.token?, hkind, ← passes.tokens]
      rfl
    · rw [Piece.fault?, hcause, ← passes.faults]
      exact (List.append_nil _).symm

end Passes

section Readers

variable {front cs : List Char} {s u : Scan α}

/-- A symbol is read as it is cut off. -/
theorem exists_readSymbol (faithful : coding.Faithful) {c : Char} {symbol : Symbol}
    (hsymbol : Symbol.ofChar? c = some symbol) (spans : Spans coding front [c] cs s) :
    ∃ t, s.readSymbol coding symbol = some t ∧
      Takes coding s front (Piece.cutSymbol symbol cs).1 (Piece.cutSymbol symbol cs).2 t := by
  have htext := Piece.text_of_ofChar? hsymbol
  by_cases hequal : symbol.withEqual?.isSome = true ∧ cs.head? = some '='
  · obtain ⟨hsome, hhead⟩ := hequal
    obtain ⟨longer, hlonger⟩ := Option.isSome_iff_exists.mp hsome
    obtain ⟨rest, rfl⟩ := List.head?_eq_some_iff.mp hhead
    have hpeek : s.peek coding = some '=' :=
      (spans.peek_eq_some_iff faithful (by decide)).mpr rfl
    have htwo : (Piece.symbol longer).text = [c] ++ ['='] :=
      (Piece.text_of_withEqual? hlonger).trans (congrArg (· ++ ['=']) htext)
    have hspans := spans.advance faithful (by decide)
    rw [← htwo] at hspans
    have passes : Passes coding s front (.symbol longer) rest s.advance :=
      ⟨hspans, by simp [Scan.advance], rfl, rfl⟩
    simp only [readSymbol, Piece.cutSymbol, hlonger, if_pos hpeek]
    exact passes.push faithful rfl rfl
  · have hends : symbol.withEqual?.isSome → cs.head? ≠ some '=' := fun hsome hhead =>
      hequal ⟨hsome, hhead⟩
    have hread : s.readSymbol coding symbol = s.push coding (.symbol symbol) none := by
      unfold readSymbol
      split
      · next longer hlonger =>
        have hhead := hends (by rw [hlonger]; rfl)
        exact if_neg fun hpeek => hhead ((spans.peek_eq_some_iff faithful (by decide)).mp hpeek)
      · rfl
    have hone : (Piece.symbol symbol).text = [c] := htext
    rw [← hone] at spans
    have passes : Passes coding s front (.symbol symbol) cs s := ⟨spans, by simp, rfl, rfl⟩
    rw [hread, Piece.cutSymbol_of_ends hends]
    exact passes.push faithful rfl rfl

/-- A slash and a comment are read as they are cut off. -/
theorem exists_readSlash (faithful : coding.Faithful) (spans : Spans coding front ['/'] cs s) :
    ∃ t, s.readSlash coding = some t ∧
      Takes coding s front (Piece.cut '/' cs).1 (Piece.cut '/' cs).2 t := by
  have hpeek := spans.peek_eq_some_iff faithful (c := '/') (by decide)
  by_cases hslash : cs.head? = some '/'
  · obtain ⟨rest, rfl⟩ := List.head?_eq_some_iff.mp hslash
    have hspans := (spans.advance faithful (by decide)).skip faithful
      (Coding.uniform_bne (d := '\n') (by decide))
    have hnewlines : (Piece.comment (rest.takeWhile (· != '\n'))).newlines = 0 := by
      refine Piece.newlines_eq_zero ?_
      rintro c hc rfl
      simp only [Piece.text, List.mem_cons] at hc
      obtain hc | hc | hc := hc
      · exact absurd hc (by decide)
      · exact absurd hc (by decide)
      · exact Piece.not_mem_takeWhile_bne '\n' rest hc
    have passes : Passes coding s front (.comment (rest.takeWhile (· != '\n')))
        (rest.dropWhile (· != '\n')) (s.advance.skip coding (· != '\n')) :=
      ⟨hspans, (congrArg (s.line + ·) hnewlines).symm, rfl, rfl⟩
    exact ⟨_, if_pos (hpeek.mpr rfl), passes.takes rfl rfl⟩
  · have hread : s.readSlash coding = s.push coding (.symbol .slash) none :=
      if_neg (mt hpeek.mp hslash)
    have passes : Passes coding s front (.symbol .slash) cs s := ⟨spans, rfl, rfl, rfl⟩
    have hends : Symbol.slash.withEqual?.isSome → cs.head? ≠ some '=' := by
      intro h
      cases h
    rw [hread, Piece.cut_of_ofChar? rfl fun _ => hslash, Piece.cutSymbol_of_ends hends]
    exact passes.push faithful rfl rfl

/-- A string and a quote that is never closed are read as they are cut off. -/
theorem exists_readString (faithful : coding.Faithful) (spans : Spans coding front ['"'] cs s) :
    ∃ t, s.readString coding = some t ∧
      Takes coding s front (Piece.cutString cs).1 (Piece.cutString cs).2 t := by
  have uniform := Coding.uniform_bne (d := '"') (by decide)
  have hspans := spans.skipLines faithful uniform
  have hline := spans.line_skipLines faithful uniform
  have hcontent : cs.takeWhile (· != '"') ++ cs.dropWhile (· != '"') = cs :=
    List.takeWhile_append_dropWhile
  have hhead := List.head?_dropWhile_not (· != '"') cs
  have hend := hspans.length_le_iff
  unfold readString
  dsimp only
  cases hrest : cs.dropWhile (· != '"') with
  | nil =>
    rw [hrest, List.append_nil] at hcontent
    rw [hrest, hcontent] at hspans
    rw [hcontent] at hline
    have hnewlines : (Piece.openString cs).newlines = cs.count '\n' := by
      rw [Piece.newlines, Piece.text, List.count_cons_of_ne (by decide)]
    rw [← hnewlines] at hline
    have passes : Passes coding s front (.openString cs) [] (s.skipLines coding (· != '"')) :=
      ⟨hspans, hline, rfl, rfl⟩
    rw [if_pos (hend.mpr hrest)]
    simp only [Piece.cutString, hrest]
    exact ⟨_, rfl, passes.report rfl rfl⟩
  | cons q rest =>
    obtain rfl : q = '"' := by
      rw [hrest] at hhead
      simpa using hhead
    rw [hrest] at hspans
    have hclosed := hspans.advance faithful (by decide)
    have hopen : ¬(s.skipLines coding (· != '"')).input.length ≤
        (s.skipLines coding (· != '"')).current := by
      rw [hend, hrest]
      exact List.cons_ne_nil _ _
    rw [← Piece.newlines_string] at hline
    have passes : Passes coding s front (.string (cs.takeWhile (· != '"'))) rest
        (s.skipLines coding (· != '"')).advance :=
      ⟨hclosed, hline, rfl, rfl⟩
    rw [if_neg hopen, hclosed.slice_content faithful, Option.bind_some]
    simp only [Piece.cutString, hrest]
    exact passes.push faithful rfl rfl

/-- A word is read as it is cut off. -/
theorem exists_readWord (faithful : coding.Faithful) {c : Char} (hc : Piece.isLetter c = true)
    (spans : Spans coding front [c] cs s) :
    ∃ t, s.readWord coding = some t ∧
      Takes coding s front (.word (c :: cs.takeWhile Piece.isWordChar))
        (cs.dropWhile Piece.isWordChar) t := by
  have hspans : Spans coding front (Piece.word (c :: cs.takeWhile Piece.isWordChar)).text
      (cs.dropWhile Piece.isWordChar) (s.skip coding Piece.isWordChar) :=
    spans.skip faithful (.of_forall_lt fun _ => Piece.lt_of_isWordChar)
  have wellFormed : (Piece.word (c :: cs.takeWhile Piece.isWordChar)).WellFormed :=
    ⟨c, _, rfl, hc, fun _ => List.mem_takeWhile_imp⟩
  have passes : Passes coding s front (.word (c :: cs.takeWhile Piece.isWordChar))
      (cs.dropWhile Piece.isWordChar) (s.skip coding Piece.isWordChar) :=
    ⟨hspans, (congrArg (s.line + ·) wellFormed.newlines_word).symm, rfl, rfl⟩
  rw [readWord, hspans.lexeme faithful, Option.bind_some]
  exact passes.push faithful rfl rfl

/-- A number that a scan has gone over is added. -/
theorem exists_pushNumber (faithful : coding.Faithful) {whole fraction rest : List Char}
    (wellFormed : (Piece.number whole fraction).WellFormed)
    (passes : Passes coding s front (.number whole fraction) rest u) :
    ∃ t, ((u.lexeme coding).bind fun lexeme => u.push coding .number
        (some (.number (((Decimal.ofText? lexeme.toList).map Number.ofDecimal).getD 0)))) = some t ∧
      Takes coding s front (.number whole fraction) rest t := by
  rw [passes.spans.lexeme faithful, Option.bind_some, String.toList_ofList,
    Decimal.ofText?_text wellFormed]
  exact passes.push faithful rfl rfl

/-- A number is read as it is cut off. -/
theorem exists_readNumber (faithful : coding.Faithful) {c : Char} (hc : c.isDigit = true)
    (spans : Spans coding front [c] cs s) :
    ∃ t, s.readNumber coding = some t ∧
      Takes coding s front (Piece.cutNumber c cs).1 (Piece.cutNumber c cs).2 t := by
  have uniform : Coding.Uniform Char.isDigit := .of_forall_lt fun _ => Piece.lt_of_isDigit
  have hwhole := spans.skip faithful uniform
  have wellFormed := Piece.wellFormed_cutNumber hc cs
  have hnext : ∀ rest, cs.dropWhile Char.isDigit = '.' :: rest →
      ((s.skip coding Char.isDigit).peekNext coding).any Char.isDigit = rest.head?.any Char.isDigit := by
    intro rest hrest
    rw [hrest] at hwhole
    have hadvance := (hwhole.advance faithful (by decide)).peek_eq
    rw [← faithful.any_head?_glyphs uniform, ← hadvance]
    rfl
  unfold readNumber
  dsimp only
  split
  · next hpoint =>
    obtain ⟨hdot, hdigit⟩ := hpoint
    rw [hwhole.peek_eq_some_iff faithful (by decide)] at hdot
    obtain ⟨rest, hrest⟩ := List.head?_eq_some_iff.mp hdot
    rw [hnext rest hrest] at hdigit
    obtain ⟨d, hd, hdigit⟩ := (Option.any_eq_true _ _).mp hdigit
    obtain ⟨ds, rfl⟩ := List.head?_eq_some_iff.mp hd
    have hfraction : (d :: ds).takeWhile Char.isDigit = d :: ds.takeWhile Char.isDigit :=
      List.takeWhile_cons_of_pos hdigit
    rw [hrest] at hwhole
    have hspans := (hwhole.advance faithful (by decide)).skip faithful uniform
    rw [hfraction, List.append_assoc _ ['.']] at hspans
    rw [Piece.cutNumber_of_point hrest hfraction] at wellFormed ⊢
    exact exists_pushNumber faithful wellFormed
      ⟨hspans, (congrArg (s.line + ·) wellFormed.newlines_number).symm, rfl, rfl⟩
  · next hpoint =>
    have hends : (cs.dropWhile Char.isDigit).head? = some '.' →
        Piece.Stops Char.isDigit (cs.dropWhile Char.isDigit).tail := by
      intro hdot d hd
      obtain ⟨rest, hrest⟩ := List.head?_eq_some_iff.mp hdot
      rw [hrest] at hd
      have hhead : rest.head? = some d := hd
      refine Bool.eq_false_iff.mpr fun hdigit => hpoint ⟨?_, ?_⟩
      · exact (hwhole.peek_eq_some_iff faithful (by decide)).mpr hdot
      · rw [hnext rest hrest, hhead]
        exact hdigit
    rw [Piece.cutNumber_of_ends rfl hends] at wellFormed ⊢
    rw [← List.append_nil ([c] ++ _)] at hwhole
    exact exists_pushNumber faithful wellFormed
      ⟨hwhole, (congrArg (s.line + ·) wellFormed.newlines_number).symm, rfl, rfl⟩

variable (replacement : Char)

/-- A character that starts nothing is read as it is cut off, and is not replaced. -/
theorem exists_readStray (faithful : coding.Faithful) {c : Char}
    (wellFormed : (Piece.stray c).WellFormed) (hinput : s.input = coding.units (front ++ c :: cs))
    (hstart : s.start = coding.size front) :
    ∃ t, s.readStray coding replacement = some t ∧ Takes coding s front (.stray c) cs t := by
  have hslice : coding.slice s.input s.start s.input.length = some (String.ofList (c :: cs)) := by
    have hlength : s.input.length = coding.size front + coding.size (c :: cs) := by
      rw [hinput, ← Coding.size_append]
      rfl
    have hrest := faithful.slice_units front (c :: cs) []
    rw [List.append_nil] at hrest
    rw [hlength, hinput, hstart, hrest]
  have hnewlines : (Piece.stray c).newlines = 0 := by
    refine Piece.newlines_eq_zero fun d hd => ?_
    obtain rfl : d = c := List.mem_singleton.mp hd
    rintro rfl
    exact wellFormed.1 (by decide)
  have hread : s.readStray coding replacement = some
      ({ s with current := s.start + (coding.encode c).length }.report (.strayCharacter c)) := by
    rw [readStray, hslice, Option.map_some, String.toList_ofList]
    rfl
  have hcurrent : s.start + (coding.encode c).length = coding.size front + coding.size [c] := by
    rw [hstart, Coding.size_singleton]
  have passes : Passes coding s front (.stray c) cs
      { s with current := s.start + (coding.encode c).length } :=
    ⟨⟨hinput, hstart, hcurrent⟩, (congrArg (s.line + ·) hnewlines).symm, rfl, rfl⟩
  exact ⟨_, hread, passes.report rfl rfl⟩

/-- A character that starts nothing is read as such. -/
theorem read_of_stray {g : Char} (wellFormed : (Piece.stray g).WellFormed) (s : Scan α) :
    s.read coding replacement g = s.readStray coding replacement := by
  obtain ⟨hspace, hdigit, hletter, hquote, hsymbol⟩ := wellFormed
  have hfeed : g ≠ '\n' := by
    rintro rfl
    exact hspace (by decide)
  have hslash : g ≠ '/' := by
    rintro rfl
    cases hsymbol
  rw [read, if_neg hfeed, if_neg hspace, if_neg hdigit, if_neg hletter, if_neg hquote, if_neg hslash,
    hsymbol]

/-- White space is read as it is cut off. -/
theorem exists_readBlank {c : Char} (hc : c.isWhitespace = true) (spans : Spans coding front [c] cs s) :
    ∃ t, s.read coding replacement c = some t ∧ Takes coding s front (.blank c) cs t := by
  by_cases hfeed : c = '\n'
  · subst hfeed
    have passes : Passes coding s front (.blank '\n') cs { s with line := s.line + 1 } :=
      ⟨⟨spans.input, spans.start, spans.current⟩, rfl, rfl, rfl⟩
    exact ⟨_, if_pos rfl, passes.takes rfl rfl⟩
  · have hread : s.read coding replacement c = some s := by rw [read, if_neg hfeed, if_pos hc]
    have hnewlines : (Piece.blank c).newlines = 0 := by
      refine Piece.newlines_eq_zero fun d hd => ?_
      obtain rfl : d = c := List.mem_singleton.mp hd
      exact hfeed
    have passes : Passes coding s front (.blank c) cs s :=
      ⟨spans, (congrArg (s.line + ·) hnewlines).symm, rfl, rfl⟩
    exact ⟨s, hread, passes.takes rfl rfl⟩

/-- **What begins with a character up to 127 is read as it is cut off.** -/
theorem exists_read (faithful : coding.Faithful) {c : Char} (spans : Spans coding front [c] cs s) :
    ∃ t, s.read coding replacement c = some t ∧
      Takes coding s front (Piece.cut c cs).1 (Piece.cut c cs).2 t := by
  by_cases hspace : c.isWhitespace = true
  · have hcut : Piece.cut c cs = (.blank c, cs) := if_pos hspace
    rw [hcut]
    exact exists_readBlank replacement hspace spans
  have hfeed : c ≠ '\n' := by
    rintro rfl
    exact hspace (by decide)
  by_cases hdigit : c.isDigit = true
  · have hcut : Piece.cut c cs = Piece.cutNumber c cs := by
      unfold Piece.cut
      rw [if_neg hspace, if_pos hdigit]
    rw [hcut, read, if_neg hfeed, if_neg hspace, if_pos hdigit]
    exact exists_readNumber faithful hdigit spans
  by_cases hletter : Piece.isLetter c = true
  · have hcut : Piece.cut c cs =
        (.word (c :: cs.takeWhile Piece.isWordChar), cs.dropWhile Piece.isWordChar) := by
      unfold Piece.cut
      rw [if_neg hspace, if_neg hdigit, if_pos hletter]
    rw [hcut, read, if_neg hfeed, if_neg hspace, if_neg hdigit, if_pos hletter]
    exact exists_readWord faithful hletter spans
  by_cases hquote : c = '"'
  · subst hquote
    exact exists_readString faithful spans
  by_cases hslash : c = '/'
  · subst hslash
    exact exists_readSlash faithful spans
  rw [read, if_neg hfeed, if_neg hspace, if_neg hdigit, if_neg hletter, if_neg hquote, if_neg hslash]
  cases hsymbol : Symbol.ofChar? c with
  | some symbol =>
    have hne : symbol ≠ .slash := by
      rintro rfl
      exact hslash (List.singleton_inj.mp (Piece.text_of_ofChar? hsymbol)).symm
    rw [Piece.cut_of_ofChar? hsymbol fun h => absurd h hne]
    exact exists_readSymbol faithful hsymbol spans
  | none =>
    have wellFormed : (Piece.stray c).WellFormed := ⟨hspace, hdigit, hletter, hquote, hsymbol⟩
    have hcut : Piece.cut c cs = (.stray c, cs) := Piece.cut_of_ends rfl wellFormed trivial
    rw [hcut]
    exact exists_readStray replacement faithful wellFormed spans.input spans.start

end Readers

end Scan

end Lox

import Lox.Proofs.Lexed
import Lox.Proofs.Scan.Pieces

set_option autoImplicit false

/-!
# Scans stop between characters

Each step of a scan reads the piece that is cut off at the cursor, so that between two steps the cursor
stands between two characters. All pieces end where they end when the text is split by characters. A scan
over bytes, a scan over characters and splitting have therefore the same tokens and faults, and no scan
breaks off.

## Main definitions

* `Lox.Scan.Reaches` — the scans that come up in the course of the scan of a text.
* `Lox.Scan.Between` — scans over bytes that stand between characters.

## Main results

* `Lox.Scan.Spans.exists_step` — a step reads the piece that is cut off at the cursor.
* `Lox.Scan.Spans.exists_finish` — all steps together read the pieces of the text.
* `Lox.scan_eq_lex` — the scan of a text has the tokens and faults of the text.
* `Lox.Scan.cursor_between_characters` — the cursor of a scan over bytes stands between characters.
-/

namespace Lox

namespace Scan

variable {α : Type} {coding : Coding α} {replacement : Char}

/-! ## Steps and runs -/

/-- A step reads what is seen next. -/
theorem step_of_peek {s : Scan α} {g : Char} (h : s.peek coding = some g) :
    s.step coding replacement =
      { s with start := s.current, current := s.current + 1 }.read coding replacement g := by
  obtain ⟨unit, hunit, rfl⟩ := Option.map_eq_some_iff.mp h
  rw [step, hunit, Option.bind_some]

/-- **A step reads the piece that is cut off at the cursor.**

**Proof sketch.** By the first character of the piece. If it is one up to 127, it is a unit that looks like
it. The first unit of any other character looks like a character that starts nothing, and such a character
is cut off. -/
theorem Spans.exists_step (replacement : Char) (faithful : coding.Faithful)
    {front text cs : List Char} {c : Char} {s : Scan α}
    (spans : Spans coding front text (c :: cs) s) :
    ∃ t, s.step coding replacement = some t ∧
      Takes coding s (front ++ text) (Piece.cut c cs).1 (Piece.cut c cs).2 t := by
  have hinput : s.input = coding.units ((front ++ text) ++ c :: cs) := by
    rw [spans.input, List.append_assoc]
  have hcurrent : s.current = coding.size (front ++ text) := by
    rw [spans.current, Coding.size_append]
  have hpeek := spans.peek_eq
  by_cases hc : c.toNat < 128
  · have hbegin : Spans coding (front ++ text) [] (c :: cs) { s with start := s.current } :=
      ⟨hinput, hcurrent, hcurrent⟩
    rw [faithful.glyphs_of_ascii hc] at hpeek
    rw [step_of_peek hpeek]
    obtain ⟨t, hread, takes⟩ := exists_read replacement faithful
      (hbegin.advance faithful hc)
    exact ⟨t, hread, ⟨takes.spans, takes.line, takes.tokens, takes.faults⟩⟩
  · have hother : 128 ≤ c.toNat := Nat.le_of_not_lt hc
    have wellFormed := Piece.wellFormed_stray_of_le hother
    have hcut : Piece.cut c cs = (.stray c, cs) := Piece.cut_of_ends rfl wellFormed trivial
    obtain ⟨g, gs, hgs, hlarge⟩ := faithful.exists_glyphs_of_other hother
    rw [Coding.glyphs_cons, hgs] at hpeek
    rw [step_of_peek hpeek, hcut,
      read_of_stray replacement (Piece.wellFormed_stray_of_le (hlarge g (.head _)))]
    obtain ⟨t, hread, takes⟩ := exists_readStray replacement
      (s := { s with start := s.current, current := s.current + 1 }) faithful wellFormed hinput hcurrent
    exact ⟨t, hread, ⟨takes.spans, takes.line, takes.tokens, takes.faults⟩⟩

/-- There is no step without a further unit. -/
theorem lt_of_step {s t : Scan α} (h : s.step coding replacement = some t) :
    s.current < s.input.length := by
  obtain ⟨unit, hunit, -⟩ := Option.bind_eq_some_iff.mp h
  exact (List.getElem?_eq_some_iff.mp hunit).1

/-- The steps of a scan are one step and the steps of the scan behind it. -/
theorem finish_of_step {s t : Scan α} (h : s.step coding replacement = some t) :
    s.finish coding replacement = t.finish coding replacement := by
  rw [finish, if_pos (lt_of_step h)]
  split
  · next u hu =>
    rw [h] at hu
    cases hu
    rfl
  · next hnone =>
    rw [h] at hnone
    cases hnone

/-- **All steps together read the pieces of the text**, from any place that lies between two pieces.

**Proof sketch.** Induction on the pieces of what is left. The first step reads the first of them, and the
other steps read the others, from the line on which the first one ends. -/
theorem Spans.exists_finish (replacement : Char) (faithful : coding.Faithful)
    {front text rest : List Char} {s : Scan α} (spans : Spans coding front text rest s) :
    ∃ t, s.finish coding replacement = some t ∧
      t.line = s.line + Piece.lines (Piece.split rest) ∧
      t.tokens = s.tokens ++ Piece.tokens s.line (Piece.split rest) ∧
      t.faults = s.faults ++ (Lexed.ofPieces s.line (Piece.split rest)).faults := by
  fun_induction Piece.split rest generalizing front text s with
  | case1 =>
    have hend := Nat.not_lt.mpr (spans.length_le_iff.mpr rfl)
    exact ⟨s, by rw [finish, if_neg hend], rfl, (List.append_nil _).symm, (List.append_nil _).symm⟩
  | case2 c cs ih =>
    obtain ⟨t, hstep, takes⟩ := spans.exists_step replacement faithful
    obtain ⟨u, hfinish, hline, htokens, hfaults⟩ := ih takes.spans
    refine ⟨u, (finish_of_step hstep).trans hfinish, ?_, ?_, ?_⟩
    · rw [hline, takes.line, Piece.lines_cons, Nat.add_assoc]
    · rw [htokens, takes.tokens, takes.line, Piece.tokens, List.append_assoc]
    · rw [hfaults, takes.faults, takes.line, Lexed.ofPieces, List.append_assoc]

end Scan

/-- **The scan of a text has the tokens and faults of the text**, whatever its units are. -/
theorem scan_eq_lex {α : Type} {coding : Coding α} (faithful : coding.Faithful) (replacement : Char)
    (source : String) : scan coding replacement source = some (lex source) := by
  obtain ⟨t, hfinish, hline, htokens, hfaults⟩ :=
    (Scan.spans_ofText source.toList).exists_finish replacement faithful
  have hlex : (lex source).tokens = t.tokens ++ [.endOfInput t.line] := by
    rw [lex, Lexed.tokens_ofPieces, htokens, hline]
    rfl
  rw [scan, hfinish, Option.map_some, ← hlex, hfaults]
  rfl

namespace Scan

/-! ## Scans over bytes -/

section Reaches

variable {α : Type} (coding : Coding α) (replacement : Char) (cs : List Char)

/-- **The scans that come up** in the course of the scan of a text, each at the beginning of a round. -/
inductive Reaches : Scan α → Prop
  /-- The scan in front of the text. -/
  | begin : Reaches (ofText coding cs)
  /-- A scan behind a step. -/
  | step {s t : Scan α} (before : Reaches s) (step : s.step coding replacement = some t) : Reaches t

variable {coding replacement cs}

/-- A scan that comes up stands behind a piece of the text. -/
theorem Reaches.exists_spans (faithful : coding.Faithful) {s : Scan α}
    (reaches : Reaches coding replacement cs s) :
    ∃ front text rest, front ++ (text ++ rest) = cs ∧ Spans coding front text rest s := by
  induction reaches with
  | begin => exact ⟨[], [], cs, rfl, spans_ofText cs⟩
  | @step s t before step ih =>
    obtain ⟨front, text, rest, happend, spans⟩ := ih
    cases rest with
    | nil => exact absurd (lt_of_step step) (Nat.not_lt.mpr (spans.length_le_iff.mpr rfl))
    | cons c rest =>
      obtain ⟨u, hstep, takes⟩ := spans.exists_step replacement faithful
      obtain rfl : t = u := Option.some.inj (step.symm.trans hstep)
      refine ⟨front ++ text, _, _, ?_, takes.spans⟩
      rw [Piece.text_cut, List.append_assoc, happend]

end Reaches

/-- **A scan over bytes that stands between characters** of its text, like the beginning of its piece. -/
structure Between (source : String) (s : Scan UInt8) : Prop where
  /-- The units are the bytes of the text. -/
  input : s.input.toByteArray = source.toByteArray
  /-- The piece does not begin behind the cursor. -/
  order : s.start ≤ s.current
  /-- The cursor is not behind the end of the text. -/
  bound : s.current ≤ source.utf8ByteSize
  /-- The piece begins between characters. -/
  start : String.Pos.Raw.IsValid source ⟨s.start⟩
  /-- The cursor stands between characters. -/
  current : String.Pos.Raw.IsValid source ⟨s.current⟩

/-- A scan over bytes stands between characters behind any piece. -/
theorem Spans.between {source : String} {front text rest : List Char} {s : Scan UInt8}
    (spans : Spans .utf8 front text rest s) (happend : front ++ (text ++ rest) = source.toList) :
    s.Between source := by
  have hstart := Coding.faithful_utf8.isBoundary_size front (text ++ rest)
  have hcurrent := Coding.faithful_utf8.isBoundary_size (front ++ text) rest
  rw [List.append_assoc, Coding.size_append, ← spans.current] at hcurrent
  rw [← spans.start] at hstart
  rw [happend] at hstart hcurrent
  have hsize : source.utf8ByteSize = s.current + Coding.utf8.size rest := by
    have hsource := Coding.size_utf8 source.toList
    rw [String.ofList_toList] at hsource
    rw [← hsource, ← happend, Coding.size_append, Coding.size_append, spans.current, Nat.add_assoc]
  refine ⟨?_, ?_, ?_, Coding.isBoundary_utf8_iff.mp hstart, Coding.isBoundary_utf8_iff.mp hcurrent⟩
  · rw [spans.input, happend, Coding.toByteArray_units, String.ofList_toList]
  · rw [spans.start, spans.current]
    exact Nat.le_add_right _ _
  · rw [hsize]
    exact Nat.le_add_right _ _

/-- **The cursor of a scan over bytes stands between characters.** In each round the scan stands between
characters, and so does the beginning of its piece. Unless it is at the end of the text, there is a further
step, which goes from the cursor on to a position behind it, whatever character is put in for a missing one.
Nothing can be taken out of the text but by two ends that lie between characters and are in order; a scan
that took anything else would have no result. It has one, which is the one of a scan over characters.

**Proof sketch.** Each step reads the piece that is cut off at the cursor, so that a scan that comes up
stands behind a piece. If text is left, the next piece is read from it. Behind the first unit of a piece
the scan may stand inside a character, but it takes nothing out of the text there. -/
theorem cursor_between_characters (replacement : Char) (source : String) :
    (∀ s : Scan UInt8, Reaches .utf8 replacement source.toList s →
      s.Between source ∧
      (∀ first last, (Coding.utf8.slice s.input first last).isSome = true ↔
        first ≤ last ∧ String.Pos.Raw.IsValid source ⟨first⟩ ∧ String.Pos.Raw.IsValid source ⟨last⟩) ∧
      (s.current < source.utf8ByteSize → ∃ t, (∀ other, s.step .utf8 other = some t) ∧
        t.start = s.current ∧ t.start < t.current)) ∧
    scan .utf8 replacement source = some (lex source) ∧
    scan .characters replacement source = some (lex source) := by
  have faithful := Coding.faithful_utf8
  refine ⟨fun s reaches => ?_, scan_eq_lex faithful replacement source,
    scan_eq_lex Coding.faithful_characters replacement source⟩
  obtain ⟨front, text, rest, happend, spans⟩ := reaches.exists_spans faithful
  have between := spans.between happend
  refine ⟨between, ?_, fun hlt => ?_⟩
  · intro first last
    rw [spans.input, happend, Coding.isSome_slice_utf8_iff]
  · have hlength : s.input.length = source.utf8ByteSize := by
      rw [← List.size_toByteArray, between.input, String.size_toByteArray]
    cases rest with
    | nil =>
      have hend := spans.length_le_iff.mpr rfl
      omega
    | cons c cs =>
      obtain ⟨t, hstep, takes⟩ := spans.exists_step replacement faithful
      obtain ⟨-, hstart, hcurrent⟩ := step_advances hstep
      refine ⟨t, fun other => ?_, hstart, hstart ▸ hcurrent⟩
      obtain ⟨u, hother, alike⟩ := spans.exists_step other faithful
      rw [hother, takes.unique alike]

end Scan

end Lox

import Lox.Proofs.Expr.Failure
import Lox.Proofs.Lexed.Lines
import Lox.Proofs.Source.Stages

set_option autoImplicit false

/-!
# Lines of source texts

All lines that are ever reported of a source text are lines of the text. The tokens and the faults of the
characters have the lines on which they stand, and every later fault has the line of a token, since a
parser blames a token and an evaluation blames an operator that was read from one.

## Main definitions

* `Lox.Fault.Within` — a fault whose line is one of a source text.

## Main results

* `Lox.token_mem_of_parse_eq_error` — the token that a parser blames is one of the list.
* `Lox.within_of_mem_staticFaults`, `Lox.within_of_mem_runtimeFaults` — the lines of all faults of a
  source text.
* `Lox.Log.lines_exact` — the lines of tokens and faults, at every stage.
-/

namespace Lox

/-! ## Tokens -/

/-- A source text ends on the line on which its pieces do. -/
theorem lineAfter_eq (source : String) :
    lineAfter source.toList = 1 + Piece.lines (Piece.split source.toList) := by
  rw [Piece.lines_eq_count, Piece.flatMap_text_split, lineAfter]

/-- The tokens of a source text are those of its pieces, and the end of the input on the last line. -/
theorem tokens_lex (source : String) :
    (lex source).tokens =
      Piece.tokens 1 (Piece.split source.toList) ++ [.endOfInput (lineAfter source.toList)] := by
  rw [lex, Lexed.tokens_ofPieces, lineAfter_eq]

/-- The tokens of a source text are on its lines. -/
theorem line_of_mem_tokens_lex {source : String} {t : Token} (h : t ∈ (lex source).tokens) :
    1 ≤ t.line ∧ t.line ≤ lineAfter source.toList := by
  rw [tokens_lex, List.mem_append, List.mem_singleton] at h
  obtain h | rfl := h
  · rw [Piece.tokens_eq_collect] at h
    rw [lineAfter_eq]
    exact Piece.line_of_mem_collect Piece.line_of_token? h
  · exact ⟨Nat.le_add_right 1 _, Nat.le_refl _⟩

/-- **The lines of the tokens of a source text never decrease.** -/
theorem pairwise_line_tokens_lex (source : String) :
    (lex source).tokens.Pairwise (·.line ≤ ·.line) := by
  have hwords : (Piece.tokens 1 (Piece.split source.toList)).Pairwise (·.line ≤ ·.line) := by
    rw [Piece.tokens_eq_collect]
    exact Piece.pairwise_collect Piece.line_of_token? 1 _
  rw [tokens_lex]
  refine List.pairwise_append.mpr ⟨hwords, List.pairwise_singleton _ _, fun t ht stop hstop => ?_⟩
  rw [List.mem_singleton.mp hstop]
  refine (line_of_mem_tokens_lex ?_).2
  rw [tokens_lex]
  exact List.mem_append_left _ ht

/-! ## Faults -/

/-- **A fault is within a source text** if its line is one of the text and, unless it is a fault of the
characters, the line of one of the tokens. -/
structure Fault.Within (source : String) (f : Fault) : Prop where
  /-- The line is not before the first one. -/
  first : 1 ≤ f.line
  /-- The line is not behind the last one. -/
  last : f.line ≤ lineAfter source.toList
  /-- The line is that of a token. -/
  token : (∃ fault, f = .lex fault) ∨ ∃ t ∈ (Lox.lex source).tokens, f.line = t.line

/-- A fault on the line of a token is within the source text. -/
theorem Fault.within_of_token {source : String} {f : Fault} {t : Token}
    (ht : t ∈ (Lox.lex source).tokens) (line : f.line = t.line) : f.Within source where
  first := by rw [line]; exact (line_of_mem_tokens_lex ht).1
  last := by rw [line]; exact (line_of_mem_tokens_lex ht).2
  token := .inr ⟨t, ht, line⟩

/-- Tokens that hold an end of input need none to be supplied. -/
theorem Token.terminated_eq_self {tokens : List Token} {t : Token} (ht : t ∈ tokens)
    (kind : t.kind = .endOfInput) : terminated tokens = tokens := by
  have hany : tokens.any (·.kind == .endOfInput) = true :=
    List.any_eq_true.mpr ⟨t, ht, beq_iff_eq.mpr kind⟩
  rw [terminated, if_pos hany]

/-- **The token that a parser blames** is one of the list, if the list holds an end of input. -/
theorem token_mem_of_parse_eq_error {tokens : List Token} {fault : ParseFault}
    (h : parse tokens = .error fault) {t : Token} (ht : t ∈ tokens) (kind : t.kind = .endOfInput) :
    fault.token ∈ tokens := by
  have hfailed := Automaton.run_terminated_eq_failed_iff.mpr h
  obtain ⟨before, after, s, hsplit, -⟩ := Automaton.exists_of_run_eq_failed hfailed
  rw [Token.terminated_eq_self ht kind] at hsplit
  rw [hsplit]
  exact List.mem_append_right _ (.head _)

/-- The static faults of a source text are within the text. -/
theorem within_of_mem_staticFaults {source : String} {f : Fault} (h : f ∈ staticFaults source) :
    f.Within source := by
  obtain h | h := List.mem_append.mp h
  · rw [lexFaults_eq] at h
    obtain ⟨fault, hfault, rfl⟩ := List.mem_map.mp h
    rw [lex, Piece.faults_eq_collect] at hfault
    have hlines := Piece.line_of_mem_collect Piece.line_of_fault? hfault
    rw [← lineAfter_eq] at hlines
    exact ⟨hlines.1, hlines.2, .inl ⟨fault, rfl⟩⟩
  · cases hparse : parse (lex source).tokens with
    | ok e =>
      rw [parseFaults_of_parse_eq_ok hparse] at h
      cases h
    | error fault =>
      rw [parseFaults_of_parse_eq_error hparse] at h
      obtain rfl := List.mem_singleton.mp h
      have hstop : Token.endOfInput (lineAfter source.toList) ∈ (lex source).tokens := by
        rw [tokens_lex]
        exact List.mem_append_right _ (.head _)
      exact Fault.within_of_token (token_mem_of_parse_eq_error hparse hstop rfl) rfl

/-- The fault of the evaluation of a source text is within the text. -/
theorem within_of_mem_runtimeFaults {source : String} {f : Fault} (h : f ∈ runtimeFaults source) :
    f.Within source := by
  obtain ⟨e, reads⟩ | illFormed := reads_or_illFormed source
  · obtain ⟨-, -, -, hnone, -⟩ | ⟨fault, hsource, -, hone, -⟩ := reads.output_or_fault
    · rw [hnone] at h
      cases h
    · rw [hone] at h
      obtain rfl := List.mem_singleton.mp h
      have hparse : parse (lex source).tokens = .ok e := Log.parse_fst_eq_some_iff.mp reads.parse_eq
      have heval : e.eval = .error fault := by
        rw [reads.evalSource_eq] at hsource
        cases heval : e.eval <;> rw [heval] at hsource <;> cases hsource
        rfl
      exact Fault.within_of_token (operator_mem_of_eval_eq_error hparse heval) rfl
  · rw [illFormed.runtimeFaults_eq_nil] at h
    cases h

/-! ## All stages -/

/-- The faults behind a failed reading are static. -/
theorem faults_of_parseSource {source : String} {failure : Failure}
    (h : parseSource source = .error failure) : failure.faults = staticFaults source := by
  obtain ⟨e, reads⟩ | illFormed := reads_or_illFormed source
  · rw [reads.parseSource_eq] at h
    cases h
  · rw [illFormed.parseSource_eq] at h
    cases h
    rfl

/-- The faults behind a failed evaluation are static, or the fault of the evaluation. -/
theorem faults_of_evalSource {source : String} {failure : Failure}
    (h : evalSource source = .error failure) :
    failure.faults = staticFaults source ∨ failure.faults = runtimeFaults source := by
  cases failure with
  | illFormed faults =>
    obtain ⟨e, reads⟩ | illFormed := reads_or_illFormed source
    · rw [reads.evalSource_eq] at h
      cases heval : e.eval <;> rw [heval] at h <;> cases h
    · rw [illFormed.evalSource_eq] at h
      cases h
      exact .inl rfl
  | runtime fault => exact .inr (by rw [runtimeFaults, h]; rfl)

/-- **Lines are exact at every stage.** The source text is made up of one row of pieces. Each token is on
the line that is counted up to the end of its text, with the end of the input on the last line; a
character that starts nothing is on the line that is counted up to it, and a quote that is never closed
on the last line. Lines never decrease along the tokens, nor along the faults of the characters. All
faults of the text, by itself or with a log, are on its lines, and those of the parser and of the
evaluation on the line of one of its tokens. -/
theorem Log.lines_exact (log : Log) (source : String) :
    (∃ ps, Piece.Munches source.toList ps ∧
      (∃ words, (log.lex source).1 = words ++ [.endOfInput (lineAfter source.toList)] ∧
        List.Forall₂ (Place.Makes source.toList) ((Piece.places [] ps).filter (·.piece.isToken))
          words) ∧
      ∃ faults, (log.lex source).2.faults = log.faults ++ faults.map .lex ∧
        List.Forall₂ (Place.Blames source.toList) ((Piece.places [] ps).filter (·.piece.isFaulty))
          faults ∧
        faults.Pairwise (·.line ≤ ·.line)) ∧
    (log.lex source).1.Pairwise (·.line ≤ ·.line) ∧
    (∀ failure, parseSource source = .error failure → ∀ f ∈ failure.faults, f.Within source) ∧
    (∀ failure, Lox.evalSource source = .error failure → ∀ f ∈ failure.faults, f.Within source) ∧
    ∃ added, (log.evalSource source).2.faults = log.faults ++ added ∧ ∀ f ∈ added, f.Within source := by
  have munches := Piece.munches_split source.toList
  refine ⟨⟨_, munches, ⟨_, tokens_lex source, munches.forall₂_makes⟩, _, rfl, munches.forall₂_blames,
    ?_⟩, pairwise_line_tokens_lex source, fun failure h f hf => ?_, fun failure h f hf => ?_, ?_⟩
  · rw [Lox.lex, Piece.faults_eq_collect]
    exact Piece.pairwise_collect Piece.line_of_fault? 1 _
  · rw [faults_of_parseSource h] at hf
    exact within_of_mem_staticFaults hf
  · obtain hstatic | hruntime := faults_of_evalSource h
    · rw [hstatic] at hf
      exact within_of_mem_staticFaults hf
    · rw [hruntime] at hf
      exact within_of_mem_runtimeFaults hf
  · rw [evalSource_eq]
    split
    · exact ⟨_, rfl, fun _ => within_of_mem_staticFaults⟩
    · refine ⟨_, List.append_assoc _ _ _, fun f hf => ?_⟩
      obtain hf | hf := List.mem_append.mp hf
      · exact within_of_mem_staticFaults hf
      · exact within_of_mem_runtimeFaults hf

/-- A string on two lines is on the line of its second quote, and a comment does not hold the line feed
behind it. -/
example :
    (lex "\"a\nb\" // c\n@ d\n").tokens.map Token.line = [2, 3, 4] ∧
      (lex "\"a\nb\" // c\n@ d\n").faults = [⟨.strayCharacter '@', 3⟩] := by
  decide +kernel

end Lox

import Lox.Proofs.Reading
import Mathlib.Order.Bounds.Defs

set_option autoImplicit false

/-!
# Going on behind a fault

Behind a fault a reading can skip to where a statement may begin, and try again from there. It skips one
token at least, and no further than to the first place behind it at which the input ends, the token in
front is a semicolon, or the token behind begins a statement. A loop that reads expressions and skips
behind each fault therefore comes to the end of the input: a try that fails may leave the cursor where it
was, but the skipping then moves it on.

## Main definitions

* `Lox.Token.Boundary` — the places in a list of tokens at which a statement may begin.
* `Lox.Reading.round`, `Lox.Reading.Recovers` — the loop that goes on behind faults, with its rounds.

## Main results

* `Lox.Cursor.isLeast_nextStatement` — skipping stops at the first boundary.
* `Lox.Reading.length_round_lt` — every round takes up one token at least.
* `Lox.Reading.skips_to_boundary` — the same at any place that a reading can come to, with the number of
  rounds that are left.
-/

namespace Lox

/-! ## Boundaries -/

namespace Token

/-- **A place at which a statement may begin**: at the end of the list or at an end of input, behind a
semicolon, or in front of a token that begins a statement. -/
inductive Boundary (tokens : List Token) : Nat → Prop
  | endOfList {p : Nat} (none : tokens[p]? = none) : Boundary tokens p
  | endOfInput {p : Nat} {t : Token} (found : tokens[p]? = some t) (kind : t.kind = .endOfInput) :
      Boundary tokens p
  | semicolon {p : Nat} {t : Token} (found : tokens[p]? = some t) (kind : t.kind = .symbol .semicolon) :
      Boundary tokens (p + 1)
  | statement {p : Nat} {t : Token} (found : tokens[p]? = some t) (begins : t.kind.beginsStatement) :
      Boundary tokens p

/-- A list of tokens is its words, behind which it ends or goes on with an end of input. -/
theorem eq_words_append (tokens : List Token) :
    ∃ behind, tokens = words tokens ++ behind ∧ ∀ t ∈ behind.head?, t.kind = .endOfInput := by
  refine ⟨tokens.dropWhile (·.kind != .endOfInput), List.takeWhile_append_dropWhile.symm, fun t ht => ?_⟩
  have hhead := List.head?_dropWhile_not (·.kind != .endOfInput) tokens
  rw [Option.mem_def.mp ht] at hhead
  simpa using hhead

/-- The words of a list stand at the front of it. -/
theorem getElem?_of_words {tokens : List Token} {p : Nat} {t : Token}
    (h : (words tokens)[p]? = some t) : tokens[p]? = some t := by
  obtain ⟨behind, hsplit, -⟩ := eq_words_append tokens
  obtain ⟨hlt, -⟩ := List.getElem?_eq_some_iff.mp h
  rw [hsplit, List.getElem?_append_left hlt, h]

/-- The words of a list end at a boundary. -/
theorem boundary_length_words (tokens : List Token) : Boundary tokens (words tokens).length := by
  obtain ⟨behind, hsplit, hstop⟩ := eq_words_append tokens
  have hfound : (words tokens ++ behind)[(words tokens).length]? = behind.head? := by
    rw [List.getElem?_append_right (Nat.le_refl _), Nat.sub_self, List.head?_eq_getElem?]
  rw [← hsplit] at hfound
  cases behind with
  | nil => exact .endOfList hfound
  | cons stop behind => exact .endOfInput hfound (hstop stop rfl)

/-- Between two words there is no boundary unless the first one is a semicolon or the second one begins a
statement. -/
theorem not_boundary_of_words {tokens : List Token} {p : Nat} {t u : Token}
    (ht : (words tokens)[p]? = some t) (hu : (words tokens)[p + 1]? = some u)
    (hsemicolon : t.kind ≠ .symbol .semicolon) (hstatement : ¬u.kind.beginsStatement) :
    ¬Boundary tokens (p + 1) := by
  have hword : u.kind ≠ .endOfInput := ne_endOfInput_of_mem_words u (List.mem_of_getElem? hu)
  have hfound : tokens[p + 1]? = some u := getElem?_of_words hu
  intro h
  cases h with
  | endOfList none =>
    rw [hfound] at none
    cases none
  | endOfInput found kind =>
    rw [hfound] at found
    cases found
    exact hword kind
  | semicolon found kind =>
    rw [getElem?_of_words ht] at found
    cases found
    exact hsemicolon kind
  | statement found begins =>
    rw [hfound] at found
    cases found
    exact hstatement begins

end Token

namespace Cursor

/-! ## Skipping -/

/-- **Skipping stops at the first boundary** behind the place that it starts from.

**Proof sketch.** Induction on the tokens ahead. One token is skipped in any case. The place behind it is
a boundary if the skipping stops there or nothing is left, and otherwise it is none, so that the first
boundary behind it is the one that is asked for. -/
theorem isLeast_nextStatement {tokens ahead : List Token} {i : Nat}
    (hahead : (Token.words tokens).drop i = ahead) (hne : ahead ≠ []) :
    IsLeast {p | i < p ∧ Token.Boundary tokens p}
      ((Token.words tokens).length - (nextStatement ahead).length) := by
  induction ahead generalizing i with
  | nil => exact absurd rfl hne
  | cons t ts ih =>
    have hlt : i < (Token.words tokens).length := by
      by_contra hle
      rw [List.drop_eq_nil_of_le (Nat.le_of_not_lt hle)] at hahead
      cases hahead
    have ht : (Token.words tokens)[i]? = some t := by
      rw [← List.head?_drop, hahead]
      rfl
    have hts : (Token.words tokens).drop (i + 1) = ts := by
      rw [← List.drop_drop, hahead]
      rfl
    have hlength : (Token.words tokens).length - ts.length = i + 1 := by
      rw [← hts, List.length_drop]
      omega
    -- the place behind the one token that is skipped in any case
    have least (h : Token.Boundary tokens (i + 1)) :
        IsLeast {p | i < p ∧ Token.Boundary tokens p} (i + 1) :=
      ⟨⟨Nat.lt_succ_self i, h⟩, fun p hp => hp.1⟩
    rw [nextStatement]
    split
    · next hstop =>
      rw [hlength]
      apply least
      obtain hsemicolon | hbegins := hstop
      · exact .semicolon (Token.getElem?_of_words ht) hsemicolon
      · obtain ⟨u, hu, hbegins⟩ := Option.any_eq_true _ _ |>.mp hbegins
        refine .statement (t := u) (Token.getElem?_of_words ?_) hbegins
        rw [← List.head?_drop, hts, hu]
    · next hgo =>
      cases ts with
      | nil =>
        have hend : (Token.words tokens).length = i + 1 := hlength
        have hboundary := Token.boundary_length_words tokens
        rw [hend] at hboundary
        show IsLeast _ ((Token.words tokens).length - 0)
        rw [Nat.sub_zero, hend]
        exact least hboundary
      | cons u us =>
        obtain ⟨hsemicolon, hstatement⟩ := not_or.mp hgo
        have hu : (Token.words tokens)[i + 1]? = some u := by
          rw [← List.head?_drop, hts]
          rfl
        have hnone : ¬Token.Boundary tokens (i + 1) :=
          Token.not_boundary_of_words ht hu hsemicolon (by simpa using hstatement)
        obtain ⟨⟨hbehind, hboundary⟩, hleast⟩ := ih hts (List.cons_ne_nil u us)
        refine ⟨⟨by omega, hboundary⟩, fun p hp => hleast ⟨?_, hp.2⟩⟩
        have hp' : p ≠ i + 1 := fun h => hnone (h ▸ hp.2)
        have hlt' : i < p := hp.1
        omega

/-- A word that begins a statement is skipped where the skipping starts, and the first of two semicolons
ends it. -/
example (line : Nat) :
    nextStatement [.ofKind (.keyword .varWord) line, .ofKind (.symbol .semicolon) line,
      .ofKind (.symbol .semicolon) line] = [.ofKind (.symbol .semicolon) line] :=
  rfl

/-- Skipping takes up one token at least. -/
theorem length_nextStatement_lt {tokens : List Token} (h : tokens ≠ []) :
    (nextStatement tokens).length < tokens.length := by
  obtain ⟨t, ts, rfl⟩ := List.exists_cons_of_ne_nil h
  rw [nextStatement, List.length_cons, Nat.lt_succ_iff]
  split
  · exact Nat.le_refl _
  · exact (nextStatement_suffix ts).length_le

end Cursor

namespace Reading

/-! ## The loop that goes on behind faults -/

/-- One round of the loop: an expression is read, and behind a fault the rest of the statement is
skipped. -/
def round (r : Reading) : Reading :=
  match r.step .readExpr with
  | (some (.error _), next) => (next.step .skipStatement).2
  | (_, next) => next

/-- **The loop that goes on behind faults**, with the number of its rounds: as long as the cursor does not
look at an end of input, there is one more round. -/
inductive Recovers : Reading → Nat → Reading → Prop
  | done {r : Reading} (atEnd : r.cursor.current.kind = .endOfInput) : Recovers r 0 r
  | again {r last : Reading} {rounds : Nat} (goesOn : r.cursor.current.kind ≠ .endOfInput)
      (others : Recovers r.round rounds last) : Recovers r (rounds + 1) last

/-- A round moves the cursor on. -/
theorem round_follows (r : Reading) : r.round.cursor.Follows r.cursor := by
  have follows := (r.step_moves .readExpr).follows
  unfold round
  split
  · next fault next heq =>
    rw [heq] at follows
    exact (next.step_moves .skipStatement).follows.trans follows
  · next answer next _ heq =>
    rw [heq] at follows
    exact follows

/-- **Every round takes up one token at least**, as long as one is ahead.

**Proof sketch.** An expression takes up a token. A try that fails may take up none, but the skipping
behind it does, unless the try has already come to the end. -/
theorem length_round_lt {r : Reading} (h : r.cursor.ahead ≠ []) :
    r.round.cursor.ahead.length < r.cursor.ahead.length := by
  have moves := r.step_moves .readExpr
  have answered : (r.step .readExpr).1 ≠ none := afterTry_fst_ne_none r.log r.cursor.readExpr
  unfold round
  generalize r.step .readExpr = found at moves answered
  obtain ⟨answer, next⟩ := found
  cases moves with
  | expression _ length_lt _ => exact length_lt
  | @fault cause cursor follows =>
    show (Cursor.nextStatement cursor.ahead).length < r.cursor.ahead.length
    by_cases hnil : cursor.ahead = []
    · rw [hnil]
      exact List.length_pos_iff.mpr h
    · exact Nat.lt_of_lt_of_le (Cursor.length_nextStatement_lt hnil) follows.ahead_suffix.length_le
  | silent _ => exact absurd rfl answered

section Place

variable {tokens : List Token} {r : Reading} (follows : r.cursor.Follows (.ofTokens tokens))

include follows

/-- The cursor looks at an end of input where nothing is ahead, and only there. -/
theorem current_endOfInput_iff : r.cursor.current.kind = .endOfInput ↔ r.cursor.ahead = [] := by
  refine ⟨ahead_eq_nil_of_current follows, fun hnil => ?_⟩
  rw [Cursor.current, hnil, follows.stop_eq]
  exact (Token.terminated_eq tokens).1

/-- **The loop comes to the end of the input.** -/
theorem exists_recovers : ∃ rounds last, Recovers r rounds last := by
  induction hlength : r.cursor.ahead.length using Nat.strong_induction_on generalizing r with
  | _ length ih =>
    by_cases hend : r.cursor.current.kind = .endOfInput
    · exact ⟨0, r, .done hend⟩
    · have hahead : r.cursor.ahead ≠ [] := (current_endOfInput_iff follows).not.mp hend
      obtain ⟨rounds, last, others⟩ := ih _ (hlength ▸ length_round_lt hahead)
        (r.round_follows.trans follows) rfl
      exact ⟨rounds + 1, last, .again hend others⟩

/-- The loop has no more rounds than there are tokens ahead. -/
theorem Recovers.rounds_le {rounds : Nat} {last : Reading} (recovers : Recovers r rounds last) :
    rounds ≤ r.cursor.ahead.length := by
  induction recovers with
  | done _ => exact Nat.zero_le _
  | @again r last rounds goesOn _ ih =>
    have hahead : r.cursor.ahead ≠ [] := (current_endOfInput_iff follows).not.mp goesOn
    have hlt := length_round_lt hahead
    have hle := ih (r.round_follows.trans follows)
    omega

end Place

/-- **Skipping stops exactly at the next boundary.** This holds at any place that a reading can come to.
At an end of input nothing changes. Elsewhere the cursor moves to the first boundary behind the place, and
nothing is added to the log. The loop that goes on behind faults ends from any place, and the number of
its rounds is at most the number of tokens between the place and the first end of input.

**Proof sketch.** What is ahead of a reading are the words behind its position, of which skipping leaves
those behind the first boundary (`Cursor.isLeast_nextStatement`). Every round takes up a token
(`Reading.length_round_lt`). -/
theorem skips_to_boundary (tokens : List Token) (log : Log) (steps : List Step) :
    let r := (ofTokens tokens log).after steps
    let next := (r.step .skipStatement).2
    (r.cursor.current.kind = .endOfInput → next = r) ∧
    (r.cursor.current.kind ≠ .endOfInput →
      IsLeast {p | r.position tokens < p ∧ Token.Boundary tokens p} (next.position tokens)) ∧
    next.log = r.log ∧
    (∃ rounds last, Recovers r rounds last) ∧
    ∀ rounds last, Recovers r rounds last →
      rounds + r.position tokens ≤ (Token.words tokens).length := by
  intro r next
  have follows : r.cursor.Follows (.ofTokens tokens) := (ofTokens tokens log).after_follows steps
  refine ⟨fun hend => ?_, fun hgo => ?_, rfl, exists_recovers follows, fun rounds last recovers => ?_⟩
  · have hnil : r.cursor.ahead = [] := (current_endOfInput_iff follows).mp hend
    show Reading.mk (r.cursor.moveTo (Cursor.nextStatement r.cursor.ahead)) r.log = r
    rw [hnil, Cursor.nextStatement, ← hnil]
    rfl
  · have hahead : r.cursor.ahead ≠ [] := (current_endOfInput_iff follows).not.mp hgo
    exact Cursor.isLeast_nextStatement (ahead_eq_drop_position follows).symm hahead
  · have hrounds := recovers.rounds_le follows
    have hle : r.cursor.ahead.length ≤ (Token.words tokens).length := follows.ahead_suffix.length_le
    rw [position]
    omega

end Reading

end Lox

import Lox.Proofs.Automaton
import Lox.Reading

set_option autoImplicit false

/-!
# Readings step by step

A reading can be taken further by any steps in any order, also behind a fault, which leaves it wherever
the fault was found. Whatever a step does, it moves the cursor on over some of the tokens ahead or leaves
it where it is, and it adds to the log what it answers with if that is a fault, and else nothing. All that
is known of readings follows from this one description of a step.

## Main definitions

* `Lox.Cursor.Follows` — a cursor that stands at the same place as another one, or further on.
* `Lox.Reading.Moves` — what one step does.
* `Lox.Reading.after`, `Lox.Reading.answers` — steps that are taken in turn, and what can be seen of them.
* `Lox.Reading.position` — how many tokens stand in front of a reading.
* `Lox.Reading.Accounted` — what is known of a reading at any time.

## Main results

* `Lox.Expr.left_readFrom_suffix` — what a reading leaves is the end of what it was given.
* `Lox.Reading.step_moves` — what one step does.
* `Lox.Reading.after_follows` — the same for steps in turn.
* `Lox.Reading.steps_accounted` — the place and the log of a reading are accounted for at any time.
-/

namespace Lox

/-! ## What is left of the tokens -/

namespace Expr

/-- The tokens that are left, whether they follow an expression or a fault. -/
def left : Except (ParseCause × List Token) (Expr × List Token) → List Token
  | .ok (_, rest) => rest
  | .error (_, rest) => rest

/-- **What is left is the end of the tokens.**

**Proof sketch.** Induction along the reading, which takes one token after another. -/
theorem left_readFrom_suffix (awaited : Awaited) (frames : List Frame) (tokens : List Token) :
    left (readFrom awaited frames tokens) <:+ tokens := by
  fun_induction readFrom awaited frames tokens with
  | case1 | case5 | case6 | case7 | case9 | case11 => exact List.suffix_rfl
  | case2 frames t ts v hv ih => exact ih.trans (List.suffix_cons t ts)
  | case3 frames t ts hv ht ih => exact ih.trans (List.suffix_cons t ts)
  | case4 frames t ts hv ht hparen ih => exact ih.trans (List.suffix_cons t ts)
  | case8 held frames t ts op hop outer left hcomplete ih => exact ih.trans (List.suffix_cons t ts)
  | case10 held frames t ts hbinary frame outer inner hcomplete hparen ih =>
    exact ih.trans (List.suffix_cons t ts)

/-- Behind an expression there is no binary operator, which would have been taken into it. -/
theorem not_isBinary_of_readFrom {awaited : Awaited} {frames : List Frame} {tokens rest : List Token}
    {e : Expr} (h : readFrom awaited frames tokens = .ok (e, rest)) :
    ∀ t ∈ rest.head?, ¬t.IsBinary := by
  fun_induction readFrom awaited frames tokens with
  | case1 | case5 | case7 | case11 => cases h
  | case2 frames t ts v hv ih => exact ih h
  | case3 frames t ts hv ht ih => exact ih h
  | case4 frames t ts hv ht hparen ih => exact ih h
  | case6 held frames e' hcomplete =>
    cases h
    intro t ht
    cases ht
  | case8 held frames t ts op hop outer left hcomplete ih => exact ih h
  | case9 held frames t ts hbinary e' hcomplete =>
    cases h
    intro s hs
    obtain rfl : t = s := Option.some_inj.mp hs
    simp [Token.IsBinary, hbinary]
  | case10 held frames t ts hbinary frame outer inner hcomplete hparen ih => exact ih h

/-- The row of a tree is not empty. -/
theorem yield_ne_nil (e : Expr) : e.yield ≠ [] := by
  cases e with
  | literal v => exact List.cons_ne_nil _ _
  | grouping inner => exact List.cons_ne_nil _ _
  | unary t operand => exact List.cons_ne_nil _ _
  | binary left t right => exact List.append_ne_nil_of_right_ne_nil _ (List.cons_ne_nil _ _)

/-- An expression takes up one token at least. -/
theorem length_lt_of_read {tokens rest : List Token} {e : Expr} (h : read tokens = .ok (e, rest)) :
    rest.length < tokens.length := by
  obtain ⟨-, -, items, words, rfl, hyield, hspells⟩ := readFrom_sound h (by trivial) (by trivial)
  have hitems : items = e.yield := by simpa using hyield.symm
  have hlength : items.length = words.length := hspells.length_eq
  have hpos : 0 < items.length := List.length_pos_iff.mpr (hitems ▸ e.yield_ne_nil)
  rw [List.length_append]
  omega

end Expr

/-! ## Cursors -/

namespace Cursor

/-- **A cursor at the same place as another one or further on**: what is ahead of it is the end of what
was ahead, and it stops at the same token. -/
structure Follows (later earlier : Cursor) : Prop where
  /-- What is ahead was ahead before. -/
  ahead_suffix : later.ahead <:+ earlier.ahead
  /-- The last token to look at is the same. -/
  stop_eq : later.stop = earlier.stop

namespace Follows

/-- A cursor is where it is. -/
theorem refl (c : Cursor) : c.Follows c :=
  ⟨List.suffix_rfl, rfl⟩

/-- Moves can be taken together. -/
theorem trans {c₁ c₂ c₃ : Cursor} (h : c₃.Follows c₂) (h' : c₂.Follows c₁) : c₃.Follows c₁ :=
  ⟨h.ahead_suffix.trans h'.ahead_suffix, h.stop_eq.trans h'.stop_eq⟩

end Follows

/-- A cursor moves on to where the end of the tokens ahead is left. -/
theorem moveTo_follows {c : Cursor} {rest : List Token} (h : rest <:+ c.ahead) :
    (c.moveTo rest).Follows c :=
  ⟨h, rfl⟩

/-- The next statement begins somewhere in the tokens ahead. -/
theorem nextStatement_suffix (tokens : List Token) : nextStatement tokens <:+ tokens := by
  induction tokens with
  | nil => exact List.suffix_rfl
  | cons t ts ih =>
    rw [nextStatement]
    split
    · exact List.suffix_cons t ts
    · exact ih.trans (List.suffix_cons t ts)

end Cursor

/-! ## One step -/

namespace Reading

/-- **What one step does** with a reading: it answers with an expression that takes up some tokens, and
behind which there is no binary operator; or with a fault at the token that it has come to, which it adds
to the log; or it has no answer and adds nothing. -/
inductive Moves (r : Reading) : Option (Except ParseFault Expr) → Reading → Prop
  | expression {e : Expr} {cursor : Cursor} (follows : cursor.Follows r.cursor)
      (length_lt : cursor.ahead.length < r.cursor.ahead.length)
      (behind : ∀ t ∈ cursor.ahead.head?, ¬t.IsBinary) : Moves r (some (.ok e)) ⟨cursor, r.log⟩
  | fault {cause : ParseCause} {cursor : Cursor} (follows : cursor.Follows r.cursor) :
      Moves r (some (.error ⟨cause, cursor.current⟩))
        ⟨cursor, r.log.add (.parse ⟨cause, cursor.current⟩)⟩
  | silent {cursor : Cursor} (follows : cursor.Follows r.cursor) : Moves r none ⟨cursor, r.log⟩

/-- Reading an expression moves a reading. -/
theorem readExpr_moves (r : Reading) :
    Moves r (afterTry r.log r.cursor.readExpr).1 (afterTry r.log r.cursor.readExpr).2 := by
  have hsuffix : Expr.left (Expr.read r.cursor.ahead) <:+ r.cursor.ahead :=
    Expr.left_readFrom_suffix .operand [] r.cursor.ahead
  unfold Cursor.readExpr
  cases hread : Expr.read r.cursor.ahead with
  | ok found =>
    obtain ⟨e, rest⟩ := found
    rw [hread] at hsuffix
    exact .expression (Cursor.moveTo_follows hsuffix) (Expr.length_lt_of_read hread)
      (Expr.not_isBinary_of_readFrom hread)
  | error failed =>
    obtain ⟨cause, rest⟩ := failed
    rw [hread] at hsuffix
    exact .fault (Cursor.moveTo_follows hsuffix)

/-- Reading an expression that must be the last moves a reading: a further token behind the expression is
where the cursor has come to. -/
theorem readAll_moves (r : Reading) :
    Moves r (afterTry r.log r.cursor.readAll).1 (afterTry r.log r.cursor.readAll).2 := by
  have hmoves := r.readExpr_moves
  unfold Cursor.readAll
  rcases hread : r.cursor.readExpr with ⟨answer, cursor⟩
  rw [hread] at hmoves
  cases answer with
  | error fault => exact hmoves
  | ok e =>
    dsimp only
    split
    · exact hmoves
    -- the expression is dropped, and the cursor stays behind it
    · cases hmoves with
      | expression follows length_lt behind => exact .fault follows

/-- **Every step moves a reading.** -/
theorem step_moves (r : Reading) (s : Step) : Moves r (r.step s).1 (r.step s).2 := by
  cases s with
  | readAll => exact r.readAll_moves
  | readExpr => exact r.readExpr_moves
  | skipStatement => exact .silent (Cursor.moveTo_follows (Cursor.nextStatement_suffix _))
  | look => exact .silent (.refl _)

/-- Whatever a step answers, the cursor is where it was or further on. -/
theorem Moves.follows {r next : Reading} {answer : Option (Except ParseFault Expr)}
    (moves : Moves r answer next) : next.cursor.Follows r.cursor := by
  cases moves with
  | expression follows => exact follows
  | fault follows => exact follows
  | silent follows => exact follows

/-- A try to read an expression is answered. -/
theorem afterTry_fst_ne_none (log : Log) (found : Except ParseFault Expr × Cursor) :
    (afterTry log found).1 ≠ none := by
  obtain ⟨answer, cursor⟩ := found
  cases answer <;> exact Option.some_ne_none _

/-! ## Steps in turn -/

/-- The reading after steps that are taken in turn. -/
def after (r : Reading) (steps : List Step) : Reading :=
  steps.foldl (fun r s => (r.step s).2) r

/-- What can be seen of steps that are taken in turn: the answer of each, and the token that the cursor
looks at after it. -/
def answers (r : Reading) : List Step → List (Option (Except ParseFault Expr) × Token)
  | [] => []
  | s :: steps => ((r.step s).1, (r.step s).2.cursor.current) :: (r.step s).2.answers steps

/-- **Steps in turn move the cursor on.** -/
theorem after_follows (r : Reading) (steps : List Step) :
    (r.after steps).cursor.Follows r.cursor := by
  induction steps generalizing r with
  | nil => exact .refl _
  | cons s steps ih => exact (ih (r.step s).2).trans (r.step_moves s).follows

/-! ## Places in a list of tokens -/

/-- **The position of a reading of `tokens`**: how many tokens it has in front of it, of those before the
first end of input. -/
def position (tokens : List Token) (r : Reading) : Nat :=
  (Token.words tokens).length - r.cursor.ahead.length

/-- A cursor that moves on does not go back. -/
theorem position_le_position (tokens : List Token) {r next : Reading}
    (moved : next.cursor.Follows r.cursor) : r.position tokens ≤ next.position tokens :=
  Nat.sub_le_sub_left moved.ahead_suffix.length_le _

section Place

variable {tokens : List Token} {r : Reading} (follows : r.cursor.Follows (.ofTokens tokens))

include follows

/-- What is ahead of a reading is what stands behind its position. -/
theorem ahead_eq_drop_position : r.cursor.ahead = (Token.words tokens).drop (r.position tokens) :=
  List.suffix_iff_eq_drop.mp follows.ahead_suffix

/-- The cursor of a reading looks at the token that stands at its position. -/
theorem getElem?_position :
    (Token.terminated tokens)[r.position tokens]? = some r.cursor.current := by
  obtain ⟨-, after, hterminated⟩ := Token.terminated_eq tokens
  have hle : r.position tokens ≤ (Token.words tokens).length := Nat.sub_le _ _
  rw [hterminated, ← List.head?_drop, List.drop_append_of_le_length hle,
    ← ahead_eq_drop_position follows, ← follows.stop_eq, Cursor.current]
  cases r.cursor.ahead with
  | nil => rfl
  | cons t ts => rfl

/-- A cursor with fewer tokens ahead has moved on. -/
theorem position_lt_position {next : Reading}
    (length_lt : next.cursor.ahead.length < r.cursor.ahead.length) :
    r.position tokens < next.position tokens := by
  have hle : r.cursor.ahead.length ≤ (Token.words tokens).length := follows.ahead_suffix.length_le
  simp only [position]
  omega

/-- Only where nothing is ahead the cursor looks at an end of input. -/
theorem ahead_eq_nil_of_current (hcurrent : r.cursor.current.kind = .endOfInput) :
    r.cursor.ahead = [] := by
  cases hahead : r.cursor.ahead with
  | nil => rfl
  | cons t ts =>
    have hmem : t ∈ Token.words tokens := follows.ahead_suffix.mem (hahead ▸ List.mem_cons_self)
    rw [Cursor.current, hahead] at hcurrent
    exact absurd hcurrent (Token.ne_endOfInput_of_mem_words t hmem)

/-- At an end of input the cursor stays. -/
theorem current_eq_of_current {next : Reading} (moved : next.cursor.Follows r.cursor)
    (hcurrent : r.cursor.current.kind = .endOfInput) : next.cursor.current = r.cursor.current := by
  have hahead : r.cursor.ahead = [] := ahead_eq_nil_of_current follows hcurrent
  have hnext : next.cursor.ahead = [] := List.suffix_nil.mp (hahead ▸ moved.ahead_suffix)
  rw [Cursor.current, Cursor.current, hahead, hnext, moved.stop_eq]

/-- No binary operator is looked at if none is the first token ahead. -/
theorem current_not_isBinary (behind : ∀ t ∈ r.cursor.ahead.head?, ¬t.IsBinary) :
    ¬r.cursor.current.IsBinary := by
  obtain ⟨hstop, -⟩ := Token.terminated_eq tokens
  rw [Cursor.current]
  cases hahead : r.cursor.ahead with
  | nil =>
    rw [List.headD_nil, follows.stop_eq, Token.IsBinary, hstop]
    exact Bool.false_ne_true
  | cons t ts => exact behind t (by rw [hahead]; rfl)

end Place

/-- **What is known of a reading of `tokens` at any time**, whatever steps have been taken and whatever
steps may come. -/
structure Accounted (tokens : List Token) (r : Reading) : Prop where
  /-- The tokens in front of the cursor and those ahead of it are all that stand in front of the first end
  of input, or all of the list if it holds none. So the position is not behind that end. -/
  position_add : r.position tokens + r.cursor.ahead.length = (Token.words tokens).length
  /-- What is ahead are the tokens from the position on. -/
  ahead : r.cursor.ahead = (Token.words tokens).drop (r.position tokens)
  /-- The cursor looks at the token at the position, be it one of the list or the end of input that is
  supplied behind it. -/
  current : (Token.terminated tokens)[r.position tokens]? = some r.cursor.current
  /-- The position never decreases. -/
  position_after : ∀ more, r.position tokens ≤ (r.after more).position tokens
  /-- Once the cursor looks at an end of input, it looks at that one for ever. -/
  current_after : ∀ more, r.cursor.current.kind = .endOfInput →
    (r.after more).cursor.current = r.cursor.current
  /-- To read an expression has an answer: the expression, or a fault. -/
  answered : ∀ s, s = .readAll ∨ s = .readExpr → (r.step s).1 ≠ none
  /-- A fault is added to the log, and nothing else is. It names the token that the cursor looks at when
  the step is done. -/
  of_fault : ∀ s fault, (r.step s).1 = some (.error fault) →
    (r.step s).2.log.faults = r.log.faults ++ [.parse fault] ∧
      fault.token = (r.step s).2.cursor.current
  /-- An expression adds nothing to the log, takes up one token at least, and has no binary operator
  behind it. -/
  of_expression : ∀ s e, (r.step s).1 = some (.ok e) →
    (r.step s).2.log = r.log ∧ r.position tokens < (r.step s).2.position tokens ∧
      ¬(r.step s).2.cursor.current.IsBinary
  /-- Skipping and looking have no answer and add nothing to the log. -/
  of_silent : ∀ s, s = .skipStatement ∨ s = .look →
    (r.step s).1 = none ∧ (r.step s).2.log = r.log

/-- A reading that stands anywhere in a list of tokens is accounted for. -/
theorem accounted_of_follows {tokens : List Token} {r : Reading}
    (follows : r.cursor.Follows (.ofTokens tokens)) : Accounted tokens r where
  position_add := Nat.sub_add_cancel follows.ahead_suffix.length_le
  ahead := ahead_eq_drop_position follows
  current := getElem?_position follows
  position_after := fun more => position_le_position tokens (r.after_follows more)
  current_after := fun more => current_eq_of_current follows (r.after_follows more)
  answered := by
    rintro s (rfl | rfl) <;> exact afterTry_fst_ne_none _ _
  of_fault := fun s fault hanswer => by
    have moves := r.step_moves s
    rw [hanswer] at moves
    generalize (r.step s).2 = next at moves
    cases moves with
    | fault _ => exact ⟨rfl, rfl⟩
  of_expression := fun s e hanswer => by
    have moves := r.step_moves s
    rw [hanswer] at moves
    generalize (r.step s).2 = next at moves
    cases moves with
    | expression moved length_lt behind =>
      exact ⟨rfl, position_lt_position follows length_lt,
        current_not_isBinary (moved.trans follows) behind⟩
  of_silent := by
    rintro s (rfl | rfl) <;> exact ⟨rfl, rfl⟩

/-! ## Lists of tokens that are read alike -/

/-- **Lists of tokens that are read alike**: all steps, taken in turn with any log, have the same answers,
look at the same tokens, and leave the same faults in the log. -/
def ReadAlike (tokens tokens' : List Token) : Prop :=
  ∀ (log : Log) (steps : List Step),
    (ofTokens tokens log).answers steps = (ofTokens tokens' log).answers steps ∧
      ((ofTokens tokens log).after steps).log = ((ofTokens tokens' log).after steps).log

/-- Lists of tokens with the same cursor are read alike. -/
theorem readAlike_of_eq {tokens tokens' : List Token}
    (h : Cursor.ofTokens tokens = Cursor.ofTokens tokens') : ReadAlike tokens tokens' := by
  intro log steps
  rw [ofTokens, ofTokens, h]
  exact ⟨rfl, rfl⟩

/-- Nothing behind an end of input is read. -/
theorem cursor_of_endOfInput (front behind : List Token) {stop : Token}
    (hstop : stop.kind = .endOfInput) :
    Cursor.ofTokens (front ++ stop :: behind) = Cursor.ofTokens (front ++ [stop]) := by
  have hne : (stop.kind != .endOfInput) = false := by simp [hstop]
  have heq : (stop.kind == .endOfInput) = true := by simp [hstop]
  simp [Cursor.ofTokens, List.takeWhile_append, List.find?_append, hne, heq]

/-- Where no end of input is given, one is supplied on the last line. -/
theorem cursor_append_endOfInput {tokens : List Token} (words : ∀ t ∈ tokens, t.kind ≠ .endOfInput) :
    Cursor.ofTokens (tokens ++ [.endOfInput ((tokens.getLast?.map Token.line).getD 1)]) =
      Cursor.ofTokens tokens := by
  have hwords : tokens.takeWhile (·.kind != .endOfInput) = tokens :=
    List.takeWhile_eq_self_iff.mpr (by simpa using words)
  have hfind : tokens.find? (·.kind == .endOfInput) = none := by simpa using words
  simp [Cursor.ofTokens, List.takeWhile_append, hwords, hfind, Token.endOfInput]

/-- **The place and the log of a reading are accounted for at any time**, whatever steps are taken in
whatever order, and also behind faults. Each try to read an expression is answered. Lists of tokens that are the same up to an end of input are read
alike, and so are a list without an end of input and the same list with one on its last line.

**Proof sketch.** Each step moves the cursor on and adds to the log at most the fault that it answers with
(`Reading.step_moves`), hence so do steps in turn (`Reading.after_follows`). The lists that are read alike
give the same cursor to begin with. -/
theorem steps_accounted (tokens : List Token) (log : Log) (steps : List Step) :
    Accounted tokens ((ofTokens tokens log).after steps) ∧
    (∀ front stop behind behind', stop.kind = .endOfInput →
      ReadAlike (front ++ stop :: behind) (front ++ stop :: behind')) ∧
    ((∀ t ∈ tokens, t.kind ≠ .endOfInput) →
      ReadAlike tokens (tokens ++ [.endOfInput ((tokens.getLast?.map Token.line).getD 1)])) := by
  refine ⟨?_, fun front stop behind behind' hstop => ?_, fun words => ?_⟩
  · exact accounted_of_follows ((ofTokens tokens log).after_follows steps)
  · apply readAlike_of_eq
    rw [cursor_of_endOfInput front behind hstop, cursor_of_endOfInput front behind' hstop]
  · exact readAlike_of_eq (cursor_append_endOfInput words).symm

end Reading

end Lox

import Lox.Proofs.Cursor
import Mathlib.Data.List.TakeWhile

set_option autoImplicit false

/-!
# The automaton of expressions

To find out whether tokens make up an expression, and which token is at fault if they do not, it is
enough to know what is awaited and how many groups are open. The automaton of this module keeps
nothing else, and yet it stops where the reading with its stack of frames stops, at the same token
and for the same cause.

## Main definitions

* `Lox.Automaton.State`, `Lox.Automaton.step` — the states and their moves.
* `Lox.Automaton.run` — the run of the automaton over tokens.
* `Lox.Token.terminated` — a list of tokens, with an end of input supplied if it holds none.

## Main results

* `Lox.Automaton.run_readFrom` — a run follows a reading, with the open groups as its depth.
* `Lox.Automaton.exists_run_eq_ready` — every state can still reach the end of an expression.
* `Lox.Log.parse_refines_automaton` — parsing accepts and fails like the automaton, and at the first
  token with which no expression can go on.
-/

namespace Lox

namespace Automaton

/-! ## States and moves -/

/-- What the automaton awaits, and the number of groups that are open. -/
inductive State
  /-- The beginning of an operand. -/
  | operand (depth : Nat)
  /-- An operator, the end of a group, or the end of the expression. -/
  | operator (depth : Nat)
deriving DecidableEq, Repr

/-- What the automaton does at a token. -/
inductive Move
  /-- The token is consumed. -/
  | goTo (s : State)
  /-- The tokens make up an expression. -/
  | accept
  /-- The token cannot stand here. -/
  | fail (cause : ParseCause)
deriving DecidableEq, Repr

/-- The operators between operands. -/
def binarySymbols : List Symbol :=
  [.bangEqual, .equalEqual, .greater, .greaterEqual, .less, .lessEqual, .minus, .plus, .slash, .star]

/-- What the automaton does in a state at a token of some kind. -/
def step : State → Kind → Move
  | .operand depth, k =>
    if k = .symbol .bang ∨ k = .symbol .minus then .goTo (.operand depth)
    else if k = .symbol .leftParen then .goTo (.operand (depth + 1))
    else if k ∈ Kind.leaves then .goTo (.operator depth)
    else .fail .noOperand
  | .operator depth, k =>
    if k ∈ binarySymbols.map .symbol then .goTo (.operand depth)
    else if 0 < depth then
      if k = .symbol .rightParen then .goTo (.operator (depth - 1)) else .fail .unclosedGroup
    else if k = .endOfInput then .accept
    else .fail .furtherToken

/-- The state before the first token. -/
def start : State := .operand 0

/-! ## Runs -/

/-- Where a run over tokens has come to. -/
inductive Outcome
  /-- All tokens are consumed. -/
  | running (s : State)
  /-- The tokens make up an expression. -/
  | accepted
  /-- A token cannot stand where it stands. -/
  | failed (fault : ParseFault)

/-- The run over tokens from a state. It ends at the first token that is not consumed. -/
def run : State → List Token → Outcome
  | s, [] => .running s
  | s, t :: ts =>
    match step s t.kind with
    | .goTo s' => run s' ts
    | .accept => .accepted
    | .fail cause => .failed ⟨cause, t⟩

/-- A run that has consumed the first tokens goes on with the others. -/
theorem run_append {s s' : State} {us : List Token} (h : run s us = .running s')
    (vs : List Token) : run s (us ++ vs) = run s' vs := by
  induction us generalizing s with
  | nil =>
    cases h
    rfl
  | cons t us ih =>
    rw [run] at h
    rw [List.cons_append, run]
    cases hstep : step s t.kind with
    | goTo s₁ =>
      rw [hstep] at h
      exact ih h
    | accept | fail =>
      rw [hstep] at h
      cases h

/-- A run that fails has consumed all tokens before the one at fault. -/
theorem exists_of_run_eq_failed {s : State} {ts : List Token} {fault : ParseFault}
    (h : run s ts = .failed fault) :
    ∃ before after s', ts = before ++ fault.token :: after ∧ run s before = .running s' ∧
      step s' fault.token.kind = .fail fault.cause := by
  induction ts generalizing s with
  | nil => cases h
  | cons t ts ih =>
    rw [run] at h
    cases hstep : step s t.kind with
    | goTo s₁ =>
      rw [hstep] at h
      obtain ⟨before, after, s', rfl, hrun, hfail⟩ := ih h
      exact ⟨t :: before, after, s', rfl, by rw [run, hstep]; exact hrun, hfail⟩
    | accept =>
      rw [hstep] at h
      cases h
    | fail cause =>
      rw [hstep] at h
      cases h
      exact ⟨[], ts, s, rfl, rfl, hstep⟩

/-- No state consumes an end of input. -/
theorem step_endOfInput (s s' : State) : step s .endOfInput ≠ .goTo s' := by
  cases s with
  | operand depth => simp [step, Kind.leaves]
  | operator depth => by_cases h : 0 < depth <;> simp [step, binarySymbols, h]

/-- A run that goes on has met no end of input. -/
theorem ne_endOfInput_of_run_eq_running {s s' : State} {ts : List Token}
    (h : run s ts = .running s') : ∀ t ∈ ts, t.kind ≠ .endOfInput := by
  induction ts generalizing s with
  | nil => simp
  | cons t ts ih =>
    rw [run] at h
    cases hstep : step s t.kind with
    | goTo s₁ =>
      rw [hstep] at h
      refine List.forall_mem_cons.mpr ⟨fun hk => ?_, ih h⟩
      exact step_endOfInput s s₁ (hk ▸ hstep)
    | accept | fail =>
      rw [hstep] at h
      cases h

/-! ## Single moves -/

/-- A value is consumed where an operand is awaited. -/
theorem step_leaf {k : Kind} (h : k ∈ Kind.leaves) (depth : Nat) :
    step (.operand depth) k = .goTo (.operator depth) := by
  simp only [Kind.leaves, List.mem_cons, List.not_mem_nil, or_false] at h
  rcases h with rfl | rfl | rfl | rfl | rfl <;> rfl

/-- A unary operator is consumed where an operand is awaited. -/
theorem step_unary {t : Token} (h : t.IsUnary) (depth : Nat) :
    step (.operand depth) t.kind = .goTo (.operand depth) := by
  rcases h.kind_eq with hk | hk <;> rw [hk] <;> rfl

/-- No other token but the start of a group is consumed where an operand is awaited. -/
theorem step_operand_fail {t : Token} (hv : t.value? = none) (hu : ¬t.IsUnary)
    (hp : t.kind ≠ .symbol .leftParen) (depth : Nat) :
    step (.operand depth) t.kind = .fail .noOperand := by
  have hleaf : t.kind ∉ Kind.leaves := by
    rw [← Token.exists_denotes_iff]
    rintro ⟨v, h⟩
    rw [Token.value?_eq_some_iff.mpr h] at hv
    cases hv
  have hsymbol : ¬(t.kind = .symbol .bang ∨ t.kind = .symbol .minus) := by
    simpa [Token.isUnary_iff] using hu
  simp [step, hleaf, hsymbol, hp]

/-- The kinds of binary operators are those of their symbols. -/
theorem isSome_binaryOp?_iff {k : Kind} : k.binaryOp?.isSome ↔ k ∈ binarySymbols.map .symbol := by
  constructor
  · intro h
    obtain ⟨op, hop⟩ := Option.isSome_iff_exists.mp h
    rw [BinaryOp.eq_symbol_of_binaryOp? hop]
    cases op <;> decide
  · simp only [binarySymbols, List.map_cons, List.map_nil, List.mem_cons, List.not_mem_nil, or_false]
    rintro (rfl | rfl | rfl | rfl | rfl | rfl | rfl | rfl | rfl | rfl) <;> rfl

/-- A binary operator is consumed behind an operand. -/
theorem step_binary {k : Kind} {op : BinaryOp} (h : k.binaryOp? = some op) (depth : Nat) :
    step (.operator depth) k = .goTo (.operand depth) := by
  have hmem : k ∈ binarySymbols.map .symbol := isSome_binaryOp?_iff.mp (by simp [h])
  rw [step, if_pos hmem]

/-- Inside a group only its end is consumed behind an operand, besides binary operators. -/
theorem step_operator_succ {k : Kind} (h : k.binaryOp? = none) (depth : Nat) :
    step (.operator (depth + 1)) k =
      if k = .symbol .rightParen then .goTo (.operator depth) else .fail .unclosedGroup := by
  have hmem : k ∉ binarySymbols.map .symbol := by simp [← isSome_binaryOp?_iff, h]
  rw [step, if_neg hmem, if_pos (Nat.succ_pos depth), Nat.add_sub_cancel]

/-- Outside of groups nothing is consumed behind an operand, besides binary operators. -/
theorem step_operator_zero {k : Kind} (h : k.binaryOp? = none) :
    step (.operator 0) k = if k = .endOfInput then .accept else .fail .furtherToken := by
  have hmem : k ∉ binarySymbols.map .symbol := by simp [← isSome_binaryOp?_iff, h]
  rw [step, if_neg hmem, if_neg (Nat.lt_irrefl 0)]

/-! ## Runs follow readings -/

/-- The number of groups that are open in frames. -/
def depth : List Frame → Nat
  | [] => 0
  | .group :: frames => depth frames + 1
  | _ :: frames => depth frames

/-- Completing frames closes no group. -/
@[simp]
theorem depth_complete (p : Nat) (frames : List Frame) (e : Expr) :
    depth (Frame.complete p frames e).1 = depth frames := by
  induction frames generalizing e with
  | nil => rfl
  | cons frame frames ih =>
    cases frame with
    | unary t => exact ih _
    | binary left op t =>
      rw [Frame.complete]
      split
      · exact ih _
      · rfl
    | group => rfl

/-- Frames that are all completed hold no open group. -/
theorem depth_of_complete_eq_nil {frames : List Frame} {held e : Expr}
    (h : Frame.complete 0 frames held = ([], e)) : depth frames = 0 := by
  rw [← depth_complete 0 frames held, h]
  rfl

/-- Frames that are not all completed are completed up to an open group. -/
theorem depth_of_complete_eq_cons {frames outer : List Frame} {frame : Frame} {held e : Expr}
    (h : Frame.complete 0 frames held = (frame :: outer, e)) : depth frames = depth outer + 1 := by
  rw [← depth_complete 0 frames held]
  rcases Frame.complete_zero frames held with hnil | ⟨outer', hcons⟩
  · simp [h] at hnil
  · simp only [h, List.cons.injEq] at hcons ⊢
    rw [hcons.1, depth]

/-- The state of a reading. -/
def stateOf (frames : List Frame) : Awaited → State
  | .operand => .operand (depth frames)
  | .operator _ => .operator (depth frames)

/-- The outcome of a run for the answer of a reading. -/
def Outcome.ofAnswer : Except ParseFault Expr → Outcome
  | .ok _ => .accepted
  | .error fault => .failed fault

/-- **A run follows a reading.** Over tokens without an end of input, which then follows, the
automaton comes to the outcome that the answer of the reading stands for.

**Proof sketch.** Induction along the reading. Each token that is read is consumed by one move, and
the move keeps the depth equal to the number of open groups, as completing frames closes none. -/
theorem run_readFrom (awaited : Awaited) (frames : List Frame) {tokens : List Token}
    (words : ∀ t ∈ tokens, t.kind ≠ .endOfInput) {stop : Token} (hstop : stop.kind = .endOfInput)
    (after : List Token) :
    run (stateOf frames awaited) (tokens ++ stop :: after) =
      .ofAnswer (Cursor.answer stop (Expr.readFrom awaited frames tokens)) := by
  fun_induction Expr.readFrom awaited frames tokens with
  | case1 frames =>
    rw [List.nil_append, run]
    simp [stateOf, hstop, step, Kind.leaves, Cursor.answer, Outcome.ofAnswer]
  | case2 frames t ts v hv ih =>
    have hleaf := Token.exists_denotes_iff.mp ⟨v, Token.value?_eq_some_iff.mp hv⟩
    rw [List.cons_append, run, stateOf, step_leaf hleaf]
    exact ih (List.forall_mem_of_forall_mem_cons words)
  | case3 frames t ts hv ht ih =>
    rw [List.cons_append, run, stateOf, step_unary ht]
    exact ih (List.forall_mem_of_forall_mem_cons words)
  | case4 frames t ts hv ht hparen ih =>
    rw [List.cons_append, run, stateOf, hparen]
    exact ih (List.forall_mem_of_forall_mem_cons words)
  | case5 frames t ts hv ht hparen =>
    rw [List.cons_append, run, stateOf, step_operand_fail hv ht hparen]
    rfl
  | case6 held frames e hcomplete =>
    rw [List.nil_append, run, stateOf, depth_of_complete_eq_nil hcomplete, hstop]
    rfl
  | case7 held frames hcomplete =>
    obtain ⟨outer, houter⟩ := (Frame.complete_zero frames held).resolve_left
      (fun hnil => hcomplete _ (Prod.ext hnil rfl))
    have hdepth : depth frames = depth outer + 1 := depth_of_complete_eq_cons (Prod.ext houter rfl)
    rw [List.nil_append, run, stateOf, hdepth, hstop, step_operator_succ rfl]
    rfl
  | case8 held frames t ts op hop outer left hcomplete ih =>
    have hdepth : depth outer = depth frames := by
      rw [← depth_complete op.precedence frames held, hcomplete]
    rw [List.cons_append, run, stateOf, step_binary hop, ← hdepth]
    exact ih (List.forall_mem_of_forall_mem_cons words)
  | case9 held frames t ts hbinary e hcomplete =>
    have hend : t.kind ≠ .endOfInput := words t List.mem_cons_self
    rw [List.cons_append, run, stateOf, depth_of_complete_eq_nil hcomplete,
      step_operator_zero hbinary, if_neg hend]
    rfl
  | case10 held frames t ts hbinary frame outer inner hcomplete hparen ih =>
    rw [List.cons_append, run, stateOf, depth_of_complete_eq_cons hcomplete,
      step_operator_succ hbinary, if_pos hparen]
    exact ih (List.forall_mem_of_forall_mem_cons words)
  | case11 held frames t ts hbinary frame outer inner hcomplete hparen =>
    rw [List.cons_append, run, stateOf, depth_of_complete_eq_cons hcomplete,
      step_operator_succ hbinary, if_neg hparen]
    rfl

/-! ## Every state can reach the end -/

/-- A token that is a whole operand. -/
private def someOperand : Token := .ofKind (.keyword .nilWord) 1

/-- A token that closes a group. -/
private def someClose : Token := .ofKind (.symbol .rightParen) 1

/-- Closing all groups leads out of them. -/
private theorem run_closes (depth : Nat) :
    run (.operator depth) (List.replicate depth someClose) = .running (.operator 0) := by
  induction depth with
  | zero => rfl
  | succ depth ih =>
    rw [List.replicate_succ, run, step_operator_succ rfl]
    exact ih

/-- **From every state tokens can lead to the end of an expression**: an operand, if one is awaited,
and the ends of all open groups. -/
theorem exists_run_eq_ready (s : State) : ∃ more, run s more = .running (.operator 0) := by
  cases s with
  | operand depth => exact ⟨someOperand :: List.replicate depth someClose, run_closes depth⟩
  | operator depth => exact ⟨List.replicate depth someClose, run_closes depth⟩

end Automaton

/-! ## Parsing is a run of the automaton -/

/-- A list of tokens with an end of input. If it holds none, one is supplied on the line of the last
token, or on the first line. -/
def Token.terminated (tokens : List Token) : List Token :=
  if tokens.any (·.kind == .endOfInput) then tokens
  else tokens ++ [.endOfInput ((tokens.getLast?.map Token.line).getD 1)]

namespace Token

/-- Words are no ends of input. -/
theorem ne_endOfInput_of_mem_words {tokens : List Token} :
    ∀ t ∈ words tokens, t.kind ≠ .endOfInput := by
  intro t ht
  simpa using List.mem_takeWhile_imp ht

/-- A terminated list is its words, the token behind them that a cursor stops at, which is an end of
input, and whatever follows it. -/
theorem terminated_eq (tokens : List Token) :
    (Cursor.ofTokens tokens).stop.kind = .endOfInput ∧
      ∃ after, terminated tokens = words tokens ++ (Cursor.ofTokens tokens).stop :: after := by
  have hsplit : words tokens ++ tokens.dropWhile (·.kind != .endOfInput) = tokens :=
    List.takeWhile_append_dropWhile
  rcases hdrop : tokens.dropWhile (·.kind != .endOfInput) with _ | ⟨stop, after⟩
  · have hall : ∀ t ∈ tokens, t.kind ≠ .endOfInput := by simpa using List.dropWhile_eq_nil_iff.mp hdrop
    have hfind : tokens.find? (·.kind == .endOfInput) = none := by simpa using hall
    have hany : tokens.any (·.kind == .endOfInput) = false := by simpa using hall
    rw [hdrop, List.append_nil] at hsplit
    refine ⟨by rw [Cursor.ofTokens, hfind]; rfl, [], ?_⟩
    rw [terminated, hany, hsplit, Cursor.ofTokens, hfind]
    rfl
  · have hstop : stop.kind = .endOfInput := by
      have := List.head?_dropWhile_not (·.kind != .endOfInput) tokens
      rw [hdrop] at this
      simpa using this
    have hfind : tokens.find? (·.kind == .endOfInput) = some stop := by
      rw [hdrop] at hsplit
      rw [← hsplit, List.find?_append]
      have : (words tokens).find? (·.kind == .endOfInput) = none := by
        simpa using ne_endOfInput_of_mem_words
      simp [this, hstop]
    have hany : tokens.any (·.kind == .endOfInput) = true := by
      simpa using ⟨stop, List.mem_of_find?_eq_some hfind, hstop⟩
    rw [terminated, hany, Cursor.ofTokens, hfind]
    refine ⟨hstop, after, ?_⟩
    rw [hdrop] at hsplit
    exact hsplit.symm

/-- A list that begins with tokens that are no ends of input still does so when terminated. -/
theorem exists_terminated_append (before more : List Token) :
    ∃ after, terminated (before ++ more) = before ++ after := by
  unfold terminated
  split
  · exact ⟨more, rfl⟩
  · exact ⟨_, List.append_assoc _ _ _⟩

/-- A list without an end of input is terminated by one. -/
theorem terminated_of_ne {tokens : List Token} (h : ∀ t ∈ tokens, t.kind ≠ .endOfInput) :
    ∃ line, terminated tokens = tokens ++ [.endOfInput line] := by
  have hany : tokens.any (·.kind == .endOfInput) = false := by simpa using h
  exact ⟨_, by rw [terminated, hany]; rfl⟩

end Token

/-- A run over a terminated list comes to the outcome of its parsing. -/
theorem Automaton.run_terminated (tokens : List Token) :
    run start (Token.terminated tokens) = .ofAnswer (parse tokens) := by
  obtain ⟨hstop, after, hterminated⟩ := Token.terminated_eq tokens
  rw [hterminated, parse_eq_answer]
  exact run_readFrom .operand [] Token.ne_endOfInput_of_mem_words hstop after

/-- A list parses if and only if the automaton accepts it. -/
theorem Automaton.run_terminated_eq_accepted_iff {tokens : List Token} :
    run start (Token.terminated tokens) = .accepted ↔ ∃ e, parse tokens = .ok e := by
  rw [run_terminated]
  cases parse tokens <;> simp [Outcome.ofAnswer]

/-- A list does not parse if and only if the automaton fails on it, with the same fault. -/
theorem Automaton.run_terminated_eq_failed_iff {tokens : List Token} {fault : ParseFault} :
    run start (Token.terminated tokens) = .failed fault ↔ parse tokens = .error fault := by
  rw [run_terminated]
  cases parse tokens <;> simp [Outcome.ofAnswer]

/-- What has been consumed can be extended to a list that parses. -/
theorem Automaton.exists_parse_append {before : List Token} {s : State}
    (h : run start before = .running s) : ∃ more e, parse (before ++ more) = .ok e := by
  obtain ⟨more, hmore⟩ := exists_run_eq_ready s
  have hready : run start (before ++ more) = .running (.operator 0) := by rw [run_append h, hmore]
  obtain ⟨line, hterminated⟩ := Token.terminated_of_ne (ne_endOfInput_of_run_eq_running hready)
  refine ⟨more, run_terminated_eq_accepted_iff.mp ?_⟩
  rw [hterminated, run_append hready]
  rfl

/-- A list in which a token cannot be consumed does not parse, whatever follows the token. -/
theorem Automaton.parse_append_eq_error {before : List Token} {s : State} {t : Token}
    {cause : ParseCause} (h : run start before = .running s) (hstep : step s t.kind = .fail cause)
    (more : List Token) : parse (before ++ t :: more) = .error ⟨cause, t⟩ := by
  obtain ⟨after, hterminated⟩ := Token.exists_terminated_append (before ++ [t]) more
  rw [List.append_assoc, List.append_assoc, List.singleton_append] at hterminated
  rw [← run_terminated_eq_failed_iff, hterminated, run_append h, List.singleton_append, run, hstep]

/-- **Parsing refines the automaton.** It gives a tree if and only if the automaton accepts, and none
if and only if the automaton fails. Then the one fault with the token and the cause of the failure
is added to the log, and the token is the first impossible one: the automaton has consumed all tokens
before it, they can be extended to a list that parses, and with the token behind them they cannot.

**Proof sketch.** A run comes to the outcome of the parsing (`Automaton.run_terminated`). A run that
fails has consumed the tokens before the one at fault, its state then leads to the end of an
expression over some tokens (`Automaton.exists_run_eq_ready`), and over the token at fault it leads
nowhere. -/
theorem Log.parse_refines_automaton (log : Log) (tokens : List Token) :
    ((∃ e, (log.parse tokens).1 = some e) ↔
      Automaton.run Automaton.start (Token.terminated tokens) = .accepted) ∧
    ((log.parse tokens).1 = none ↔
      ∃ fault, Automaton.run Automaton.start (Token.terminated tokens) = .failed fault) ∧
    ∀ fault, Automaton.run Automaton.start (Token.terminated tokens) = .failed fault →
      (log.parse tokens).2.faults = log.faults ++ [.parse fault] ∧
      ∃ before after s, Token.terminated tokens = before ++ fault.token :: after ∧
        Automaton.run Automaton.start before = .running s ∧
        (∃ more e, (log.parse (before ++ more)).1 = some e) ∧
        ∀ more, (log.parse (before ++ fault.token :: more)).1 = none := by
  have hnone (tokens : List Token) :
      (log.parse tokens).1 = none ↔ ∃ fault, Lox.parse tokens = .error fault := by
    unfold Log.parse
    cases Lox.parse tokens <;> simp
  refine ⟨?_, ?_, fun fault hfault => ?_⟩
  · rw [Automaton.run_terminated_eq_accepted_iff]
    simp only [parse_fst_eq_some_iff]
  · simp only [hnone, Automaton.run_terminated_eq_failed_iff]
  · have herror := Automaton.run_terminated_eq_failed_iff.mp hfault
    obtain ⟨before, after, s, heq, hrun, hfail⟩ := Automaton.exists_of_run_eq_failed hfault
    obtain ⟨more, e, hmore⟩ := Automaton.exists_parse_append hrun
    refine ⟨?_, before, after, s, heq, hrun, ⟨more, e, ?_⟩, fun more' => ?_⟩
    · simp [Log.parse, herror, Log.add]
    · exact parse_fst_eq_some_iff.mpr hmore
    · exact (hnone _).mpr ⟨_, Automaton.parse_append_eq_error hrun hfail more'⟩

end Lox

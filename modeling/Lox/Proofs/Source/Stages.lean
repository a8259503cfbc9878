import Lox.Proofs.Lexed

set_option autoImplicit false

/-!
# One evaluation in three forms

A source text can be read as an expression, evaluated by itself, or evaluated with a log that other
texts have been evaluated with. All three take the same stages, and each stage only adds to a log
what it adds to an empty one. What a text adds is therefore a matter of the text alone, except for
the one question whether it is evaluated at all: a log that holds a static fault, be it of an earlier
text, puts an end to evaluations and not to the search for further static faults.

## Main definitions

* `Lox.lexFaults`, `Lox.parseFaults`, `Lox.staticFaults` — the faults of a text before its evaluation.
* `Lox.output`, `Lox.runtimeFaults` — what the evaluation of a text gives.
* `Lox.Reads`, `Lox.IllFormed` — what becomes of a text with an expression, and of one without.
* `Lox.Log.evalSources` — texts that are evaluated in turn with one log.

## Main results

* `Lox.reads_or_illFormed` — a text has an expression, or it has static faults.
* `Lox.Log.lex_frame`, `Lox.Log.parse_frame`, `Lox.Log.eval_frame` — each stage only adds to a log.
* `Lox.Log.evalSource_eq` — what the evaluation of a text does with a log.
* `Lox.Log.evalSources_eq` — what evaluations in turn do with a log.
* `Lox.Log.stages_agree` — the three forms agree for all texts and all logs.
-/

namespace Lox

/-! ## The faults and the output of a text -/

/-- The faults in the characters of a source text. -/
def lexFaults (source : String) : List Fault :=
  (Log.empty.lex source).2.faults

/-- The faults in the order of the tokens of a source text. -/
def parseFaults (source : String) : List Fault :=
  (Log.empty.parse (Log.empty.lex source).1).2.faults

/-- The faults of a source text that are found before any evaluation. -/
def staticFaults (source : String) : List Fault :=
  lexFaults source ++ parseFaults source

/-- The text of the value of a source text, if it has a value. -/
def output (source : String) : Option String :=
  match evalSource source with
  | .ok v => some v.display
  | .error _ => none

/-- The fault of the evaluation of a source text, if it comes to one. -/
def runtimeFaults (source : String) : List Fault :=
  match evalSource source with
  | .error (.runtime fault) => [.runtime fault]
  | _ => []

/-! ## Stages only add to a log -/

namespace Log

/-- The tokens of a source text do not depend on the log, and neither do the faults that are added. -/
theorem lex_frame (log : Log) (source : String) :
    log.lex source = ((Log.empty.lex source).1, ⟨log.faults ++ lexFaults source⟩) := by
  simp [lex, lexFaults, empty]

/-- The expression of tokens does not depend on the log, and neither does the fault that is added. -/
theorem parse_frame (log : Log) (tokens : List Token) :
    log.parse tokens =
      ((Log.empty.parse tokens).1, ⟨log.faults ++ (Log.empty.parse tokens).2.faults⟩) := by
  unfold parse
  cases Lox.parse tokens with
  | ok e => simp [empty]
  | error fault => simp [empty, add]

/-- The answer of an evaluation is that of the expression, and a fault is added to the log. -/
theorem eval_frame (log : Log) (e : Expr) :
    log.eval e = ((Log.empty.eval e).1, ⟨log.faults ++ (Log.empty.eval e).2.faults⟩) := by
  unfold eval
  cases e.eval with
  | ok v => simp [empty]
  | error fault => simp [empty, add]

/-- A log with further faults holds a static one if it did before or if there is one among them. -/
theorem hasStaticFault_append (log : Log) (faults : List Fault) :
    (Log.mk (log.faults ++ faults)).hasStaticFault =
      (log.hasStaticFault || faults.any Fault.isStatic) := by
  simp [hasStaticFault]

end Log

/-! ## Texts with and without an expression -/

/-- **What becomes of a source text with an expression**: it has no static faults, its value is that
of the expression, and with a log it is evaluated unless the log holds a static fault. -/
structure Reads (source : String) (e : Expr) : Prop where
  /-- The characters are without fault. -/
  lexFaults_eq : lexFaults source = []
  /-- The tokens are without fault. -/
  parseFaults_eq : parseFaults source = []
  /-- The expression is what the tokens make up. -/
  parse_eq : (Log.empty.parse (Log.empty.lex source).1).1 = some e
  /-- The expression is that of the text. -/
  parseSource_eq : parseSource source = .ok e
  /-- The value is that of the expression. -/
  evalSource_eq : evalSource source = e.eval.mapError .runtime
  /-- With a log the expression is evaluated, unless the log holds a static fault. -/
  eval_eq : ∀ log : Log,
    log.evalSource source = if log.hasStaticFault then (none, log) else log.eval e

/-- **What becomes of a source text without an expression**: it has static faults, and nothing else is
known of it, by itself or with a log. -/
structure IllFormed (source : String) : Prop where
  /-- There are static faults. -/
  staticFaults_ne_nil : staticFaults source ≠ []
  /-- The static faults are the reason why there is no expression. -/
  parseSource_eq : parseSource source = .error (.illFormed (staticFaults source))
  /-- The static faults are the reason why there is no value. -/
  evalSource_eq : evalSource source = .error (.illFormed (staticFaults source))
  /-- With a log the static faults are added to it. -/
  eval_eq : ∀ log : Log,
    log.evalSource source = (none, ⟨log.faults ++ staticFaults source⟩)

/-- The faults in the characters are those that are found with the tokens. -/
theorem lexFaults_eq (source : String) : lexFaults source = (lex source).faults.map .lex := by
  simp [lexFaults, Log.lex, Log.empty]

/-- Tokens that make up an expression are without fault. -/
theorem parseFaults_of_parse_eq_ok {source : String} {e : Expr}
    (h : parse (lex source).tokens = .ok e) : parseFaults source = [] := by
  have hparse : Lox.parse (Log.empty.lex source).1 = .ok e := h
  rw [parseFaults, Log.parse, hparse]
  rfl

/-- Tokens that make up no expression have the one fault at which reading them stops. -/
theorem parseFaults_of_parse_eq_error {source : String} {fault : ParseFault}
    (h : parse (lex source).tokens = .error fault) : parseFaults source = [.parse fault] := by
  have hparse : Lox.parse (Log.empty.lex source).1 = .error fault := h
  rw [parseFaults, Log.parse, hparse]
  rfl

/-- All faults in characters are static. -/
theorem isStatic_of_mem_lexFaults {source : String} {f : Fault} (h : f ∈ lexFaults source) :
    f.isStatic := by
  rw [lexFaults_eq] at h
  obtain ⟨fault, -, rfl⟩ := List.mem_map.mp h
  rfl

/-- Static faults hold a static one unless there are none. -/
theorem any_isStatic {faults : List Fault} (static : ∀ f ∈ faults, f.isStatic) :
    faults.any Fault.isStatic = !faults.isEmpty := by
  cases faults with
  | nil => rfl
  | cons f fs =>
    have hf : f.isStatic := static f List.mem_cons_self
    simp [hf]

/-- A text whose tokens are at fault has no expression. -/
theorem illFormed_of_parse_eq_error {source : String} {fault : ParseFault}
    (h : Lox.parse (Log.empty.lex source).1 = .error fault) : IllFormed source := by
  have hnone : (Log.empty.parse (Log.empty.lex source).1).1 = none := by rw [Log.parse, h]
  -- the frame carries what is known of the empty log to all others
  have hparse (log : Log) :
      log.parse (Log.empty.lex source).1 = (none, ⟨log.faults ++ parseFaults source⟩) := by
    rw [Log.parse_frame, hnone, parseFaults]
  have hfaults : parseFaults source = [.parse fault] := parseFaults_of_parse_eq_error h
  have hsource : parseSource source = .error (.illFormed (staticFaults source)) := by
    rw [parseSource, Log.lex_frame]
    dsimp only
    rw [hparse]
    rfl
  refine ⟨by simp [staticFaults, hfaults], hsource, by rw [evalSource, hsource], fun log => ?_⟩
  rw [Log.evalSource, Log.lex_frame]
  dsimp only
  rw [hparse, staticFaults, List.append_assoc]

/-- A text whose tokens make up an expression has this expression unless its characters are at
fault. -/
theorem reads_or_illFormed_of_parse_eq_ok {source : String} {e : Expr}
    (h : Lox.parse (Log.empty.lex source).1 = .ok e) : Reads source e ∨ IllFormed source := by
  have hsome : (Log.empty.parse (Log.empty.lex source).1).1 = some e := by rw [Log.parse, h]
  have hfaults : parseFaults source = [] := parseFaults_of_parse_eq_ok h
  have hparse (log : Log) : log.parse (Log.empty.lex source).1 = (some e, log) := by
    rw [Log.parse_frame, hsome, ← parseFaults, hfaults, List.append_nil]
  have hstatic : staticFaults source = lexFaults source := by
    rw [staticFaults, hfaults, List.append_nil]
  have hsource : parseSource source =
      if (lexFaults source).isEmpty then .ok e else .error (.illFormed (lexFaults source)) := by
    rw [parseSource, Log.lex_frame]
    dsimp only
    rw [hparse]
    dsimp only
    rw [Log.hasStaticFault_append, any_isStatic fun _ => isStatic_of_mem_lexFaults]
    cases hlex : (lexFaults source).isEmpty <;> rfl
  have hlog (log : Log) : log.evalSource source =
      if log.hasStaticFault || !(lexFaults source).isEmpty then
        (none, ⟨log.faults ++ lexFaults source⟩)
      else Log.eval ⟨log.faults ++ lexFaults source⟩ e := by
    rw [Log.evalSource, Log.lex_frame]
    dsimp only
    rw [hparse]
    dsimp only
    rw [Log.hasStaticFault_append, any_isStatic fun _ => isStatic_of_mem_lexFaults]
  cases hlex : lexFaults source with
  | nil =>
    rw [hlex] at hsource hlog
    refine .inl ⟨hlex, hfaults, by rw [hparse], hsource, by rw [evalSource, hsource]; rfl, ?_⟩
    intro log
    rw [hlog]
    simp
  | cons f fs =>
    rw [hlex] at hsource
    refine .inr ⟨by simp [hstatic, hlex], ?_, ?_, fun log => ?_⟩
    · rw [hsource, hstatic, hlex]
      rfl
    · rw [evalSource, hsource, hstatic, hlex]
      rfl
    · rw [hlog, hstatic, hlex]
      simp

/-- **A source text has an expression, or it has static faults.** -/
theorem reads_or_illFormed (source : String) : (∃ e, Reads source e) ∨ IllFormed source := by
  cases hparse : Lox.parse (Log.empty.lex source).1 with
  | error fault => exact .inr (illFormed_of_parse_eq_error hparse)
  | ok e =>
    obtain reads | illFormed := reads_or_illFormed_of_parse_eq_ok hparse
    · exact .inl ⟨e, reads⟩
    · exact .inr illFormed

/-- There is one fault in the order of the tokens at most. -/
theorem parseFaults_eq_nil_or (source : String) :
    parseFaults source = [] ∨ ∃ fault, parseFaults source = [.parse fault] := by
  unfold parseFaults Log.parse
  cases Lox.parse (Log.empty.lex source).1 with
  | ok e => exact .inl rfl
  | error fault => exact .inr ⟨fault, rfl⟩

/-- All static faults of a text are static. -/
theorem isStatic_of_mem_staticFaults {source : String} {f : Fault} (h : f ∈ staticFaults source) :
    f.isStatic := by
  obtain h | h := List.mem_append.mp h
  · exact isStatic_of_mem_lexFaults h
  · obtain hnone | ⟨fault, hone⟩ := parseFaults_eq_nil_or source
    · rw [hnone] at h
      cases h
    · rw [hone, List.mem_singleton] at h
      rw [h]
      rfl

/-- A text has no static faults if and only if neither its characters nor its tokens are at fault. -/
theorem staticFaults_eq_nil_iff {source : String} :
    staticFaults source = [] ↔ lexFaults source = [] ∧ parseFaults source = [] :=
  List.append_eq_nil_iff

/-! ## The evaluation of a text with a log -/

/-- An expression has a value, or its evaluation comes to a fault. -/
theorem Reads.output_or_fault {source : String} {e : Expr} (reads : Reads source e) :
    (∃ v, evalSource source = .ok v ∧ output source = some v.display ∧ runtimeFaults source = [] ∧
      Log.empty.eval e = (some v.display, Log.empty)) ∨
    ∃ fault, evalSource source = .error (.runtime fault) ∧ output source = none ∧
      runtimeFaults source = [.runtime fault] ∧ Log.empty.eval e = (none, ⟨[.runtime fault]⟩) := by
  have hsource := reads.evalSource_eq
  cases heval : e.eval with
  | ok v =>
    rw [heval] at hsource
    refine .inl ⟨v, hsource, by rw [output, hsource]; rfl, by rw [runtimeFaults, hsource]; rfl, ?_⟩
    rw [Log.eval, heval]
  | error fault =>
    rw [heval] at hsource
    refine .inr ⟨fault, hsource, by rw [output, hsource]; rfl,
      by rw [runtimeFaults, hsource]; rfl, ?_⟩
    rw [Log.eval, heval]
    rfl

/-- A text without an expression has no output. -/
theorem IllFormed.output_eq_none {source : String} (illFormed : IllFormed source) :
    output source = none := by
  rw [output, illFormed.evalSource_eq]

/-- A text without an expression comes to no fault of an evaluation. -/
theorem IllFormed.runtimeFaults_eq_nil {source : String} (illFormed : IllFormed source) :
    runtimeFaults source = [] := by
  rw [runtimeFaults, illFormed.evalSource_eq]

namespace Log

/-- **The evaluation of a text with a log** adds the static faults of the text. Only if the log holds no
static fault, it also gives the output of the text and adds the fault of its evaluation. -/
theorem evalSource_eq (log : Log) (source : String) :
    log.evalSource source =
      if log.hasStaticFault then (none, ⟨log.faults ++ staticFaults source⟩)
      else (output source, ⟨log.faults ++ staticFaults source ++ runtimeFaults source⟩) := by
  obtain ⟨e, reads⟩ | illFormed := reads_or_illFormed source
  · have hstatic : staticFaults source = [] :=
      staticFaults_eq_nil_iff.mpr ⟨reads.lexFaults_eq, reads.parseFaults_eq⟩
    rw [reads.eval_eq, hstatic, List.append_nil, eval_frame]
    obtain ⟨v, -, houtput, hruntime, heval⟩ | ⟨fault, -, houtput, hruntime, heval⟩ :=
      reads.output_or_fault
    · rw [heval, houtput, hruntime]
      rfl
    · rw [heval, houtput, hruntime]
  · rw [illFormed.eval_eq, illFormed.output_eq_none, illFormed.runtimeFaults_eq_nil,
      List.append_nil, ite_self]

/-- The fault of an evaluation is no static one. -/
theorem any_isStatic_runtimeFaults (source : String) :
    (runtimeFaults source).any Fault.isStatic = false := by
  unfold runtimeFaults
  split <;> rfl

/-- A log holds a static fault after an evaluation if it did before or if the text has one. -/
theorem hasStaticFault_evalSource (log : Log) (source : String) :
    (log.evalSource source).2.hasStaticFault =
      (log.hasStaticFault || !(staticFaults source).isEmpty) := by
  have hstatic : (staticFaults source).any Fault.isStatic = !(staticFaults source).isEmpty :=
    any_isStatic fun _ => isStatic_of_mem_staticFaults
  rw [evalSource_eq]
  split
  · rw [hasStaticFault_append, hstatic]
  · rw [List.append_assoc, hasStaticFault_append, List.any_append, hstatic,
      any_isStatic_runtimeFaults, Bool.or_false]

/-! ## Evaluations in turn -/

/-- Evaluates texts in turn with one log. -/
def evalSources : Log → List String → List (Option String) × Log
  | log, [] => ([], log)
  | log, source :: sources =>
    let (output, log) := log.evalSource source
    let (outputs, log) := log.evalSources sources
    (output :: outputs, log)

/-- The texts that are evaluated if all are taken in turn with a log: those before the first one with
a static fault, or none if the log holds a static fault. -/
def evaluated (log : Log) (sources : List String) : List String :=
  if log.hasStaticFault then [] else sources.takeWhile fun source => (staticFaults source).isEmpty

/-- The texts that are not evaluated: all from the first one with a static fault on. -/
def skipped (log : Log) (sources : List String) : List String :=
  if log.hasStaticFault then sources else sources.dropWhile fun source => (staticFaults source).isEmpty

/-- **Evaluations in turn.** The texts before the first one with a static fault give their outputs and
the faults of their evaluations, as if each were the only one. From then on there is no output, and
only static faults are added.

**Proof sketch.** Induction on the texts. One evaluation makes the log hold a static fault if and only
if the text has one, whatever faults of evaluations there are. -/
theorem evalSources_eq (log : Log) (sources : List String) :
    log.evalSources sources =
      ((log.evaluated sources).map output ++ (log.skipped sources).map fun _ => none,
        ⟨log.faults ++ (log.evaluated sources).flatMap runtimeFaults ++
          (log.skipped sources).flatMap staticFaults⟩) := by
  induction sources generalizing log with
  | nil => simp [evalSources, evaluated, skipped]
  | cons source sources ih =>
    have hnext := log.hasStaticFault_evalSource source
    rw [evalSources]
    dsimp only
    rw [ih, evaluated, skipped, evaluated, skipped, hnext, evalSource_eq]
    cases hlog : log.hasStaticFault with
    | true => simp
    | false =>
      obtain ⟨e, reads⟩ | illFormed := reads_or_illFormed source
      · have hstatic : staticFaults source = [] :=
          staticFaults_eq_nil_iff.mpr ⟨reads.lexFaults_eq, reads.parseFaults_eq⟩
        simp [hstatic]
      · simp [illFormed.staticFaults_ne_nil, illFormed.output_eq_none,
          illFormed.runtimeFaults_eq_nil]

/-- The negation of a string keeps nothing from being evaluated, and an unfinished sum does. -/
example : (empty.evalSources ["-\"a\"", "1 < 2", "1 +", "3 > 2"]).1 =
    [none, some "true", none, none] := by
  decide +kernel

end Log

/-! ## All together -/

/-- A text whose expression is known has it. -/
theorem Reads.of_parseSource {source : String} {e : Expr} (h : parseSource source = .ok e) :
    Reads source e := by
  obtain ⟨e', reads⟩ | illFormed := reads_or_illFormed source
  · obtain rfl : e' = e := Except.ok.inj (reads.parseSource_eq.symm.trans h)
    exact reads
  · rw [illFormed.parseSource_eq] at h
    cases h

/-- A text that is known to have no expression is ill-formed. -/
theorem IllFormed.of_parseSource {source : String} {failure : Failure}
    (h : parseSource source = .error failure) : IllFormed source := by
  obtain ⟨e, reads⟩ | illFormed := reads_or_illFormed source
  · rw [reads.parseSource_eq] at h
    cases h
  · exact illFormed

/-- A text has an expression if and only if neither its characters nor its tokens are at fault. -/
theorem exists_parseSource_eq_ok_iff {source : String} :
    (∃ e, parseSource source = .ok e) ↔ lexFaults source = [] ∧ parseFaults source = [] := by
  constructor
  · rintro ⟨e, h⟩
    have reads := Reads.of_parseSource h
    exact ⟨reads.lexFaults_eq, reads.parseFaults_eq⟩
  · intro h
    obtain ⟨e, reads⟩ | illFormed := reads_or_illFormed source
    · exact ⟨e, reads.parseSource_eq⟩
    · exact absurd (staticFaults_eq_nil_iff.mpr h) illFormed.staticFaults_ne_nil

/-- The output of a text is the text of its value. -/
theorem output_eq_some_iff {source text : String} :
    output source = some text ↔ ∃ v, evalSource source = .ok v ∧ v.display = text := by
  unfold output
  cases evalSource source <;> simp

/-- The fault of an evaluation is what makes a text fail without any static fault. -/
theorem runtimeFaults_eq_singleton_iff {source : String} {fault : RuntimeFault} :
    runtimeFaults source = [.runtime fault] ↔ evalSource source = .error (.runtime fault) := by
  unfold runtimeFaults
  split
  · next fault' h => simp [h]
  · next h => simpa using h fault

/-- A text of which the evaluation comes to a fault has no static faults. -/
theorem staticFaults_eq_nil_of_runtime {source : String} {fault : RuntimeFault}
    (h : evalSource source = .error (.runtime fault)) : staticFaults source = [] := by
  obtain ⟨e, reads⟩ | illFormed := reads_or_illFormed source
  · exact staticFaults_eq_nil_iff.mpr ⟨reads.lexFaults_eq, reads.parseFaults_eq⟩
  · rw [illFormed.evalSource_eq] at h
    cases h

/-- The evaluation of a text comes to one fault at most. -/
theorem runtimeFaults_eq_nil_or (source : String) :
    runtimeFaults source = [] ∨ ∃ fault, runtimeFaults source = [.runtime fault] := by
  unfold runtimeFaults
  split
  · next fault _ => exact .inr ⟨fault, rfl⟩
  · exact .inl rfl

/-- **What the evaluation of a text adds to a log**: its static faults, and behind them the fault of its
evaluation if it comes to one. -/
theorem Log.exists_faults_evalSource (log : Log) (source : String) :
    ∃ later, (log.evalSource source).2.faults = log.faults ++ staticFaults source ++ later ∧
      (later = [] ∨ ∃ fault, later = [.runtime fault]) ∧
      ∀ fault, later = [.runtime fault] ↔ log.hasStaticFault = false ∧ lexFaults source = [] ∧
        parseFaults source = [] ∧ Lox.evalSource source = .error (.runtime fault) := by
  rw [evalSource_eq]
  cases log.hasStaticFault with
  | true => exact ⟨[], (List.append_nil _).symm, .inl rfl, by simp⟩
  | false =>
    refine ⟨runtimeFaults source, rfl, runtimeFaults_eq_nil_or source, fun fault => ?_⟩
    rw [runtimeFaults_eq_singleton_iff]
    constructor
    · intro h
      obtain ⟨hlex, hparse⟩ := staticFaults_eq_nil_iff.mp (staticFaults_eq_nil_of_runtime h)
      exact ⟨rfl, hlex, hparse, h⟩
    · rintro ⟨-, -, -, h⟩
      exact h

/-- **When the evaluation of a text has an output**: when the text has a value and the log holds no
static fault. -/
theorem Log.evalSource_fst_eq_some_iff (log : Log) {source text : String} :
    (log.evalSource source).1 = some text ↔ log.hasStaticFault = false ∧
      ∃ v, Lox.evalSource source = .ok v ∧ v.display = text := by
  rw [evalSource_eq, ← output_eq_some_iff]
  cases log.hasStaticFault <;> simp

/-- **The stages agree, alone and together.**

A text by itself: it has an expression if and only if neither its characters nor its tokens are at
fault, and then its value or the fault of its evaluation is that of the expression; else it fails with
all its faults, of which there is one at least and none of an evaluation.

A text with a log: its static faults are added to those of the log, and behind them the fault of its
evaluation, if there is one and if the log held no static fault. There is an output if and only if the
text has a value and the log held no static fault.

Texts in turn: those before the first one with a static fault give what they give by themselves, even
if evaluations before them came to faults. From then on there is no output and no fault of an
evaluation, and static faults are still added. -/
theorem Log.stages_agree (log : Log) (source : String) (sources : List String) :
    (((∃ e, parseSource source = .ok e) ↔ lexFaults source = [] ∧ parseFaults source = []) ∧
      (parseFaults source).length ≤ 1 ∧
      (∀ e, parseSource source = .ok e →
        (empty.parse (empty.lex source).1).1 = some e ∧
        Lox.evalSource source = e.eval.mapError .runtime) ∧
      ∀ failure, parseSource source = .error failure →
        failure = .illFormed (lexFaults source ++ parseFaults source) ∧
        lexFaults source ++ parseFaults source ≠ [] ∧
        (∀ f ∈ lexFaults source ++ parseFaults source, f.isStatic) ∧
        Lox.evalSource source = .error failure) ∧
    ((∃ later, (log.evalSource source).2.faults =
        log.faults ++ (lexFaults source ++ parseFaults source) ++ later ∧
        (later = [] ∨ ∃ fault, later = [.runtime fault]) ∧
        ∀ fault, later = [.runtime fault] ↔ log.hasStaticFault = false ∧ lexFaults source = [] ∧
          parseFaults source = [] ∧ Lox.evalSource source = .error (.runtime fault)) ∧
      ∀ text, (log.evalSource source).1 = some text ↔ log.hasStaticFault = false ∧
        ∃ v, Lox.evalSource source = .ok v ∧ v.display = text) ∧
    (log.evalSources sources).1 =
      (log.evaluated sources).map output ++ (log.skipped sources).map (fun _ => none) ∧
    (log.evalSources sources).2.faults =
      log.faults ++ (log.evaluated sources).flatMap runtimeFaults ++
        (log.skipped sources).flatMap staticFaults := by
  refine ⟨⟨exists_parseSource_eq_ok_iff, ?_, fun e h => ?_, fun failure h => ?_⟩,
    ⟨?_, fun text => ?_⟩, ?_, ?_⟩
  · obtain hnone | ⟨fault, hone⟩ := parseFaults_eq_nil_or source
    · simp [hnone]
    · simp [hone]
  · have reads := Reads.of_parseSource h
    exact ⟨reads.parse_eq, reads.evalSource_eq⟩
  · have illFormed := IllFormed.of_parseSource h
    obtain rfl : failure = .illFormed (staticFaults source) :=
      Except.error.inj (h.symm.trans illFormed.parseSource_eq)
    exact ⟨rfl, illFormed.staticFaults_ne_nil, fun f hf => isStatic_of_mem_staticFaults hf,
      illFormed.evalSource_eq⟩
  · exact log.exists_faults_evalSource source
  · exact log.evalSource_fst_eq_some_iff
  · rw [evalSources_eq]
  · rw [evalSources_eq]

end Lox

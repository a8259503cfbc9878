import Lox.CommandLine
import Lox.Proofs.Source.Stages

set_option autoImplicit false

/-!
# Scripts

A script is evaluated with a log that is empty at first. The exit code is taken from the log, the standard
output from the answer of the evaluation, and the standard error from the log again. They never
contradict each other: a source text has a value, or a fault of its evaluation, or static faults, and the
log then holds nothing, or this one fault, or these faults.

## Main definitions

* `Lox.Failure.exit` — how a run ends that fails.
* `Lox.CommandLine.Outcome.ofResult` — the outcome that goes with a value or a failure.
* `Lox.CommandLine.NamesScript` — the arguments that name a script.

## Main results

* `Lox.CommandLine.script_eq` — the outcome for the text of a script.
* `Lox.CommandLine.run_script` — the same for the command.
* `Lox.CommandLine.script_has_one_outcome` — the three outcomes for scripts.
-/

namespace Lox

/-- How a run ends that fails: in one way for static faults, and in another for the fault of an
evaluation. -/
def Failure.exit : Failure → CommandLine.Exit
  | illFormed _ => .dataError
  | runtime _ => .software

namespace CommandLine

/-! ## The outcome for a text -/

/-- **The outcome that goes with the result of a source text**: a value is written to the standard output,
and a failure to the standard error. -/
def Outcome.ofResult : Except Failure Value → Outcome
  | .ok v => { stdout := v.display ++ "\n" }
  | .error failure => { exit := failure.exit, stderr := failure.text ++ "\n" }

/-- Lines that are ended one by one are lines that are joined, and ended once. -/
theorem join_map_newline {texts : List String} (h : texts ≠ []) :
    String.join (texts.map (· ++ "\n")) = "\n".intercalate texts ++ "\n" := by
  induction texts with
  | nil => exact absurd rfl h
  | cons text texts ih =>
    rw [List.map_cons, String.join_cons]
    cases texts with
    | nil => rw [List.map_nil, String.join_nil, String.intercalate_singleton, String.append_empty]
    | cons next texts =>
      rw [ih (List.cons_ne_nil _ _), String.intercalate_cons_cons]
      simp only [String.append_assoc]

/-- What is written of faults is the text of the failure that is made of them. -/
theorem stderr_shown {faults : List Fault} (h : faults ≠ []) (output : Option String) :
    (shown output ⟨faults⟩).stderr = "\n".intercalate (faults.map Fault.text) ++ "\n" := by
  have htexts : faults.map Fault.text ≠ [] := fun hnil => h (List.map_eq_nil_iff.mp hnil)
  rw [← join_map_newline htexts, List.map_map]
  rfl

/-- A run that leaves a log with nothing but static faults ends with a data error. -/
theorem ofLog_of_isStatic {faults : List Fault} (static : ∀ f ∈ faults, f.isStatic)
    (h : faults ≠ []) : Exit.ofLog ⟨faults⟩ = .dataError := by
  have hstatic : (Log.mk faults).hasStaticFault = true := by
    rw [Log.hasStaticFault, any_isStatic static]
    simpa using h
  rw [Exit.ofLog, if_pos hstatic]

/-- **The outcome for the text of a script** is the one that goes with its value or its failure.

**Proof sketch.** What the evaluation of a text adds to an empty log is known for a text with a value
(nothing), for one with a fault of its evaluation (this fault), and for one without an expression (its
static faults, of which there is one at least). -/
theorem script_eq (source : String) : script source = .ofResult (evalSource source) := by
  obtain ⟨e, reads⟩ | illFormed := reads_or_illFormed source
  · have heval (hlog : Log.empty.hasStaticFault = false) :
        Log.empty.evalSource source = Log.empty.eval e := by
      rw [reads.eval_eq, hlog]
      rfl
    obtain ⟨v, hvalue, -, -, hlog⟩ | ⟨fault, hfault, -, -, hlog⟩ := reads.output_or_fault
    · rw [script, heval rfl, hlog, hvalue]
      rfl
    -- the one fault that is shown is the text of the failure
    · rw [script, heval rfl, hlog, hfault]
      have hwritten := stderr_shown (List.cons_ne_nil (Fault.runtime fault) []) none
      simp only [Outcome.ofResult, Failure.text, Failure.faults, Failure.exit, ← hwritten]
      rfl
  · rw [script, illFormed.eval_eq, illFormed.evalSource_eq]
    have hne := illFormed.staticFaults_ne_nil
    have hexit := ofLog_of_isStatic (fun _ => isStatic_of_mem_staticFaults) hne
    have hwritten := stderr_shown hne none
    simp only [Outcome.ofResult, Failure.text, Failure.faults, Failure.exit, ← hwritten, ← hexit]
    rfl

/-! ## The command -/

/-- **The arguments that name a script**: all but the requests for help. -/
def NamesScript (argument : String) : Prop :=
  argument ≠ "--help" ∧ argument ≠ "-h"

instance (argument : String) : Decidable (NamesScript argument) :=
  inferInstanceAs (Decidable (_ ∧ _))

section Run

variable {files : String → Except ReadError (List UInt8)} {path : String}

/-- An argument that names a script runs the script. -/
theorem run_of_namesScript (named : NamesScript path) (input : List UInt8) :
    run files [path] input = scriptFile path (files path) := by
  rw [run, if_neg (not_or.mpr named)]

/-- The command on a script that is a text. -/
theorem run_script (named : NamesScript path) {source : String}
    (hread : (files path).bind decode = .ok source) (input : List UInt8) :
    run files [path] input = .ofResult (evalSource source) := by
  rw [run_of_namesScript named, scriptFile, hread, ← script_eq]

/-- **A script has one of three outcomes.** Its text has a value: the exit code is 0, the text of the value
is written to the standard output as a line, and nothing to the standard error. The text is no expression:
the exit code is 65, and all that is wrong with it is written to the standard error. Its evaluation comes
to a fault: the exit code is 70, and the fault is written to the standard error. In the last two cases
nothing is written to the standard output. So no script writes to both, and none that exits with code 0
writes nothing. -/
theorem script_has_one_outcome (named : NamesScript path) {source : String}
    (hread : (files path).bind decode = .ok source) (input : List UInt8) :
    (run files [path] input).exit.code ∈ [0, 65, 70] ∧
    ((run files [path] input).exit.code = 0 ↔ ∃ v, evalSource source = .ok v) ∧
    (∀ v, evalSource source = .ok v →
      (run files [path] input).stdout = v.display ++ "\n" ∧ (run files [path] input).stderr = "") ∧
    ((run files [path] input).exit.code = 65 ↔
      ∃ faults, evalSource source = .error (.illFormed faults)) ∧
    ((run files [path] input).exit.code = 70 ↔
      ∃ fault, evalSource source = .error (.runtime fault)) ∧
    (∀ failure, evalSource source = .error failure →
      (run files [path] input).stdout = "" ∧
        (run files [path] input).stderr = failure.text ++ "\n") ∧
    ((run files [path] input).stdout = "" ∨ (run files [path] input).stderr = "") ∧
    ((run files [path] input).exit.code = 0 → (run files [path] input).stdout ≠ "") := by
  rw [run_script named hread input]
  cases hresult : evalSource source with
  | ok v => simp [Outcome.ofResult, Exit.code]
  | error failure =>
    cases failure with
    | illFormed faults => simp [Outcome.ofResult, Failure.exit, Exit.code]
    | runtime fault => simp [Outcome.ofResult, Failure.exit, Exit.code]

end Run

/-- A stray character in front of an unfinished sum: the exit code tells that there are static faults, and
they are all written. -/
theorem script_has_one_outcome_stray :
    let files : String → Except ReadError (List UInt8) := fun _ => .ok [64, 49, 43]
    let outcome := run files ["sum.lox"] []
    NamesScript "sum.lox" ∧ (files "sum.lox").bind decode = .ok "@1+" ∧ outcome.exit.code = 65 ∧
      ∃ faults, evalSource "@1+" = .error (.illFormed faults) ∧ outcome.stdout = "" ∧
        outcome.stderr = (Failure.illFormed faults).text ++ "\n" := by
  intro files outcome
  have named : NamesScript "sum.lox" := by decide
  have hread : (files "sum.lox").bind decode = .ok "@1+" := rfl
  have hcode : outcome.exit.code = 65 := by decide +kernel
  obtain ⟨-, -, -, hsyntax, -, hfailure, -⟩ := script_has_one_outcome named hread []
  obtain ⟨faults, hfaults⟩ := hsyntax.mp hcode
  obtain ⟨hstdout, hstderr⟩ := hfailure _ hfaults
  exact ⟨named, hread, hcode, faults, hfaults, hstdout, hstderr⟩

end CommandLine

end Lox

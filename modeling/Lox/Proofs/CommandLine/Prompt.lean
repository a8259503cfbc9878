import Lox.Proofs.CommandLine.Script

set_option autoImplicit false

/-!
# Lines of input

All lines of the standard input share one log. As it is emptied behind each line that is evaluated, every
line finds it empty, and so does what it would do as a script of its own. Only the end of the run is not
that of a script: it tells whether all lines were texts.

## Main definitions

* `Lox.CommandLine.withoutReturn` — a line without the carriage return at its end.
* `Lox.CommandLine.LinesOf` — the lines of an input.
* `Lox.CommandLine.isText`, `Lox.CommandLine.isSpoken` — lines that are texts, and those that say something.
* `Lox.CommandLine.entries` — the lines that are evaluated.

## Main results

* `Lox.CommandLine.linesOf_iff` — an input has one list of lines.
* `Lox.CommandLine.promptWith_empty` — a run from an empty log.
* `Lox.CommandLine.lines_run_apart` — every line is treated like a script.
-/

namespace Lox

namespace CommandLine

/-! ## The lines of an input -/

/-- A line without the carriage return at its end, if there is one. -/
def withoutReturn (line : List UInt8) : List UInt8 :=
  if line.getLast? = some 13 then line.dropLast else line

/-- **The lines of an input.** The input is cut behind its line feeds. What is cut off is a line without
its line feed and without one carriage return in front of that; what is left is a line as it stands, unless
it is empty. -/
def LinesOf (input : List UInt8) (ls : List (List UInt8)) : Prop :=
  ∃ (ended : List (List UInt8)) (last : List UInt8), (∀ line ∈ ended, 10 ∉ line) ∧ 10 ∉ last ∧
    input = ended.flatMap (· ++ [10]) ++ last ∧
    ls = ended.map withoutReturn ++ if last.isEmpty then [] else [last]

/-- Only the last byte of a line can be dropped. -/
theorem withoutReturn_cons (b : UInt8) {line : List UInt8} (h : line ≠ []) :
    withoutReturn (b :: line) = b :: withoutReturn line := by
  obtain ⟨c, cs, rfl⟩ := List.exists_cons_of_ne_nil h
  rw [withoutReturn, withoutReturn, List.getLast?_cons_cons, List.dropLast_cons_cons]
  split <;> rfl

/-- A byte that begins no end of a line belongs to the line. -/
theorem lines_cons {b : UInt8} (hfeed : b ≠ 10) {rest line : List UInt8} {more : List (List UInt8)}
    (hreturn : b = 13 → rest.head? ≠ some 10) (h : lines rest = line :: more) :
    lines (b :: rest) = (b :: line) :: more := by
  unfold lines
  split <;> simp_all

/-- A single byte that is no line feed is a line. -/
theorem lines_singleton {b : UInt8} (hfeed : b ≠ 10) : lines [b] = [[b]] := by
  unfold lines
  split <;> simp_all [lines]

/-- What stands in front of the first line feed is the first line. -/
theorem lines_append_feed {line : List UInt8} (h : 10 ∉ line) (rest : List UInt8) :
    lines (line ++ 10 :: rest) = withoutReturn line :: lines rest := by
  induction line with
  | nil => rfl
  | cons b line ih =>
    have hb : b ≠ 10 := fun heq => h (heq ▸ List.mem_cons_self)
    have hline : 10 ∉ line := fun hmem => h (List.mem_cons_of_mem b hmem)
    cases line with
    | nil =>
      by_cases hreturn : b = 13
      · rw [hreturn]
        rfl
      · have hkept : withoutReturn [b] = [b] := if_neg (by simpa using hreturn)
        rw [hkept]
        exact lines_cons hb (fun heq => absurd heq hreturn) rfl
    | cons c cs =>
      have hc : c ≠ 10 := fun heq => hline (heq ▸ List.mem_cons_self)
      rw [withoutReturn_cons b (List.cons_ne_nil c cs)]
      exact lines_cons hb (fun _ => by simpa using hc) (ih hline)

/-- Without a line feed there is one line, or none if there is nothing. -/
theorem lines_of_not_mem {last : List UInt8} (h : 10 ∉ last) :
    lines last = if last.isEmpty then [] else [last] := by
  induction last with
  | nil => rfl
  | cons b last ih =>
    have hb : b ≠ 10 := fun heq => h (heq ▸ List.mem_cons_self)
    have hlast : 10 ∉ last := fun hmem => h (List.mem_cons_of_mem b hmem)
    cases last with
    | nil => exact lines_singleton hb
    | cons c cs =>
      have hc : c ≠ 10 := fun heq => hlast (heq ▸ List.mem_cons_self)
      exact lines_cons hb (fun _ => by simpa using hc) (ih hlast)

/-- The lines of an input that has been cut behind its line feeds. -/
theorem lines_flatMap {ended : List (List UInt8)} (h : ∀ line ∈ ended, 10 ∉ line)
    {last : List UInt8} (hlast : 10 ∉ last) :
    lines (ended.flatMap (· ++ [10]) ++ last) =
      ended.map withoutReturn ++ if last.isEmpty then [] else [last] := by
  induction ended with
  | nil => exact lines_of_not_mem hlast
  | cons line ended ih =>
    obtain ⟨hline, hended⟩ := List.forall_mem_cons.mp h
    rw [List.flatMap_cons, List.append_assoc, List.append_assoc, List.singleton_append,
      lines_append_feed hline, ih hended, List.map_cons, List.cons_append]

/-- Every input can be cut behind its line feeds. -/
theorem exists_flatMap (input : List UInt8) :
    ∃ (ended : List (List UInt8)) (last : List UInt8), (∀ line ∈ ended, 10 ∉ line) ∧ 10 ∉ last ∧
      input = ended.flatMap (· ++ [10]) ++ last := by
  induction input with
  | nil => exact ⟨[], [], by simp, by simp, rfl⟩
  | cons b input ih =>
    obtain ⟨ended, last, hended, hlast, rfl⟩ := ih
    by_cases hb : b = 10
    · exact ⟨[] :: ended, last, by simpa using hended, hlast, by simp [hb]⟩
    · cases ended with
      | nil => exact ⟨[], b :: last, by simp, by simp [Ne.symm hb, hlast], rfl⟩
      | cons line ended =>
        obtain ⟨hline, hended⟩ := List.forall_mem_cons.mp hended
        refine ⟨(b :: line) :: ended, last, List.forall_mem_cons.mpr ⟨?_, hended⟩, hlast, rfl⟩
        simp [Ne.symm hb, hline]

/-- **An input has one list of lines.** -/
theorem linesOf_iff {input : List UInt8} {ls : List (List UInt8)} :
    LinesOf input ls ↔ ls = lines input := by
  constructor
  · rintro ⟨ended, last, hended, hlast, rfl, rfl⟩
    exact (lines_flatMap hended hlast).symm
  · rintro rfl
    obtain ⟨ended, last, hended, hlast, rfl⟩ := exists_flatMap input
    exact ⟨ended, last, hended, hlast, rfl, lines_flatMap hended hlast⟩

/-! ## The lines that are evaluated -/

/-- Whether a line is a text. -/
def isText (line : List UInt8) : Bool :=
  (decode line).isOk

/-- Whether a line is a text with more in it than white space. -/
def isSpoken (line : List UInt8) : Bool :=
  match decode line with
  | .ok source => !(Text.trim source.toList).isEmpty
  | .error _ => false

/-- **The lines that are evaluated**: up to the first line that is no text, those that are not blank. -/
def entries (ls : List (List UInt8)) : List (List UInt8) :=
  (ls.takeWhile isText).filter isSpoken

/-- What a run over lines ends with: a complaint if one of them is no text, and else nothing. -/
def ending (ls : List (List UInt8)) : Outcome :=
  if ls.all isText then {}
  else { exit := .failure, stderr := "Error: stream did not contain valid UTF-8\n" }

section Entry

variable {line : List UInt8} (more : List (List UInt8))

/-- Only what is no text cannot be decoded. -/
theorem reason_of_decode {bytes : List UInt8} {reason : ReadError}
    (h : decode bytes = .error reason) : reason = .notText := by
  unfold decode at h
  split at h <;> cases h
  rfl

/-- A line that is no text is the last one, and not evaluated. -/
theorem entries_of_error {reason : ReadError} (h : decode line = .error reason) :
    entries (line :: more) = [] ∧
      ending (line :: more) = { exit := .failure, stderr := "Error: " ++ reason.message ++ "\n" } := by
  have htext : isText line = false := by rw [isText, h]; rfl
  rw [entries, List.takeWhile_cons, ending, List.all_cons, htext, reason_of_decode h]
  exact ⟨rfl, rfl⟩

/-- A line that is a text does not change what the run ends with, and is evaluated unless it is blank. -/
theorem entries_of_ok {source : String} (h : decode line = .ok source) :
    entries (line :: more) =
      (if (Text.trim source.toList).isEmpty then entries more else line :: entries more) ∧
      ending (line :: more) = ending more := by
  have htext : isText line = true := by rw [isText, h]; rfl
  have hspoken : isSpoken line = !(Text.trim source.toList).isEmpty := by rw [isSpoken, h]
  rw [entries, List.takeWhile_cons, htext, ending, List.all_cons, htext, if_pos rfl,
    List.filter_cons, hspoken]
  refine ⟨?_, rfl⟩
  cases (Text.trim source.toList).isEmpty <;> rfl

end Entry

/-! ## Lines as scripts -/

/-- **A line as a script**: the outcome for a script that has the line as its whole content. -/
def scriptOf (path : String) (line : List UInt8) : Outcome :=
  run (fun _ => .ok line) [path] []

/-- Scripts one after another, and then something that decides how all of it ends. -/
def inTurn (path : String) (scripts : List (List UInt8)) (last : Outcome) : Outcome :=
  scripts.foldr (fun line rest => (scriptOf path line).andThen rest) last

/-- What scripts one after another write, and how they end. -/
theorem inTurn_eq (path : String) (scripts : List (List UInt8)) (last : Outcome) :
    inTurn path scripts last =
      { exit := last.exit
        stdout := String.join (scripts.map fun line => (scriptOf path line).stdout) ++ last.stdout
        stderr := String.join (scripts.map fun line => (scriptOf path line).stderr) ++ last.stderr } := by
  induction scripts with
  | nil => simp [inTurn]
  | cons line scripts ih =>
    have hcons : inTurn path (line :: scripts) last =
        (scriptOf path line).andThen (inTurn path scripts last) := rfl
    rw [hcons, ih]
    simp only [Outcome.andThen, List.map_cons, String.join_cons, String.append_assoc]

section Run

variable {path : String} (named : NamesScript path)

include named

/-- The evaluation of a text with an empty log is shown as a script would be, but for the end of it. -/
theorem scriptOf_andThen {line : List UInt8} {source : String} (h : decode line = .ok source)
    (rest : Outcome) :
    (scriptOf path line).andThen rest =
      (shown (Log.empty.evalSource source).1 (Log.empty.evalSource source).2).andThen rest := by
  rw [scriptOf, run_of_namesScript named, scriptFile, Except.bind, h]
  rfl

/-- **A run from an empty log is scripts one after another.**

**Proof sketch.** Induction on the lines. Behind each line that is evaluated the log is empty again, whatever
the evaluation has added to it. -/
theorem promptWith_empty (ls : List (List UInt8)) :
    promptWith .empty ls = inTurn path (entries ls) (ending ls) := by
  induction ls with
  | nil => rfl
  | cons line more ih =>
    rw [promptWith]
    cases hline : decode line with
    | error reason =>
      obtain ⟨hentries, hending⟩ := entries_of_error more hline
      rw [hentries, hending]
      rfl
    | ok source =>
      obtain ⟨hentries, hending⟩ := entries_of_ok more hline
      have hreset (log : Log) : log.reset = .empty := rfl
      rw [hentries, hending]
      dsimp only
      split
      · exact ih
      · rw [hreset, ih]
        exact (scriptOf_andThen named hline _).symm

/-- **Every line of the input is treated by itself.** The lines that are not blank and stand in front of the
first one that is no text are treated as scripts: what is written is what these scripts write, one behind
another. If all lines are texts, the exit code is 0, whatever faults there are. Otherwise a complaint
follows on the standard error, and the exit code is 1. -/
theorem lines_run_apart (files : String → Except ReadError (List UInt8)) (input : List UInt8) :
    ∃ ls, (∀ ls', LinesOf input ls' ↔ ls' = ls) ∧
      (run files [] input).stdout =
        String.join ((entries ls).map fun line => (scriptOf path line).stdout) ∧
      (run files [] input).stderr =
        String.join ((entries ls).map fun line => (scriptOf path line).stderr) ++
          (if ls.all isText then "" else "Error: stream did not contain valid UTF-8\n") ∧
      (run files [] input).exit.code = if ls.all isText then 0 else 1 := by
  have hrun : run files [] input = inTurn path (entries (lines input)) (ending (lines input)) :=
    promptWith_empty named (lines input)
  refine ⟨lines input, fun ls' => linesOf_iff, ?_⟩
  rw [hrun, inTurn_eq, ending]
  cases (lines input).all isText with
  | true => exact ⟨String.append_empty, rfl, rfl⟩
  | false => exact ⟨String.append_empty, rfl, rfl⟩

end Run

/-- A sum, a blank line, a fault of an evaluation, a number, bytes that are no text, and a number behind
them. The fault keeps the first number from nothing, and the second one is not reached. -/
theorem lines_run_apart_six_lines :
    let input : List UInt8 :=
      [49, 43, 50, 13, 10, 10, 45, 110, 105, 108, 10, 51, 10, 255, 10, 52, 10]
    let outcome := run (fun _ => .error .notText) [] input
    NamesScript "line.lox" ∧
      lines input = [[49, 43, 50], [], [45, 110, 105, 108], [51], [255], [52]] ∧
      outcome.stdout = "3\n3\n" ∧ outcome.stderr = "Operand must be a number\n[line 1]\n" ++
        "Error: stream did not contain valid UTF-8\n" ∧ outcome.exit.code = 1 := by
  intro input outcome
  have named : NamesScript "line.lox" := by decide
  obtain ⟨ls, hlines, hstdout, hstderr, hcode⟩ :=
    lines_run_apart named (fun _ => .error .notText) input
  obtain rfl : lines input = ls := (hlines _).mp (linesOf_iff.mpr rfl)
  have hwritten :
      String.join ((entries (lines input)).map fun line => (scriptOf "line.lox" line).stdout) =
        "3\n3\n" := by
    decide +kernel
  have hreported :
      String.join ((entries (lines input)).map fun line => (scriptOf "line.lox" line).stderr) =
        "Operand must be a number\n[line 1]\n" := by
    decide +kernel
  have hnone : (lines input).all isText = false := by decide +kernel
  rw [hwritten] at hstdout
  rw [hreported, hnone] at hstderr
  rw [hnone] at hcode
  exact ⟨named, by decide +kernel, hstdout, hstderr, hcode⟩

end CommandLine

end Lox

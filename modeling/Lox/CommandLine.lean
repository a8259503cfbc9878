import Lox.Log
import Lox.Text.Blank

set_option autoImplicit false

/-!
# The command

The command evaluates the one expression of a script, or each line of its standard input. There is one
log for all lines, which is emptied after each of them. All of it is a function of the arguments, the
files and the input.

## Main definitions

* `Lox.CommandLine.Outcome` — what a run of the command writes, and how it ends.
* `Lox.CommandLine.shown` — what is written of an evaluation and of the log after it.
* `Lox.CommandLine.script` — the outcome for the text of a script.
* `Lox.CommandLine.prompt` — the outcome for lines of input.
* `Lox.CommandLine.run` — the outcome for a list of arguments.
-/

namespace Lox

namespace CommandLine

/-! ## Outcomes -/

/-- How a run of the command ends. -/
inductive Exit
  /-- The command did what it was asked to do. -/
  | success
  /-- The input could not be read. -/
  | failure
  /-- The arguments make no sense. -/
  | usage
  /-- The script is no expression. -/
  | dataError
  /-- The script could not be read. -/
  | noInput
  /-- The evaluation of the script stopped. -/
  | software
deriving DecidableEq, Repr

/-- The exit code. -/
def Exit.code : Exit → Nat
  | success => 0
  | failure => 1
  | usage => 64
  | dataError => 65
  | noInput => 66
  | software => 70

/-- What a run of the command writes, and how it ends. -/
structure Outcome where
  /-- How the run ends. -/
  exit : Exit := .success
  /-- What it writes to the standard output. -/
  stdout : String := ""
  /-- What it writes to the standard error. -/
  stderr : String := ""
deriving DecidableEq, Repr

/-- One run after another: the texts are joined, and the second run decides how both end. -/
def Outcome.andThen (first second : Outcome) : Outcome where
  exit := second.exit
  stdout := first.stdout ++ second.stdout
  stderr := first.stderr ++ second.stderr

/-- What is written of an evaluation: its output, if it has one, on a line of its own, and all faults of
the log, whatever they are faults of. -/
def shown (output : Option String) (log : Log) : Outcome where
  stdout := (output.map (· ++ "\n")).getD ""
  stderr := String.join (log.faults.map (·.text ++ "\n"))

/-- How a run ends that leaves a log behind: static faults come before others. -/
def Exit.ofLog (log : Log) : Exit :=
  if log.hasStaticFault then .dataError else if log.hasRuntimeFault then .software else .success

/-! ## Scripts -/

/-- Why there is no text to read. -/
inductive ReadError
  /-- The system refuses, and gives the number of its reason. -/
  | system (number : Nat)
  /-- The bytes encode no text. -/
  | notText
deriving DecidableEq, Repr

/-- The reason of the system with a given number, in words. -/
def systemReason : Nat → String
  | 2 => "No such file or directory"
  | 5 => "Input/output error"
  | 13 => "Permission denied"
  | 20 => "Not a directory"
  | 21 => "Is a directory"
  | 24 => "Too many open files"
  | 36 => "File name too long"
  | 40 => "Too many levels of symbolic links"
  | number => "Unknown error " ++ toString number

/-- The reason in words. -/
def ReadError.message : ReadError → String
  | system number => systemReason number ++ " (os error " ++ toString number ++ ")"
  | notText => "stream did not contain valid UTF-8"

/-- The outcome for the text of a script: the value, or the faults. -/
def script (source : String) : Outcome :=
  let (output, log) := Log.empty.evalSource source
  { shown output log with exit := .ofLog log }

/-- The text that bytes encode. -/
def decode (bytes : List UInt8) : Except ReadError String :=
  match String.fromUTF8? bytes.toByteArray with
  | some text => .ok text
  | none => .error .notText

/-- The outcome for the script in a file of the given path and content. -/
def scriptFile (path : String) (content : Except ReadError (List UInt8)) : Outcome :=
  match content.bind decode with
  | .ok source => script source
  | .error reason => { exit := .noInput, stderr := path ++ ": " ++ reason.message ++ "\n" }

/-! ## Input -/

/-- The lines of an input. A line ends at a line feed (byte 10), or at a carriage return (byte 13)
with a line feed, and what follows the last of these is a line unless it is empty. -/
def lines : List UInt8 → List (List UInt8)
  | [] => []
  | 10 :: rest => [] :: lines rest
  | 13 :: 10 :: rest => [] :: lines rest
  | b :: rest => match lines rest with
    | [] => [[b]]
    | line :: more => (b :: line) :: more

/-- The outcome for lines of input with a log that may hold faults of earlier lines. Blank lines are
skipped, and a line that is no text ends the run. Any other line is evaluated, the log is shown, and all
its faults are forgotten before the next line. -/
def promptWith (log : Log) : List (List UInt8) → Outcome
  | [] => {}
  | line :: more => match decode line with
    | .error reason => { exit := .failure, stderr := "Error: " ++ reason.message ++ "\n" }
    | .ok source =>
      if (Text.trim source.toList).isEmpty then promptWith log more
      else
        let (output, log) := log.evalSource source
        (shown output log).andThen (promptWith log.reset more)

/-- The outcome for lines of input. -/
def prompt : List (List UInt8) → Outcome :=
  promptWith .empty

/-! ## Arguments -/

/-- How the command is used. -/
def usageText : String :=
  "Usage: lox [script]\n\n" ++
    "Without a script, starts an interactive prompt.\n" ++
    "Set RUST_LOG=debug to trace each pipeline stage.\n"

/-- The outcome for a list of arguments, with the content of files and of the standard input. -/
def run (files : String → Except ReadError (List UInt8)) (arguments : List String)
    (input : List UInt8) : Outcome :=
  match arguments with
  | [] => prompt (lines input)
  | [argument] =>
    if argument = "--help" ∨ argument = "-h" then { stderr := usageText }
    else scriptFile argument (files argument)
  | _ => { exit := .usage, stderr := usageText }

end CommandLine

end Lox

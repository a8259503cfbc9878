import Lox.CommandLine

set_option autoImplicit false

/-!
# The command as a program

Reads the files and the input that the command asks for, and writes its outcome.

## Main definitions

* `main` — the entry point.
-/

namespace Lox

namespace CommandLine

/-- The number of a reason of the system, which some calls give with a minus. -/
def errorNumber : IO.Error → Nat
  | .noFileOrDirectory _ code _ | .interrupted _ code _ | .alreadyExists _ code _
  | .invalidArgument _ code _ | .permissionDenied _ code _ | .resourceExhausted _ code _
  | .inappropriateType _ code _ | .noSuchThing _ code _ | .otherError code _
  | .resourceBusy code _ | .resourceVanished code _ | .unsupportedOperation code _
  | .hardwareFault code _ | .unsatisfiedConstraints code _ | .illegalOperation code _
  | .protocolError code _ | .timeExpired code _ => code.toInt32.toInt.natAbs
  | .unexpectedEof | .userError _ => 5

/-- The bytes of a file. -/
def readFile (path : String) : IO (Except ReadError (List UInt8)) := do
  try
    let content ← IO.FS.readBinFile path
    return .ok content.toList
  catch error => return .error (.system (errorNumber error))

/-- The bytes of the standard input, up to its end. -/
partial def readInput (stream : IO.FS.Stream) (bytes : ByteArray) : IO ByteArray := do
  let chunk ← stream.read 4096
  if chunk.isEmpty then return bytes else readInput stream (bytes ++ chunk)

end CommandLine

end Lox

open Lox.CommandLine in
/-- Runs the command. -/
def main (arguments : List String) : IO UInt32 := do
  let content ← match arguments with
    | [path] => readFile path
    | _ => pure (.error .notText)
  let input ← match arguments with
    | [] => readInput (← IO.getStdin) .empty
    | _ => pure .empty
  let outcome := run (fun _ => content) arguments input.toList
  (← IO.getStdout).putStr outcome.stdout
  (← IO.getStderr).putStr outcome.stderr
  return UInt32.ofNat outcome.exit.code

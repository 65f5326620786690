import ExprMachine.Cli.Action
import ExprMachine.Cli.FileError

/-!
# The program

Carries out the plan for its arguments on the files and streams of the system.
-/

namespace ExprMachine.Cli

/-- The number of a reason, which the system reports with either sign. -/
def unsignedNumber (code : UInt32) : Nat := min code.toNat (0 - code).toNat

/-- A system's error in words. -/
def systemReason (error : IO.Error) : String :=
  match error with
  | .noFileOrDirectory _ code _ | .inappropriateType _ code _ | .permissionDenied _ code _ =>
    ((FileError.ofNumber? (unsignedNumber code)).map FileError.message).getD (toString error)
  | _ => toString error

/-- The bytes up to the next newline, which is read, or to the end of the input. -/
def readLine (stdin : IO.FS.Stream) : IO (List UInt8) := do
  let mut line : Array UInt8 := #[]
  let mut reading := true
  while reading do
    match (← stdin.read 1).toList with
    | [] => reading := false
    | byte :: _ =>
      line := line.push byte
      reading := byte ≠ 10
  return line.toList

/-- A conversation on the standard streams, line by line; the answer is the exit code. -/
def converseInteractively (limits : Limits) : IO UInt32 := do
  let stdin ← IO.getStdin
  let stdout ← IO.getStdout
  while true do
    stdout.putStr Repl.prompt
    stdout.flush
    match ← readLine stdin with
    | [] => return 0
    | line =>
      match Text.ofUtf8? line with
      | some text => stdout.putStr (Repl.respond text limits)
      | none =>
        let report := Report.ofTranscript ⟨"", true⟩
        IO.eprint report.stderr
        return UInt32.ofNat report.code
  return 0

/-- Carries out an action; the answer is the exit code. -/
def Action.perform : Action → IO UInt32
  | .finish report => do
    IO.print report.stdout
    IO.eprint report.stderr
    return UInt32.ofNat report.code
  | .converse => converseInteractively {}
  | .read path next => do
    let contents ←
      try
        let bytes ← IO.FS.readBinFile path
        pure (Except.ok bytes.toList)
      catch error => pure (.error (systemReason error))
    (next contents).perform
  | .write path bytes next => do
    let outcome ←
      try
        IO.FS.writeBinFile path ⟨bytes.toArray⟩
        pure (Except.ok ())
      catch error => pure (.error (systemReason error))
    (next outcome).perform

end ExprMachine.Cli

/-- The program. -/
def main (args : List String) : IO UInt32 := (ExprMachine.Cli.Action.ofArgs args).perform

import PuzzleKit.Command.Program

/-!
# The command line

Runs the program on the file system.
-/

namespace PuzzleKit.Command

/-- The number of an error, which the system may report negated. -/
def errorNumber (code : UInt32) : Nat := Nat.min code.toNat (0 - code).toNat

/-- What the file system says about a path. -/
def readFile (path : String) : IO (Except ReadError ByteArray) := do
  try
    return .ok (← IO.FS.readBinFile path)
  catch
    | .inappropriateType _ code _ =>
      return .error (if errorNumber code = 20 then .notDirectory else .isDirectory)
    | .invalidArgument _ code _ =>
      return .error (if errorNumber code = 36 then .nameTooLong else .unexpectedNul)
    | _ => return .error .notFound

end PuzzleKit.Command

open PuzzleKit Command in
def main (args : List String) : IO UInt32 := do
  let outcome ← execute readFile IO.monoNanosNow args
  (← IO.getStdout).putStr outcome.output
  (← IO.getStderr).putStr outcome.errors
  return UInt32.ofNat outcome.exitCode

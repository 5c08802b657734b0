import PuzzleKit.Command.Arguments
import PuzzleKit.Command.Files
import PuzzleKit.Puzzle.Console

/-!
# The program

The program reads the input of a day and runs the solution that is registered
for it, printing the events of the run. How a file is read is a parameter, so
the program can be run on a tree of files as well as on a file system.
-/

namespace PuzzleKit.Command

/-- A failure with what led to it. -/
structure Failure where
  message : String
  cause : String
deriving DecidableEq

/-- How the program reports a failure. -/
def Failure.report (f : Failure) : String :=
  "Error: " ++ f.message ++ "\n\nCaused by:\n    " ++ f.cause ++ "\n"

/-- The number of a day, in at least two digits. -/
def dayDigits (day : Word .u8) : String :=
  String.ofList (Decimal.padded 2 day.val.toNat)

/-- Where the input of a day is kept. -/
def defaultPath (day : Word .u8) : String := s!"aoc_input/day{dayDigits day}.txt"

/-- The path to read the input of a day from, and how a failure is put. -/
def inputSource (day : Word .u8) : Option String → String × String
  | some path => (path, "could not read input file at: " ++ path)
  | none =>
    (defaultPath day, "default input file missing: " ++ defaultPath day ++
      "\n\nsave the puzzle input there or pass --input <FILE>")

/-- The text of a file that has been read. -/
def textOf : Except ReadError ByteArray → Except ReadError String
  | .error e => .error e
  | .ok content =>
    match String.fromUTF8? content with
    | some text => .ok text
    | none => .error .notText

/-- Read the input of a day, from a given path or from where it is kept. -/
def readInput {m : Type → Type} [Monad m] (read : String → m (Except ReadError ByteArray))
    (day : Word .u8) (input : Option String) : m (Except Failure String) := do
  let (path, message) := inputSource day input
  return (textOf (← read path)).mapError fun e => ⟨message, e.message⟩

/-- Why the solution of a day has no result. -/
inductive DayError
  | notAvailable (day : Nat)
  | failed (message : String)
deriving DecidableEq

def DayError.message : DayError → String
  | .notAvailable day => s!"no solution available for day {day}"
  | .failed message => message

/-- The solutions by day. None is registered yet. -/
def solutions (m : Type → Type) : List (Nat × (String → Clock m → m (Report DayError Unit))) := []

/-- Run the solution of a day. -/
def runDay {m : Type → Type} [Monad m] (day : Word .u8) (input : String) (clock : Clock m) :
    m (Report DayError Unit) :=
  match (solutions m).find? fun (n, _) => n = day.val.toNat with
  | some (_, run) => run input clock
  | none => return ⟨[], [], .error (.notAvailable day.val.toNat)⟩

/-- What the program leaves behind. -/
structure Outcome where
  exitCode : Nat
  output : String
  errors : String
deriving DecidableEq

def usageText : String := "Usage: advent-of-code-2025 [OPTIONS] <DAY>\n"

def versionText : String := "advent-of-code-2025 0.1.0\n"

def Refusal.outcome : Refusal → Outcome
  | .usage => ⟨2, "", usageText⟩
  | .help => ⟨0, usageText, ""⟩
  | .version => ⟨0, versionText, ""⟩

/-- A failure ends the program with exit code 1, after what was printed. -/
def Failure.outcome (printed : String) (f : Failure) : Outcome := ⟨1, printed, f.report⟩

/-- What is printed for the events of a run, each text on a line of its own. -/
def printed (minimum : Duration) (events : List Event) : String :=
  String.join ((events.filterMap (Console.print minimum)).map fun text => text ++ "\n")

/-- Run the program, with a clock at hand for timed runs. -/
def execute {m : Type → Type} [Monad m] (read : String → m (Except ReadError ByteArray))
    (now : m Nat) (args : List String) : m Outcome := do
  match Arguments.parse args with
  | .error refusal => return refusal.outcome
  | .ok arguments =>
    match ← readInput read arguments.day arguments.input with
    | .error failure => return failure.outcome ""
    | .ok input => do
      let report ← runDay arguments.day input (if arguments.timed then some now else none)
      let minimum := Duration.ofMilliseconds arguments.minTimingMs.val.toNat
      let output := printed minimum report.events
      match report.outcome with
      | .ok () => return ⟨0, output, ""⟩
      | .error e => return Failure.outcome output ⟨"failed to run solution", e.message⟩

end PuzzleKit.Command

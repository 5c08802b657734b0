import PuzzleKit.Log
import PuzzleKit.Puzzle.Duration
import PuzzleKit.Puzzle.Part

/-!
# Running solutions

A run reports its steps as events: the name of the solution, then the parsing
of the input if the solution asks for it, then each part it has. A step that
fails has begun and not ended, and nothing comes after it: no event, and no call
of a later parser or solver either. To be able to say so, parsers and solvers
may have effects.

What a run leaves is a report: the events and the log entries in order, and the
outcome. Reports are put together by `andThen`, which goes on only from a step
that succeeded, and this is all that the four kinds of run consist of.
-/

namespace PuzzleKit

inductive Event
  | named (name : String)
  | parseStarted
  | parseEnded (duration : Option Duration)
  | partStarted (part : Part)
  | partSolved (part : Part) (output : String) (duration : Option Duration)
deriving DecidableEq

/-- What a run did, up to its end or its failure with an `E`. -/
structure Report (E α : Type) where
  events : List Event
  log : List LogEntry
  outcome : Except E α

variable {m : Type → Type} [Monad m]

/-- Go on after a success. -/
def Report.andThen {E α β : Type} (step : m (Report E α)) (next : α → m (Report E β)) :
    m (Report E β) := do
  let r ← step
  match r.outcome with
  | .error e => return ⟨r.events, r.log, .error e⟩
  | .ok a => do
    let s ← next a
    return ⟨r.events ++ s.events, r.log ++ s.log, s.outcome⟩

/-- A clock for a run that is timed; it tells nanoseconds. -/
abbrev Clock (m : Type → Type) := Option (m Nat)

/-- A step together with the time it took, if there is a clock. -/
def Clock.measure {α : Type} (clock : Clock m) (step : m α) : m (α × Option Duration) :=
  match clock with
  | none => do return (← step, none)
  | some now => do
    let start ← now
    let a ← step
    let stop ← now
    return (a, some (Duration.ofNanoseconds (stop - start)))

namespace Runner

variable {E D : Type}

/-- A run begins by saying what it runs. -/
def announce (name : String) (clock : Clock m) : m (Report E Unit) :=
  return ⟨[.named name], [⟨.trace, s!"running {name} (timed: {clock.isSome})"⟩], .ok ()⟩

/-- The parsing of the input. Its length is counted in bytes. -/
def parse (parser : String → m (Except E D)) (input : String) (clock : Clock m) :
    m (Report E D) := do
  match ← clock.measure (parser input) with
  | (.error e, _) => return ⟨[.parseStarted], [], .error e⟩
  | (.ok data, duration) =>
    return ⟨[.parseStarted, .parseEnded duration],
      [⟨.trace, s!"parsed {input.utf8ByteSize} bytes of input"⟩], .ok data⟩

/-- How the log shows a duration. Its value differs from run to run and is left
out. -/
def loggedDuration : Option Duration → String
  | none => "None"
  | some _ => "Some(_)"

/-- The solution of a part. -/
def solve (part : Part) (solver : D → m (Except E String)) (data : D) (clock : Clock m) :
    m (Report E Unit) := do
  match ← clock.measure (solver data) with
  | (.error e, _) => return ⟨[.partStarted part], [], .error e⟩
  | (.ok output, duration) =>
    return ⟨[.partStarted part, .partSolved part output duration],
      [⟨.trace, s!"{part.toText} solved in {loggedDuration duration}"⟩], .ok ()⟩

/-- Solve part one of the input as it is. -/
def half (name : String) (one : String → m (Except E String)) (input : String)
    (clock : Clock m) : m (Report E Unit) :=
  Report.andThen (announce name clock) fun _ => solve .one one input clock

/-- Solve both parts of the input as it is. -/
def full (name : String) (one two : String → m (Except E String)) (input : String)
    (clock : Clock m) : m (Report E Unit) :=
  Report.andThen (announce name clock) fun _ =>
    Report.andThen (solve .one one input clock) fun _ => solve .two two input clock

/-- Parse the input and solve part one. -/
def parsedHalf (name : String) (parser : String → m (Except E D))
    (one : D → m (Except E String)) (input : String) (clock : Clock m) : m (Report E Unit) :=
  Report.andThen (announce name clock) fun _ =>
    Report.andThen (parse parser input clock) fun data => solve .one one data clock

/-- Parse the input once and solve both parts. -/
def parsedFull (name : String) (parser : String → m (Except E D))
    (one two : D → m (Except E String)) (input : String) (clock : Clock m) :
    m (Report E Unit) :=
  Report.andThen (announce name clock) fun _ =>
    Report.andThen (parse parser input clock) fun data =>
      Report.andThen (solve .one one data clock) fun _ => solve .two two data clock

end Runner

end PuzzleKit

import PuzzleKit.Puzzle.Runner

/-!
# Events on a console

The lines that a console shows for the events of a run. A duration is shown if
it is not less than a given minimum.
-/

namespace PuzzleKit.Console

/-- The text of a duration, if it is to be shown. -/
def shown (minimum : Duration) (duration : Option Duration) : Option String :=
  match duration with
  | none => none
  | some d => if minimum.toNanoseconds ≤ d.toNanoseconds then some d.toText else none

/-- The text printed for an event, if any. -/
def print (minimum : Duration) : Event → Option String
  | .named name => some s!"= {name} ="
  | .parseStarted => none
  | .parseEnded duration => (shown minimum duration).map fun d => s!"Input parsed in {d}"
  | .partStarted part => some s!"-- {part.toText} --"
  | .partSolved _ output duration =>
    match shown minimum duration with
    | some d => some s!"{output} ({d})"
    | none => some output

end PuzzleKit.Console

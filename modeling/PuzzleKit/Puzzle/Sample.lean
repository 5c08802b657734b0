import PuzzleKit.Integer.Numeral
import PuzzleKit.Puzzle.Runner
import PuzzleKit.Text.Line

/-!
# Sample solutions

Two small solutions that exercise every kind of run: one adds up the numbers of
its parsed input and finds the greatest, the other counts lines of the raw
input and shows the first.
-/

namespace PuzzleKit.Sample

/-- How a solution fails: with a message of its own, or by an arithmetic
fault. -/
inductive Failure
  | message (text : String)
  | fault (fault : ArithmeticFault)

/-- The numbers of an input, separated by blanks. -/
def numbers (input : String) : Except Failure (List (Word .i64)) :=
  (Text.words input.toList).mapM fun word =>
    (Word.parse .i64 word).mapError fun e => Failure.message e.message

/-- The sum, from the left, which must not be negative. -/
def sum (values : List (Word .i64)) : Except Failure String := do
  let total ← (values.foldlM Word.add 0).mapError Failure.fault
  if total.val < 0 then .error (.message s!"negative sum {total.toText}")
  else return total.toText

/-- The greatest number. -/
def greatest : List (Word .i64) → Except Failure String
  | [] => .error (.message "no numbers")
  | a :: values => .ok (values.foldl max a).toText

/-- The number of lines, of which there must be one. -/
def countLines (input : String) : Except Failure String :=
  match (Text.lines input.toList).length with
  | 0 => .error (.message "no lines")
  | n => .ok (toString n)

/-- The first line without the blanks around it, which must leave something. -/
def firstLine (input : String) : Except Failure String :=
  match Text.trim ((Text.lines input.toList).head?.getD []) with
  | [] => .error (.message "blank first line")
  | line => .ok (String.ofList line)

/-- A run of a sample, on an input and by a clock. -/
abbrev Run := String → Clock Id → Report Failure Unit

def half (name : String) : Run := Runner.half (m := Id) name countLines

def full (name : String) : Run := Runner.full (m := Id) name countLines firstLine

def parsedHalf (name : String) : Run := Runner.parsedHalf (m := Id) name numbers sum

def parsedFull (name : String) : Run := Runner.parsedFull (m := Id) name numbers sum greatest

/-! The samples as they are registered, each under a name of its own or under
the number of a day. -/

def registeredHalf : Run := half "Named: half"

def registeredFull : Run := full "Day 12"

def registeredParsedHalf : Run := parsedHalf "Parsed half"

def registeredParsedFull : Run := parsedFull "Day 4"

/-- The sample of a kind. One that is not registered takes the given name. -/
def ofKind? (name : String) : String → Option Run
  | "half" => some (half name)
  | "full" => some (full name)
  | "parsed_half" => some (parsedHalf name)
  | "parsed_full" => some (parsedFull name)
  | "registered_half" => some registeredHalf
  | "registered_full" => some registeredFull
  | "registered_parsed_half" => some registeredParsedHalf
  | "registered_parsed_full" => some registeredParsedFull
  | _ => none

end PuzzleKit.Sample

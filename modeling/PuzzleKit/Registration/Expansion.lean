import PuzzleKit.Registration.Item
import PuzzleKit.Registration.Property

/-!
# Generated runners

What is generated for an annotated item: an implementation of the runner trait
that calls one of four functions with the name of the solution and the types of
its parts. Which function it is follows from whether the input is parsed and
whether there is a second part. Faults of the settings come before those of the
item, and these before those of the properties taken together.
-/

namespace PuzzleKit.Registration

/-- The kinds of run that a generated runner can call. -/
inductive Entry
  | half
  | full
  | parsedHalf
  | parsedFull
deriving DecidableEq

def Entry.function : Entry → String
  | .half => "solve_half_solution"
  | .full => "solve_full_solution"
  | .parsedHalf => "solve_parsed_half_solution"
  | .parsedFull => "solve_parsed_full_solution"

structure Expansion where
  selfType : String
  name : NameValue
  entry : Entry
  /-- The type of the parsed input, if it is parsed, and those of the parts. -/
  types : List String
deriving DecidableEq

namespace Expansion

/-- The trait that is implemented. -/
def traitPath : String := "aoc_framework::runner::SolutionRunner"

/-- What is handed on to the function after the name. -/
def arguments : List String := ["input", "handler", "timed"]

/-- The function to call, with its types. -/
def call (parsed : Option String) (partOne : String) (partTwo : Option String) :
    Entry × List String :=
  match parsed, partTwo with
  | none, none => (.half, [partOne])
  | none, some two => (.full, [partOne, two])
  | some data, none => (.parsedHalf, [data, partOne])
  | some data, some two => (.parsedFull, [data, partOne, two])

/-- The runner of an item with the given properties. -/
def ofProperties (p : Properties) (item : Item) : Except RegistrationError Expansion := do
  let selfType ← match item.runnerType? with
    | some type => pure type
    | none => throw .wrongItem
  let name ← p.runnerName
  let partOne ← match p.partOne with
    | some type => pure type
    | none => throw .noPartOne
  let (entry, types) := call p.parsed partOne p.partTwo
  return ⟨selfType, name, entry, types⟩

/-- The runner of an item with the given settings. -/
def ofSettings (settings : List Setting) (item : Item) : Except RegistrationError Expansion := do
  let p ← Properties.ofSettings settings
  ofProperties p item

end Expansion

end PuzzleKit.Registration

/-!
# Parts of a puzzle

A puzzle has two parts, solved one after the other.
-/

namespace PuzzleKit

inductive Part
  | one
  | two
deriving DecidableEq

namespace Part

def number : Part → Nat
  | one => 1
  | two => 2

def name : Part → String
  | one => "One"
  | two => "Two"

def toText (p : Part) : String := s!"Part {p.number}"

end Part

end PuzzleKit

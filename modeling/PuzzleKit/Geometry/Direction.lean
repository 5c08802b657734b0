import PuzzleKit.Text.Quoted

/-!
# Compass directions

The eight directions on a plane with screen orientation: `x` grows to the
east, `y` grows to the south, and turning clockwise counts up from north in
eighths of a full turn. Every other description of a direction (degrees, unit
offset, letter, arrow) is read off that count or off the offset, and looking a
direction up by such a description can fail.
-/

namespace PuzzleKit

inductive Axis
  | x
  | y
deriving DecidableEq

namespace Axis

def opposite : Axis → Axis
  | x => y
  | y => x

def name : Axis → String
  | x => "X"
  | y => "Y"

end Axis

inductive Direction
  | north
  | northEast
  | east
  | southEast
  | south
  | southWest
  | west
  | northWest
deriving DecidableEq, Hashable

/-- Why a description names no direction. -/
inductive DirectionError
  | degrees (angle : Int)
  | offset (dx dy : Int)
  | letter (c : Char)
deriving DecidableEq

def DirectionError.message : DirectionError → String
  | .degrees angle => s!"degrees {angle} do not name a direction, expected a multiple of 45"
  | .offset dx dy => s!"offset ({dx}, {dy}) is not a unit step"
  | .letter c => s!"character {Text.quoteChar c} does not name a cardinal direction"

/-- The name of the kind of description that failed. -/
def DirectionError.kind : DirectionError → String
  | .degrees _ => "Degrees"
  | .offset _ _ => "Offset"
  | .letter _ => "Char"

namespace Direction

def cardinal : List Direction := [north, east, south, west]

def ordinal : List Direction := [northEast, southEast, southWest, northWest]

/-- All eight directions, the cardinal ones first. -/
def all : List Direction := cardinal ++ ordinal

/-- Groups of directions, by name. -/
def group? : String → Option (List Direction)
  | "cardinal" => some cardinal
  | "ordinal" => some ordinal
  | "all" => some all
  | _ => none

/-- The clockwise angle from north, in eighths of a full turn. -/
def eighths : Direction → Nat
  | north => 0
  | northEast => 1
  | east => 2
  | southEast => 3
  | south => 4
  | southWest => 5
  | west => 6
  | northWest => 7

/-- The direction at a number of eighths of a turn from north, full turns
left out. -/
def ofEighths (n : Int) : Direction :=
  match (n % 8).toNat with
  | 0 => north
  | 1 => northEast
  | 2 => east
  | 3 => southEast
  | 4 => south
  | 5 => southWest
  | 6 => west
  | _ => northWest

/-- Directions are ordered clockwise from north. -/
instance : Ord Direction := ⟨fun a b => compare a.eighths b.eighths⟩

/-- The clockwise angle from north, below 360. -/
def degrees (d : Direction) : Int := 45 * d.eighths

def dx : Direction → Int
  | north => 0
  | northEast => 1
  | east => 1
  | southEast => 1
  | south => 0
  | southWest => -1
  | west => -1
  | northWest => -1

def dy : Direction → Int
  | north => -1
  | northEast => -1
  | east => 0
  | southEast => 1
  | south => 1
  | southWest => 1
  | west => 0
  | northWest => -1

/-- The axis that a cardinal direction moves along. -/
def axis? : Direction → Option Axis
  | north => some .y
  | south => some .y
  | east => some .x
  | west => some .x
  | _ => none

def isCardinal (d : Direction) : Bool := d.axis?.isSome

def axisOffset (d : Direction) : Axis → Int
  | .x => d.dx
  | .y => d.dy

/-- Turn clockwise by eighths of a full turn. -/
def turn (d : Direction) (n : Int) : Direction := ofEighths (d.eighths + n)

def opposite (d : Direction) : Direction := d.turn 4

def clockwise (d : Direction) : Direction := d.turn 2

def counterClockwise (d : Direction) : Direction := d.turn 6

/-- The direction at a clockwise angle from north, of any sign and size. -/
def ofDegrees (degrees : Int) : Except DirectionError Direction :=
  if degrees % 45 = 0 then .ok (ofEighths (degrees / 45)) else .error (.degrees degrees)

/-- Turn clockwise by an angle of any sign and size. -/
def rotate (d : Direction) (degrees : Int) : Except DirectionError Direction :=
  if degrees % 45 = 0 then ofDegrees (d.degrees + degrees % 360) else .error (.degrees degrees)

/-- The direction with the given unit step. -/
def ofOffset (dx dy : Int) : Except DirectionError Direction :=
  match all.find? fun d => d.dx = dx ∧ d.dy = dy with
  | some d => .ok d
  | none => .error (.offset dx dy)

/-- The cardinal direction of a compass letter, of the first letter of up,
right, down and left, or of an arrow. -/
def ofChar (c : Char) : Except DirectionError Direction :=
  if c = 'N' ∨ c = 'U' ∨ c = '^' then .ok north
  else if c = 'E' ∨ c = 'R' ∨ c = '>' then .ok east
  else if c = 'S' ∨ c = 'D' ∨ c = 'v' then .ok south
  else if c = 'W' ∨ c = 'L' ∨ c = '<' then .ok west
  else .error (.letter c)

/-- The character for a cardinal direction, from those for the four of them
in clockwise order. -/
def cardinalChar (up right down left : Char) : Direction → Option Char
  | north => some up
  | east => some right
  | south => some down
  | west => some left
  | _ => none

def compassLetter (d : Direction) : Option Char := d.cardinalChar 'N' 'E' 'S' 'W'

def screenLetter (d : Direction) : Option Char := d.cardinalChar 'U' 'R' 'D' 'L'

def arrow (d : Direction) : Option Char := d.cardinalChar '^' '>' 'v' '<'

def toText : Direction → String
  | north => "north"
  | northEast => "north-east"
  | east => "east"
  | southEast => "south-east"
  | south => "south"
  | southWest => "south-west"
  | west => "west"
  | northWest => "north-west"

/-- The name by which a direction is referred to in data. -/
def name : Direction → String
  | north => "North"
  | northEast => "NorthEast"
  | east => "East"
  | southEast => "SouthEast"
  | south => "South"
  | southWest => "SouthWest"
  | west => "West"
  | northWest => "NorthWest"

end Direction

def Axis.all : List Axis := [.x, .y]

/-- The two directions along an axis. -/
def Axis.directions : Axis → List Direction
  | .x => [.east, .west]
  | .y => [.north, .south]

end PuzzleKit

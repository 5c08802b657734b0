import PuzzleKit.Geometry.Direction

/-!
# Directions in space

The six directions along one axis of space. Four of them are the cardinal
directions of the plane; up and down move along the third axis.
-/

namespace PuzzleKit

inductive SpatialAxis
  | x
  | y
  | z
deriving DecidableEq

def SpatialAxis.name : SpatialAxis → String
  | .x => "X"
  | .y => "Y"
  | .z => "Z"

inductive SpatialDirection
  | north
  | east
  | south
  | west
  | up
  | down
deriving DecidableEq

namespace SpatialDirection

def all : List SpatialDirection := [north, east, south, west, up, down]

/-- The place of a direction in the list of all of them. -/
def rank : SpatialDirection → Nat
  | north => 0
  | east => 1
  | south => 2
  | west => 3
  | up => 4
  | down => 5

instance : Ord SpatialDirection := ⟨fun a b => compare a.rank b.rank⟩

def name : SpatialDirection → String
  | north => "North"
  | east => "East"
  | south => "South"
  | west => "West"
  | up => "Up"
  | down => "Down"

/-- The unit step along `x`, `y` and `z`. -/
def offset : SpatialDirection → Int × Int × Int
  | north => (0, -1, 0)
  | east => (1, 0, 0)
  | south => (0, 1, 0)
  | west => (-1, 0, 0)
  | up => (0, 0, 1)
  | down => (0, 0, -1)

def axis : SpatialDirection → SpatialAxis
  | north => .y
  | south => .y
  | east => .x
  | west => .x
  | up => .z
  | down => .z

def opposite : SpatialDirection → SpatialDirection
  | north => south
  | east => west
  | south => north
  | west => east
  | up => down
  | down => up

/-- The same direction on the plane, if it lies there. -/
def toPlanar : SpatialDirection → Option Direction
  | north => some .north
  | east => some .east
  | south => some .south
  | west => some .west
  | _ => none

/-- The same direction in space. An ordinal direction moves along two axes,
and its angle is what is complained about. -/
def ofPlanar (d : Direction) : Except DirectionError SpatialDirection :=
  match all.find? fun s => s.toPlanar = some d with
  | some s => .ok s
  | none => .error (.degrees d.degrees)

end SpatialDirection

end PuzzleKit

import PuzzleKit.Graph.Weighted
import PuzzleKit.Grid.Query
import PuzzleKit.Grid.Text

/-!
# Mazes

A maze is a grid of characters in which `#` is a wall, `S` the start and `E`
the target; without a target no coordinate of the maze is one. What is asked of
a maze is an instance of a search: step counts, what can be reached, the
cheapest way if turning costs extra, and the number of ways that only go right
or down.
-/

namespace PuzzleKit

/-- A coordinate handed out by a grid. -/
abbrev Place := Coordinate .i32

structure Maze where
  grid : Grid Char
  start : Place
  target : Place

namespace Maze

open Search Recursion

/-- The maze of a grid, if it has a start. -/
def ofGrid? (g : Grid Char) : Except GridFault (Option Maze) := do
  let start ← g.findFirst? 'S'
  let target ← g.findFirst? 'E'
  let nowhere ← (Coordinate.origin.step .northWest).mapError .arithmetic
  return start.map fun start => ⟨g, start, target.getD nowhere⟩

def isOpen (m : Maze) (c : Place) : Bool := m.grid.get? c != some '#'

/-- The open neighbours of a place in some directions, with the directions. -/
def openNeighbors (m : Maze) (directions : List Direction) (c : Place) :
    List (Direction × Place) :=
  match m.grid.neighborsIn c directions with
  | .ok neighbors => neighbors.filter fun (_, next) => m.isOpen next
  | .error _ => []

/-- The open neighbouring places. -/
def openPlaces (m : Maze) (directions : List Direction) (c : Place) : List Place :=
  (m.openNeighbors directions c).map Prod.snd

/-- The cost of a way, where it has led, and the direction in which. -/
structure Heading where
  cost : Int
  place : Place
  facing : Direction
deriving DecidableEq

/-- Headings are ordered by cost, then by place, then by direction. -/
instance : Ord Heading :=
  ⟨fun a b =>
    ((compare a.cost b.cost).then (compare a.place b.place)).then (compare a.facing b.facing)⟩

/-- The headings one move further. A move costs one, and `turn` more if it is
not straight on. -/
def moves (m : Maze) (directions : List Direction) (turn : Int) (h : Heading) : List Heading :=
  (m.openNeighbors directions h.place).map fun (d, next) =>
    ⟨h.cost + 1 + (if d = h.facing then 0 else turn), next, d⟩

/-- The cheapest headings, from the start facing east. -/
def cheapest (m : Maze) (fuel : Nat) (traversal : Traversal) (directions : List Direction)
    (turn : Int) : Option (Exploration Heading Place Unit) :=
  explore fuel (Rules.best Heading.place compare m.target traversal)
    (.ofSuccessors (m.moves directions turn)) () ⟨0, m.start, .east⟩

/-- The fewest steps to the target. -/
def stepsToTarget (m : Maze) (fuel : Nat) (traversal : Traversal) (directions : List Direction) :
    Option (Exploration (Stepped Place) Place Unit) :=
  explore fuel (Rules.bestSteps m.target traversal)
    (.ofNeighbors (m.openPlaces directions)) () ⟨m.start, 0⟩

/-- The fewest steps to every place that can be reached. -/
def stepsToAll (m : Maze) (fuel : Nat) (traversal : Traversal) (directions : List Direction) :
    Option (Exploration (Stepped Place) Place Unit) :=
  explore fuel (Rules.allSteps traversal)
    (.ofNeighbors (m.openPlaces directions)) () ⟨m.start, 0⟩

/-- Every place that can be reached. -/
def reachable (m : Maze) (fuel : Nat) (traversal : Traversal) (directions : List Direction) :
    Option (Exploration Place Place Unit) :=
  explore fuel (Rules.floodStates traversal)
    (.ofSuccessors (m.openPlaces directions)) () m.start

/-- Add up the ways from some places in turn. -/
def sumOverPlaces : Int → List Place → Query Place Int
  | total, [] => .answer total
  | total, c :: places =>
    .ask c fun ways => sumOverPlaces ((total + ways) % countModulus) places

/-- The ways to the target that only go right or down. -/
def countWays (m : Maze) : Rule Place Place Int where
  identity := id
  query := fun c =>
    if c = m.target then .answer 1 else sumOverPlaces 0 (m.openPlaces [.east, .south] c)

/-- The number of ways from the start. Every move leads right or down, so the
questions nest no deeper than the grid is wide and high. -/
def ways (m : Maze) : Option (Int × Memory Place Place Int) :=
  evaluateFresh m.countWays (m.grid.width + m.grid.height + 1) m.start

end Maze

end PuzzleKit

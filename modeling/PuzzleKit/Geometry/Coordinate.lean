import PuzzleKit.Geometry.Point

/-!
# Coordinates

Coordinates on a plane with screen orientation, over a signed width. Each
operation works on `x` before `y`, so that of two components that both
overflow it is the one of `x` that is reported.
-/

namespace PuzzleKit

structure Coordinate (w : Width) where
  x : Word w
  y : Word w
deriving DecidableEq, Hashable

/-- Why a coordinate cannot be rotated. -/
inductive RotationError
  | notQuarterTurns (degrees : Int)
  | arithmetic (fault : ArithmeticFault)
deriving DecidableEq

def RotationError.message : RotationError → String
  | .notQuarterTurns degrees => s!"degrees {degrees} is not a multiple of 90"
  | .arithmetic fault => fault.message

namespace Coordinate

variable {w : Width}

/-- Coordinates are ordered by `x`, then by `y`. -/
instance : Ord (Coordinate w) := ⟨fun a b => (compare a.x b.x).then (compare a.y b.y)⟩

def origin : Coordinate w := ⟨0, 0⟩

/-- The same operation on either component. -/
def mapM (f : Word w → Except ArithmeticFault (Word w)) (a : Coordinate w) :
    Except ArithmeticFault (Coordinate w) := do
  let x ← f a.x
  let y ← f a.y
  return ⟨x, y⟩

/-- An operation on the components of two coordinates. -/
def zipM (f : Word w → Word w → Except ArithmeticFault (Word w)) (a b : Coordinate w) :
    Except ArithmeticFault (Coordinate w) := do
  let x ← f a.x b.x
  let y ← f a.y b.y
  return ⟨x, y⟩

def add (a b : Coordinate w) := zipM Word.add a b

def sub (a b : Coordinate w) := zipM Word.sub a b

def mul (a b : Coordinate w) := zipM Word.mul a b

def div (a b : Coordinate w) := zipM Word.div a b

def rem (a b : Coordinate w) := zipM Word.rem a b

def neg (a : Coordinate w) := mapM Word.neg a

def addScalar (a : Coordinate w) (n : Word w) := mapM (Word.add · n) a

def subScalar (a : Coordinate w) (n : Word w) := mapM (Word.sub · n) a

def mulScalar (a : Coordinate w) (n : Word w) := mapM (Word.mul · n) a

def divScalar (a : Coordinate w) (n : Word w) := mapM (Word.div · n) a

/-- A remainder that is never negative: the one toward zero, and the absolute
value of the modulus on top where that one is negative. -/
def remainderUp (a modulus : Word w) : Except ArithmeticFault (Word w) := do
  let r ← a.rem modulus
  if r.val < 0 then r.add (← modulus.abs) else return r

def remEuclid (a modulus : Coordinate w) := zipM remainderUp a modulus

/-- One step in a direction. -/
def step (a : Coordinate w) (d : Direction) : Except ArithmeticFault (Coordinate w) := do
  let x ← Word.fit w .addOverflow (a.x.val + d.dx)
  let y ← Word.fit w .addOverflow (a.y.val + d.dy)
  return ⟨x, y⟩

/-- One step against a direction. -/
def stepBack (a : Coordinate w) (d : Direction) : Except ArithmeticFault (Coordinate w) := do
  let x ← Word.fit w .subOverflow (a.x.val - d.dx)
  let y ← Word.fit w .subOverflow (a.y.val - d.dy)
  return ⟨x, y⟩

/-- A component moved `count` times by a unit offset. -/
def moveBy (a : Word w) (offset : Int) (count : Word w) : Except ArithmeticFault (Word w) := do
  let delta ← Word.fit w .mulOverflow (offset * count.val)
  a.add delta

/-- Many steps in a direction at once; a negative count moves backwards. -/
def stepBy (a : Coordinate w) (d : Direction) (count : Word w) :
    Except ArithmeticFault (Coordinate w) := do
  let x ← moveBy a.x d.dx count
  let y ← moveBy a.y d.dy count
  return ⟨x, y⟩

def swap (a : Coordinate w) : Coordinate w := ⟨a.y, a.x⟩

def component (a : Coordinate w) : Axis → Word w
  | .x => a.x
  | .y => a.y

/-- The rotations about the origin, clockwise on screen, by the angle within a
full turn. -/
def turned (a : Coordinate w) (turn : Int) : Option (Except ArithmeticFault (Coordinate w)) :=
  if turn = 0 then some (.ok a)
  else if turn = 90 then some do return ⟨← a.y.neg, a.x⟩
  else if turn = 180 then some a.neg
  else if turn = 270 then some do return ⟨a.y, ← a.x.neg⟩
  else none

/-- A rotation about the origin, in quarter turns. -/
def rotate (a : Coordinate w) (degrees : Int) : Except RotationError (Coordinate w) :=
  match a.turned (degrees % 360) with
  | none => .error (.notQuarterTurns degrees)
  | some result => result.mapError .arithmetic

/-- The Manhattan distance. -/
def distance (a b : Coordinate w) : Except ArithmeticFault (Word w) := do
  let dx ← (← a.x.sub b.x).abs
  let dy ← (← a.y.sub b.y).abs
  dx.add dy

/-- The Manhattan distance to the origin. -/
def distanceToOrigin (a : Coordinate w) : Except ArithmeticFault (Word w) := do
  let dx ← a.x.abs
  let dy ← a.y.abs
  dx.add dy

/-- The first of some directions that steps from `a` to `b`. Each step up to
there is taken, so each has to fit. -/
def relativeAmong (a b : Coordinate w) :
    List Direction → Except ArithmeticFault (Option Direction)
  | [] => .ok none
  | d :: directions => do
    if (← a.step d) = b then return some d
    relativeAmong a b directions

/-- The direction of the step from `a` to an adjacent `b`. -/
def relative (a b : Coordinate w) : Except ArithmeticFault (Option Direction) :=
  relativeAmong a b Direction.all

def toText (a : Coordinate w) : String := "(" ++ a.x.toText ++ "," ++ a.y.toText ++ ")"

/-- The coordinate of a list of exactly two components. -/
def ofList {α : Type} (components : List α) : Except PointTextError (α × α) :=
  match components with
  | [x, y] => .ok (x, y)
  | _ => .error (.componentCount 2 components.length)

/-- The coordinate of a text. The number of components is looked at before
any of them is read. -/
def parse (w : Width) (text : List Char) : Except PointTextError (Coordinate w) := do
  let (left, right) ← ofList (splitAtElement ',' text)
  let x ← parseComponent w left
  let y ← parseComponent w right
  return ⟨x, y⟩

/-- The same coordinate over another width, if it fits there. -/
def cast? (a : Coordinate w) (v : Width) : Option (Coordinate v) := do
  let x ← a.x.cast? v
  let y ← a.y.cast? v
  return ⟨x, y⟩

end Coordinate

end PuzzleKit

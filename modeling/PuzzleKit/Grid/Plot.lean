import PuzzleKit.Geometry.Rectangle

/-!
# Plotting points

A set of points is drawn over its bounding box, row by row, with a character
for each position that depends on whether the position is a point of the set.
The set is given as a list; neither its order nor repetitions in it show.
-/

namespace PuzzleKit.Plot

variable {w : Width}

/-- The bounding box of a point and others. -/
def boundingBox (first : Coordinate w) (points : List (Coordinate w)) : Rectangle w :=
  points.foldl (fun box p =>
    ⟨⟨min box.low.x p.x, min box.low.y p.y⟩, ⟨max box.high.x p.x, max box.high.y p.y⟩⟩)
    ⟨first, first⟩

/-- The character of a position, after a line feed if the position begins a
row other than the first. -/
def place {m : Type → Type} [Monad m] (f : Bool → Coordinate w → m Char)
    (box : Rectangle w) (points : List (Coordinate w)) (c : Coordinate w) : m (List Char) := do
  let mark ← f (points.contains c) c
  return if c.x = box.low.x ∧ c.y ≠ box.low.y then ['\n', mark] else [mark]

/-- The bounding box drawn by a function that may have effects; nothing for
the empty set. -/
def drawWith {m : Type → Type} [Monad m] (f : Bool → Coordinate w → m Char) :
    List (Coordinate w) → m (List Char)
  | [] => pure []
  | first :: points => do
    let box := boundingBox first points
    let marks ← box.coordinates.mapM (place f box (first :: points))
    return marks.flatten

/-- The bounding box with `#` for the points and `.` elsewhere. -/
def draw (points : List (Coordinate w)) : List Char :=
  drawWith (m := Id) (fun member _ => if member then '#' else '.') points

end PuzzleKit.Plot

import PuzzleKit.Geometry.Coordinate

/-!
# Rectangles

The rectangle that two corners span is walked row by row, from the least
corner to the greatest. The walk is given by the coordinate that follows each
one, so that a part of it can be taken however large the whole is; it moves on
only while there is a greater coordinate in the rectangle, and so it never
leaves the width.
-/

namespace PuzzleKit

/-- The next word, below a greater one. -/
def Word.next {w : Width} (a b : Word w) (h : a < b) : Word w :=
  ⟨a.val + 1, Int.le_trans a.min_le (by omega),
    Int.le_trans (show a.val + 1 ≤ b.val from h) b.le_max⟩

/-- The rectangle from a least to a greatest corner. -/
structure Rectangle (w : Width) where
  low : Coordinate w
  high : Coordinate w
deriving DecidableEq

namespace Rectangle

variable {w : Width}

/-- The rectangle with two opposite corners. -/
def spanned (a b : Coordinate w) : Rectangle w :=
  ⟨⟨min a.x b.x, min a.y b.y⟩, ⟨max a.x b.x, max a.y b.y⟩⟩

/-- The coordinate after `c`, row by row. -/
def next? (r : Rectangle w) (c : Coordinate w) : Option (Coordinate w) :=
  if hx : c.x < r.high.x then some ⟨c.x.next r.high.x hx, c.y⟩
  else if hy : c.y < r.high.y then some ⟨r.low.x, c.y.next r.high.y hy⟩
  else none

/-- The coordinates passed so far, the latest first, after at most `n` more
from where the walk stands. -/
def walk (r : Rectangle w) :
    Nat → Option (Coordinate w) → List (Coordinate w) → List (Coordinate w)
  | 0, _, passed => passed
  | _ + 1, none, passed => passed
  | n + 1, some c, passed => r.walk n (r.next? c) (c :: passed)

/-- The number of columns, of a rectangle that is not empty. -/
def columns (r : Rectangle w) : Nat := (r.high.x.val - r.low.x.val).toNat + 1

/-- The number of rows, of a rectangle that is not empty. -/
def rows (r : Rectangle w) : Nat := (r.high.y.val - r.low.y.val).toNat + 1

/-- The first `n` coordinates. -/
def take (r : Rectangle w) (n : Nat) : List (Coordinate w) := (r.walk n (some r.low) []).reverse

/-- Every coordinate, once. -/
def coordinates (r : Rectangle w) : List (Coordinate w) := r.take (r.columns * r.rows)

end Rectangle

end PuzzleKit

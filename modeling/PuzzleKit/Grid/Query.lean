import PuzzleKit.Grid.Basic

/-!
# Querying grids

The cells of a grid with their coordinates, row by row from the top and each
row from the left, and what can be asked of that list.
-/

namespace PuzzleKit.Grid

variable {α : Type}

/-- The rows and columns of all cells, row by row. -/
def positions (g : Grid α) : List (Fin g.height × Fin g.width) :=
  (List.finRange g.height).flatMap fun i => (List.finRange g.width).map fun j => (i, j)

/-- Every cell with its coordinate, row by row. -/
def cells (g : Grid α) : Except GridFault (List (Coordinate .i32 × α)) :=
  g.positions.mapM fun (i, j) => do
    let c ← coordinateAt i j
    return (c, g.table.cell i j)

/-- Every coordinate of the grid, row by row. -/
def coordinates (g : Grid α) : Except GridFault (List (Coordinate .i32)) :=
  g.positions.mapM fun (i, j) => coordinateAt i j

/-- The number of cells that satisfy a predicate together with their
coordinates. -/
def countWhere (g : Grid α) (predicate : Coordinate .i32 → α → Bool) : Except GridFault Nat := do
  let cells ← g.cells
  return cells.countP fun (c, a) => predicate c a

variable [DecidableEq α]

/-- The coordinates of the cells with a value, row by row. -/
def findAll (g : Grid α) (a : α) : Except GridFault (List (Coordinate .i32)) := do
  let cells ← g.cells
  return (cells.filter fun (_, b) => decide (b = a)).map Prod.fst

/-- The first coordinate, row by row, of a cell with a value. -/
def findFirst? (g : Grid α) (a : α) : Except GridFault (Option (Coordinate .i32)) := do
  let cells ← g.cells
  return (cells.find? fun (_, b) => decide (b = a)).map Prod.fst

end PuzzleKit.Grid

/-!
# Tables

A table is a vector of rows of one length. Its numbers of rows and columns are
part of its type, so a table without rows still has a number of columns and
every index into it is in bounds.
-/

namespace PuzzleKit

/-- A table of `m` rows and `n` columns. -/
abbrev Table (α : Type) (m n : Nat) := Vector (Vector α n) m

namespace Table

variable {α β : Type} {m n : Nat}

/-- The table of a function of row and column. -/
def ofFn (f : Fin m → Fin n → α) : Table α m n := Vector.ofFn fun i => Vector.ofFn (f i)

/-- The cell at a row and a column. -/
def cell (t : Table α m n) (i : Fin m) (j : Fin n) : α := (t.get i).get j

/-- The table with another value in one cell. -/
def setCell (t : Table α m n) (i : Fin m) (j : Fin n) (a : α) : Table α m n :=
  t.set i ((t.get i).set j a j.isLt) i.isLt

/-- The table with two rows exchanged. -/
def swapRows (t : Table α m n) (i k : Fin m) : Table α m n := t.swap i k i.isLt k.isLt

/-- The cell at a row and a column, if there is one. -/
def cell? (t : Table α m n) (row column : Nat) : Option α := do
  let cells ← t[row]?
  cells[column]?

/-- Rows and columns exchanged. -/
def transpose (t : Table α m n) : Table α n m := ofFn fun j i => t.cell i j

def mapCells (f : α → β) (t : Table α m n) : Table β m n := t.map fun row => row.map f

/-- The rows as lists. -/
def toLists (t : Table α m n) : List (List α) := (t.map Vector.toList).toList

/-- The table of a list of rows, if it has the numbers of rows and columns. -/
def ofLists? (m n : Nat) (rows : List (List α)) : Option (Table α m n) := do
  let vectors ← rows.mapM fun row =>
    if h : row.length = n then some (⟨row.toArray, by simp [h]⟩ : Vector α n) else none
  if h : vectors.length = m then some ⟨vectors.toArray, by simp [h]⟩ else none

theorem columnMajor_lt (i : Fin m) (j : Fin n) : j.val * m + i.val < m * n := by
  have hj : (j.val + 1) * m ≤ n * m := Nat.mul_le_mul_right m j.isLt
  have hi := i.isLt
  rw [Nat.add_mul, Nat.one_mul] at hj
  rw [Nat.mul_comm m n]
  omega

/-- The table whose cells, column by column, are a list. -/
def ofColumnMajor? (m n : Nat) (cells : List α) : Option (Table α m n) :=
  if h : cells.length = m * n then
    some (ofFn fun i j => cells.get ⟨j.val * m + i.val, h ▸ columnMajor_lt i j⟩)
  else none

/-- The cells, column by column. A table without rows has none, however many
columns it has. -/
def toColumnMajor (t : Table α m n) : List α :=
  if m = 0 then []
  else (List.finRange n).flatMap fun j => (List.finRange m).map fun i => t.cell i j

end Table

end PuzzleKit

import PuzzleKit.Fraction.Basic
import PuzzleKit.Log
import PuzzleKit.Table

/-!
# Linear systems

A system `A x = b` is given as the augmented table of its coefficients, one
column for each variable, with the right hand sides in the last column. A table
without columns has no variables and no right hand sides.

The elimination goes through the variable columns from the left and keeps the
rows above the next pivot row finished: each has a one at its pivot, and the
column of that pivot is zero elsewhere. A column is passed over if the rows
from the next pivot row down are zero in it, and among the rows that are not
the first one with a leading one is preferred.
-/

namespace PuzzleKit.Linear

/-- The shape of a system after its elimination: the columns of the pivots in
the order of their rows, and the number of unknowns. -/
structure Reduction where
  pivotColumns : List Nat
  unknowns : Nat
deriving DecidableEq

namespace Reduction

/-- The unknowns that may take any value. -/
def freeColumns (r : Reduction) : List Nat :=
  (List.range r.unknowns).filter fun column => !r.pivotColumns.contains column

/-- Whether the system has exactly one solution. -/
def isUnique (r : Reduction) : Bool := r.pivotColumns.length = r.unknowns

end Reduction

/-- The system has no solution: this row of the reduced table says that zero is
something else. -/
structure Inconsistency where
  row : Nat
deriving DecidableEq

def Inconsistency.message (e : Inconsistency) : String :=
  s!"linear system is inconsistent: row {e.row} reduces to 0 = non-zero"

variable {m n : Nat}

/-- Divide the cells of a row, from `column` on, by the cell at `column`. -/
def scaleRow (row : Vector Fraction n) (column : Fin n) :
    Except FractionFault (Vector Fraction n) :=
  Vector.ofFnM fun j =>
    if j.val < column.val then pure (row.get j)
    else (row.get j).div (row.get column)

/-- Take from a row, from `column` on, the multiple of the pivot row that
clears its cell at `column`. -/
def clearRow (row pivot : Vector Fraction n) (column : Fin n) :
    Except FractionFault (Vector Fraction n) :=
  Vector.ofFnM fun j =>
    if j.val < column.val then pure (row.get j)
    else do (row.get j).sub (← (row.get column).mul (pivot.get j))

/-- Make the cell of `pivotRow` at `column` a one and clear the column in every
other row. -/
def clearColumn (t : Table Fraction m n) (pivotRow : Fin m) (column : Fin n) :
    Except FractionFault (Table Fraction m n) := do
  let pivot ← scaleRow (t.get pivotRow) column
  Vector.ofFnM fun i =>
    if i = pivotRow then pure pivot
    else if (t.cell i column).isZero then pure (t.get i)
    else clearRow (t.get i) pivot column

/-- The row that gives the pivot of a column: of the rows from `firstRow` on
that are not zero there, the first with a one, or else the first. -/
def pivotSource? (t : Table Fraction m n) (firstRow : Nat) (column : Fin n) : Option (Fin m) :=
  let candidates := (List.finRange m).filter fun i : Fin m =>
    firstRow ≤ i.val && !(t.cell i column).isZero
  (candidates.find? fun i => decide (t.cell i column = 1)).or candidates.head?

/-- A table under elimination, with the columns of the pivots found so far. -/
structure Elimination (m n : Nat) where
  table : Table Fraction m n
  pivotColumns : List Nat
deriving DecidableEq

namespace Elimination

/-- Deal with one column, where `source?` says which row gives its pivot. -/
def stepBy (source? : Table Fraction m n → Nat → Fin n → Option (Fin m)) (e : Elimination m n)
    (column : Fin n) : Except FractionFault (Elimination m n) :=
  if h : e.pivotColumns.length < m then
    match source? e.table e.pivotColumns.length column with
    | none => .ok e
    | some source => do
      let pivotRow : Fin m := ⟨e.pivotColumns.length, h⟩
      let cleared ← clearColumn (e.table.swapRows pivotRow source) pivotRow column
      return ⟨cleared, e.pivotColumns ++ [column.val]⟩
  else .ok e

/-- The number of unknowns, one for each variable column. -/
def unknowns (_ : Elimination m n) : Nat := n - 1

/-- The first row below the pivots whose right hand side is not zero. -/
def inconsistentRow? (e : Elimination m n) : Option (Fin m) :=
  if h : n - 1 < n then
    (List.finRange m).find? fun i : Fin m =>
      e.pivotColumns.length ≤ i.val && !(e.table.cell i ⟨n - 1, h⟩).isZero
  else none

/-- What a finished elimination says about the system. -/
def outcome (e : Elimination m n) : Except Inconsistency Reduction :=
  match e.inconsistentRow? with
  | some row => .error ⟨row⟩
  | none => .ok ⟨e.pivotColumns, e.unknowns⟩

def logEntry (e : Elimination m n) : LogEntry :=
  let pivots := ", ".intercalate (e.pivotColumns.map toString)
  ⟨.trace, s!"reduced {m}x{e.unknowns} system with pivots [{pivots}]"⟩

end Elimination

/-- The variable columns, as columns of the augmented table. -/
def variableColumns (n : Nat) : List (Fin n) :=
  (List.finRange (n - 1)).map (Fin.castLE (Nat.sub_le n 1))

/-- Bring an augmented table into reduced row echelon form, with the pivots from
the rows that `source?` gives. The table is reduced to the end also where the
system turns out to have no solution. -/
def reduceBy (source? : Table Fraction m n → Nat → Fin n → Option (Fin m))
    (t : Table Fraction m n) : Except FractionFault (Elimination m n) :=
  (variableColumns n).foldlM (Elimination.stepBy source?) ⟨t, []⟩

def reduce (t : Table Fraction m n) : Except FractionFault (Elimination m n) :=
  reduceBy pivotSource? t

/-- The right hand sides of a reduced table, if they are the one solution. -/
def uniqueSolution? (t : Table Fraction m n) (r : Reduction) : Option (List Fraction) :=
  if r.isUnique then (List.range r.unknowns).mapM fun row => t.cell? row r.unknowns else none

end PuzzleKit.Linear

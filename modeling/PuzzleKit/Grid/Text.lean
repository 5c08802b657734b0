import PuzzleKit.Grid.Basic
import PuzzleKit.Text.Line
import PuzzleKit.Text.Quoted

/-!
# The text of a grid

A grid is read from the lines of a text, a cell from each character. The cells
are made row by row and from the left, and the first fault ends the reading; a
row is compared with the width of the first row only after all of its cells
have been made.

In the other direction each cell becomes text and each row a line, with line
feeds between the rows and none at the end.
-/

namespace PuzzleKit

/-- Why a text is not a grid, where a cell can fail with an `E`. -/
inductive GridTextError (E : Type)
  | empty
  | unequalWidth (row expected found : Nat)
  | invalidCell (row column : Nat) (source : E)
  | fault (fault : GridFault)

def GridTextError.message {E : Type} : GridTextError E → String
  | .empty => "grid input has no rows"
  | .unequalWidth row expected found =>
    s!"expected grid width to be {expected} across rows, but row {row} has width {found}"
  | .invalidCell row column _ => s!"invalid cell at row {row}, column {column}"
  | .fault f => f.message

/-- The name of the kind of fault. -/
def GridTextError.kind {E : Type} : GridTextError E → String
  | .empty => "Empty"
  | .unequalWidth _ _ _ => "UnequalWidth"
  | .invalidCell _ _ _ => "InvalidCell"
  | .fault _ => "Fault"

/-- The character is not a decimal digit. -/
structure DigitError where
  char : Char
deriving DecidableEq

def DigitError.message (e : DigitError) : String :=
  "invalid digit character: " ++ Text.quoteChar e.char

namespace Grid

section Reading

variable {m : Type → Type} [Monad m] {E α : Type}

/-- The cell of one character. -/
def cellOf (f : Coordinate .i32 → Char → m (Except E α)) (row column : Nat) (c : Char) :
    ExceptT (GridTextError E) m α :=
  match coordinateAt row column with
  | .error fault => throw (.fault fault)
  | .ok coordinate => do
    match ← f coordinate c with
    | .ok a => pure a
    | .error source => throw (.invalidCell row column source)

/-- The cells of the characters of a line, from a column on. -/
def cellsOfLine (f : Coordinate .i32 → Char → m (Except E α)) (row : Nat) :
    Nat → List Char → ExceptT (GridTextError E) m (List α)
  | _, [] => pure []
  | column, c :: cs => do
    let a ← cellOf f row column c
    let rest ← cellsOfLine f row (column + 1) cs
    return a :: rest

/-- The rows of some lines that are to have a width, from a row on. -/
def rowsOfLines (f : Coordinate .i32 → Char → m (Except E α)) (width : Nat) :
    Nat → List (List Char) → ExceptT (GridTextError E) m (List (Vector α width))
  | _, [] => pure []
  | row, line :: lines => do
    let cells ← cellsOfLine f row 0 line
    if h : cells.length = width then
      let rest ← rowsOfLines f width (row + 1) lines
      return ⟨cells.toArray, h⟩ :: rest
    else throw (.unequalWidth row width cells.length)

/-- The grid of some lines. -/
def ofLines (f : Coordinate .i32 → Char → m (Except E α)) :
    List (List Char) → ExceptT (GridTextError E) m (Grid α)
  | [] => throw .empty
  | line :: lines => do
    let first ← cellsOfLine f 0 0 line
    let rest ← rowsOfLines f first.length 1 lines
    return ⟨rest.length + 1, first.length, ⟨(⟨first.toArray, rfl⟩ :: rest).toArray, by simp⟩⟩

/-- The grid of a text, with a cell for each coordinate and character that may
fail, or have effects. -/
def build (f : Coordinate .i32 → Char → m (Except E α)) (text : List Char) :
    m (Except (GridTextError E) (Grid α)) :=
  (ofLines f (Text.lines text)).run

end Reading

/-- The grid of a text whose cells cannot fail. -/
def ofText {α : Type} (f : Coordinate .i32 → Char → α) (text : List Char) :
    Except (GridTextError Empty) (Grid α) :=
  build (m := Id) (fun coordinate c => Except.ok (f coordinate c)) text

/-- The grid of the characters of a text. -/
def chars (text : List Char) : Except (GridTextError Empty) (Grid Char) := ofText (fun _ c => c) text

/-- The value of a decimal digit. -/
def digitOfChar (c : Char) : Except DigitError Nat :=
  if '0' ≤ c ∧ c ≤ '9' then .ok (c.toNat - '0'.toNat) else .error ⟨c⟩

/-- The grid of the decimal digits of a text. -/
def digits (text : List Char) : Except (GridTextError DigitError) (Grid Nat) :=
  build (m := Id) (fun _ c => digitOfChar c) text

/-- The rows of a grid, each cell written out. -/
def rowTexts {α : Type} (write : α → List Char) (g : Grid α) : List (List Char) :=
  g.table.toList.map fun row => row.toList.flatMap write

/-- A grid written out, with a line feed between rows. -/
def write {α : Type} (cell : α → List Char) (g : Grid α) : List Char :=
  ['\n'].intercalate (g.rowTexts cell)

/-- A grid with a character for each cell. -/
def render {α : Type} (f : α → Char) (g : Grid α) : List Char := g.write fun a => [f a]

end Grid

end PuzzleKit

import PuzzleKit.Text.Blank

/-!
# Lines

A line feed ends a line, and a carriage return right before it belongs to the
ending. What follows the last line feed is a line only if it is not empty,
and keeps its carriage return, since no line feed ends it.
-/

namespace PuzzleKit.Text

/-- A line without a carriage return at its end. -/
def dropReturn (line : List Char) : List Char :=
  if line.getLast? = some '\r' then line.dropLast else line

/-- The lines among the pieces between line feeds; only the last piece is not
ended by one. -/
def linesOfPieces : List (List Char) → List (List Char)
  | [] => []
  | [last] => if last.isEmpty then [] else [last]
  | piece :: next :: pieces => dropReturn piece :: linesOfPieces (next :: pieces)

def lines (cs : List Char) : List (List Char) :=
  linesOfPieces (splitAtElement '\n' cs)

/-- The lines grouped into paragraphs, which lines of blanks separate. -/
def paragraphs (cs : List Char) : List (List (List Char)) :=
  splitWhere (fun line => (trim line).isEmpty) (lines cs)

end PuzzleKit.Text

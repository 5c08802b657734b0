import PuzzleKit.Proofs.Sequence.Split
import PuzzleKit.Text.Line

/-!
# Lines and the text they make up

The pieces between the line feeds of a text are almost its lines. Each but the last
is ended by a line feed and loses a carriage return, and the last one is a line only
if there is something in it. So joining lines and taking the lines again is harmless
if no carriage return is lost and the last line is there to be seen, and taking the
lines of a text without carriage returns loses at most a line feed at its end.
-/

namespace PuzzleKit.Text

variable {text last : List Char} {rows : List (List Char)}

/-- The text without a line feed at its end. -/
def dropFinalFeed (text : List Char) : List Char :=
  if text.getLast? = some '\n' then text.dropLast else text

theorem dropReturn_eq_self (h : last.getLast? ≠ some '\r') : dropReturn last = last := if_neg h

theorem map_dropReturn_eq_self (h : ∀ row ∈ rows, row.getLast? ≠ some '\r') :
    rows.map dropReturn = rows := by
  refine (List.map_congr_left fun row hrow => ?_).trans (List.map_id rows)
  exact dropReturn_eq_self (h row hrow)

theorem linesOfPieces_concat (pieces : List (List Char)) (last : List Char) :
    linesOfPieces (pieces ++ [last]) =
      pieces.map dropReturn ++ if last.isEmpty then [] else [last] := by
  induction pieces with
  | nil => rfl
  | cons piece pieces ih =>
      cases pieces with
      | nil => rfl
      | cons next pieces => exact congrArg (dropReturn piece :: ·) ih

theorem linesOfPieces_concat_of_ne_nil (hreturn : ∀ row ∈ rows, row.getLast? ≠ some '\r')
    (hlast : last ≠ []) : linesOfPieces (rows ++ [last]) = rows ++ [last] := by
  rw [linesOfPieces_concat, map_dropReturn_eq_self hreturn,
    if_neg (mt List.isEmpty_iff.mp hlast)]

/-- The lines of joined rows are the rows. -/
theorem lines_intercalate (hfeed : ∀ row ∈ rows ++ [last], '\n' ∉ row)
    (hreturn : ∀ row ∈ rows, row.getLast? ≠ some '\r') (hlast : last ≠ []) :
    lines (['\n'].intercalate (rows ++ [last])) = rows ++ [last] := by
  rw [lines, splitAtElement_intercalate hfeed (List.append_ne_nil_of_right_ne_nil _ (by simp)),
    linesOfPieces_concat_of_ne_nil hreturn hlast]

theorem getLast?_ne_return (h : '\r' ∉ text) :
    ∀ row ∈ splitAtElement '\n' text, row.getLast? ≠ some '\r' := by
  intro row hrow hlast
  have hmem := subset_intercalate '\n' hrow (List.mem_of_getLast? hlast)
  rw [intercalate_splitAtElement] at hmem
  exact h hmem

/-- The joined lines of a text without carriage returns are the text, except for a
line feed at its end. -/
theorem intercalate_lines (h : '\r' ∉ text) :
    ['\n'].intercalate (lines text) = dropFinalFeed text := by
  have hreturn := getLast?_ne_return h
  rw [lines, dropFinalFeed]
  split
  · next hfeed =>
      obtain ⟨before, rfl⟩ := List.getLast?_eq_some_iff.mp hfeed
      rw [splitAtElement_concat] at hreturn ⊢
      rw [linesOfPieces_concat,
        map_dropReturn_eq_self fun row hrow => hreturn row (List.mem_append_left _ hrow),
        List.isEmpty_nil, if_pos rfl, List.append_nil, intercalate_splitAtElement,
        List.dropLast_concat]
  · next hfeed =>
      obtain ⟨pieces, last, hpieces⟩ : ∃ pieces last, splitAtElement '\n' text = pieces ++ [last] :=
        ⟨_, _, (List.dropLast_concat_getLast (splitAtElement_ne_nil '\n' text)).symm⟩
      have htext : ['\n'].intercalate (pieces ++ [last]) = text := by
        rw [← hpieces, intercalate_splitAtElement]
      rw [hpieces] at hreturn ⊢
      by_cases hlast : last = []
      · -- An empty last piece is what follows a line feed, or the whole text.
        subst hlast
        cases pieces with
        | nil => exact htext
        | cons piece pieces =>
            rw [intercalate_concat (List.cons_ne_nil piece pieces)] at htext
            exact absurd (htext ▸ List.getLast?_concat) hfeed
      · rw [linesOfPieces_concat_of_ne_nil
          (fun row hrow => hreturn row (List.mem_append_left _ hrow)) hlast, htext]

end PuzzleKit.Text

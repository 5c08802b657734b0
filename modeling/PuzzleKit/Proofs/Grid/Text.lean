import PuzzleKit.Grid.Text
import PuzzleKit.Integer.Numeral
import PuzzleKit.Proofs.Fallible
import PuzzleKit.Proofs.Grid.Position
import PuzzleKit.Proofs.Table
import PuzzleKit.Proofs.Text.Line

/-!
# Grids and their texts

Reading a grid makes cells of characters line by line, and nothing else: if it
succeeds, each line has been read into one row (`reads_of_ofLines`). In the other
direction, lines that read into the rows of a grid are read as that grid, provided
that every cell has a coordinate (`ofLines_of_reads`). So that writing and reading
are inverse is a matter of the lines of a text: the lines of a grid that is written
out are the texts of its rows, unless there is a line feed in a row, a carriage
return is taken for part of a line's ending, or the last row has no text at all.
-/

namespace PuzzleKit.Grid

variable {α E : Type} {g : Grid α} {cell : Char → Except E α} {write : α → List Char}
  {line : List Char} {lines : List (List Char)} {cells : List α} {row column width : Nat}

/-- Each character of a line makes one cell. -/
abbrev Reads (cell : Char → Except E α) : List Char → List α → Prop :=
  List.Forall₂ fun c a => cell c = .ok a

/-! ## Reading lines -/

theorem run_cellOf_eq_ok_iff {c : Char} {a : α} :
    (cellOf (m := Id) (fun _ => cell) row column c).run = .ok a ↔
      (∃ coordinate, coordinateAt row column = .ok coordinate) ∧ cell c = .ok a := by
  rw [cellOf]
  split
  · next fault hfault =>
      rw [hfault]
      exact ⟨(nomatch ·), fun ⟨⟨_, h⟩, _⟩ => nomatch h⟩
  · next coordinate hcoordinate =>
      rw [hcoordinate, run_bind_eq_ok_iff]
      cases hcell : cell c with
      | error source =>
          refine ⟨?_, fun ⟨_, h⟩ => nomatch h⟩
          rintro ⟨result, hresult, h⟩
          cases hresult
          cases h
      | ok b =>
          constructor
          · rintro ⟨result, hresult, h⟩
            cases hresult
            cases h
            exact ⟨⟨coordinate, rfl⟩, rfl⟩
          · rintro ⟨-, h⟩
            cases h
            exact ⟨_, rfl, rfl⟩

theorem reads_of_cellsOfLine
    (h : (cellsOfLine (m := Id) (fun _ => cell) row column line).run = .ok cells) :
    Reads cell line cells := by
  induction line generalizing column cells with
  | nil => cases h; exact .nil
  | cons c line ih =>
      obtain ⟨a, ha, h⟩ := run_bind_eq_ok_iff.mp h
      obtain ⟨rest, hrest, h⟩ := run_bind_eq_ok_iff.mp h
      cases h
      exact .cons (run_cellOf_eq_ok_iff.mp ha).2 (ih hrest)

theorem cellsOfLine_of_reads (row column : Nat) (h : Reads cell line cells)
    (hrow : row < 2 ^ 31) (hcolumn : column + line.length ≤ 2 ^ 31) :
    (cellsOfLine (m := Id) (fun _ => cell) row column line).run = .ok cells := by
  induction h generalizing column with
  | nil => rfl
  | cons ha _ ih =>
      rw [List.length_cons] at hcolumn
      refine run_bind_eq_ok_iff.mpr ⟨_, run_cellOf_eq_ok_iff.mpr ⟨?_, ha⟩, ?_⟩
      · exact exists_coordinateAt hrow (by omega)
      · exact run_bind_eq_ok_iff.mpr ⟨_, ih _ (by omega), rfl⟩

theorem reads_of_rowsOfLines {rows : List (Vector α width)}
    (h : (rowsOfLines (m := Id) (fun _ => cell) width row lines).run = .ok rows) :
    List.Forall₂ (fun line cells => Reads cell line cells.toList) lines rows := by
  induction lines generalizing row rows with
  | nil => cases h; exact .nil
  | cons line lines ih =>
      obtain ⟨cells, hcells, h⟩ := run_bind_eq_ok_iff.mp h
      split at h
      · obtain ⟨rest, hrest, h⟩ := run_bind_eq_ok_iff.mp h
        cases h
        exact .cons (reads_of_cellsOfLine hcells) (ih hrest)
      · cases h

theorem rowsOfLines_of_reads (row : Nat) {rows : List (Vector α width)}
    (h : List.Forall₂ (fun line cells => Reads cell line cells.toList) lines rows)
    (hrow : row + lines.length ≤ 2 ^ 31) (hwidth : width ≤ 2 ^ 31) :
    (rowsOfLines (m := Id) (fun _ => cell) width row lines).run = .ok rows := by
  induction h generalizing row with
  | nil => rfl
  | @cons line cells _ _ hcells _ ih =>
      rw [List.length_cons] at hrow
      have hlength : line.length = width := hcells.length_eq.trans cells.length_toList
      have hline := cellsOfLine_of_reads row 0 hcells (by omega) (by omega)
      refine run_bind_eq_ok_iff.mpr ⟨_, hline, ?_⟩
      rw [dif_pos cells.length_toList]
      exact run_bind_eq_ok_iff.mpr ⟨_, ih _ (by omega), rfl⟩

theorem reads_of_ofLines (h : (ofLines (m := Id) (fun _ => cell) lines).run = .ok g) :
    List.Forall₂ (Reads cell) lines g.table.toLists := by
  cases lines with
  | nil => cases h
  | cons line lines =>
      obtain ⟨first, hfirst, h⟩ := run_bind_eq_ok_iff.mp h
      obtain ⟨rest, hrest, h⟩ := run_bind_eq_ok_iff.mp h
      cases h
      rw [Table.toLists_eq]
      refine .cons (reads_of_cellsOfLine hfirst) ?_
      exact List.forall₂_map_right_iff.mpr (reads_of_rowsOfLines hrest)

theorem ofLines_of_reads (hg : g.Addressable)
    (h : List.Forall₂ (Reads cell) lines g.table.toLists) :
    (ofLines (m := Id) (fun _ => cell) lines).run = .ok g := by
  obtain ⟨height, width, ⟨⟨rows⟩, rfl⟩⟩ := g
  rw [Table.toLists_eq] at h
  cases rows with
  | nil => exact absurd hg.height_pos (Nat.lt_irrefl 0)
  | cons first rest =>
      obtain ⟨⟨first⟩, rfl⟩ := first
      cases h with
      | @cons line _ lines _ hfirst hrest =>
          have hrest := List.forall₂_map_right_iff.mp hrest
          have hheight : rest.length + 1 ≤ 2 ^ 31 := hg.height_le
          have hwidth : first.length ≤ 2 ^ 31 := hg.width_le
          have hlines : lines.length = rest.length := hrest.length_eq
          have hline : line.length = first.length := hfirst.length_eq
          have hfirst := cellsOfLine_of_reads 0 0 hfirst (by omega) (by omega)
          have hrest := rowsOfLines_of_reads 1 hrest (by omega) hwidth
          exact run_bind_eq_ok_iff.mpr ⟨_, hfirst, run_bind_eq_ok_iff.mpr ⟨_, hrest, rfl⟩⟩

/-! ## Writing and reading again -/

theorem rowTexts_eq (write : α → List Char) (g : Grid α) :
    g.rowTexts write = g.table.toLists.map (·.flatMap write) := by
  rw [Table.toLists_eq, List.map_map]
  rfl

theorem rowTexts_singleton (g : Grid Char) : (g.rowTexts fun c => [c]) = g.table.toLists := by
  rw [rowTexts_eq, List.map_congr_left fun row _ => List.flatMap_singleton' row, List.map_id']

/-- The lines of a grid that is written out are the texts of its rows. -/
theorem lines_write (hheight : 0 < g.height) (hfeed : ∀ text ∈ g.rowTexts write, '\n' ∉ text)
    (hreturn : ∀ text ∈ (g.rowTexts write).dropLast, text.getLast? ≠ some '\r')
    (hne : ∀ text ∈ g.rowTexts write, text ≠ []) :
    Text.lines (g.write write) = g.rowTexts write := by
  have htexts : g.rowTexts write ≠ [] := by
    rw [rowTexts_eq, ← List.length_pos_iff, List.length_map, Table.length_toLists]
    exact hheight
  rw [Grid.write]
  generalize g.rowTexts write = texts at *
  obtain ⟨texts, last, rfl⟩ : ∃ init last, texts = init ++ [last] :=
    ⟨_, _, (List.dropLast_concat_getLast htexts).symm⟩
  rw [List.dropLast_concat] at hreturn
  exact Text.lines_intercalate hfeed hreturn (hne last (List.mem_concat_self))

/-- Cells that are written with one character each. -/
theorem reads_flatMap {row : List α} (h : ∀ a ∈ row, ∃ c, write a = [c] ∧ cell c = .ok a) :
    Reads cell (row.flatMap write) row := by
  induction row with
  | nil => exact .nil
  | cons a row ih =>
      obtain ⟨c, hwrite, hcell⟩ := h a List.mem_cons_self
      rw [List.flatMap_cons, hwrite]
      exact .cons hcell (ih fun b hb => h b (List.mem_cons_of_mem _ hb))

/-- A grid that is written out is read again if the text of each row is read as
that row. -/
theorem build_write (hg : g.Addressable)
    (hreads : ∀ row ∈ g.table.toLists, Reads cell (row.flatMap write) row)
    (hfeed : ∀ row ∈ g.table.toLists, '\n' ∉ row.flatMap write)
    (hreturn : ∀ row ∈ g.table.toLists.dropLast, (row.flatMap write).getLast? ≠ some '\r') :
    build (m := Id) (fun _ => cell) (g.write write) = .ok g := by
  have hlines : Text.lines (g.write write) = g.rowTexts write := by
    refine lines_write hg.height_pos ?_ ?_ ?_ <;> rw [rowTexts_eq]
    · exact List.forall_mem_map.mpr hfeed
    · rw [← List.map_dropLast]
      exact List.forall_mem_map.mpr hreturn
    · refine List.forall_mem_map.mpr fun row hrow => ?_
      rw [← List.length_pos_iff, (hreads row hrow).length_eq, Table.length_of_mem_toLists hrow]
      exact hg.width_pos
  rw [build, hlines, rowTexts_eq]
  exact ofLines_of_reads hg (List.forall₂_map_left_iff.mpr (List.forall₂_same.mpr hreads))

/-- Nothing in a grid of characters is taken for a part of the ending of a line. -/
structure Legible (g : Grid Char) : Prop where
  ne_feed : ∀ i j, g.table.cell i j ≠ '\n'
  ne_return : ∀ i j, i.val + 1 < g.height → j.val + 1 = g.width → g.table.cell i j ≠ '\r'

theorem chars_write {g : Grid Char} (hg : g.Addressable) (hlegible : g.Legible) :
    chars (g.write fun c => [c]) = .ok g := by
  have hrow : ∀ row : List Char, (row.flatMap fun c => [c]) = row := List.flatMap_singleton'
  refine build_write hg (fun row _ => reads_flatMap fun c _ => ⟨c, rfl, rfl⟩) ?_ ?_ <;>
    intro row hmem <;> rw [hrow]
  · intro hfeed
    obtain ⟨i, j, hcell⟩ := Table.exists_cell_of_mem hmem hfeed
    exact hlegible.ne_feed i j hcell
  · intro hreturn
    obtain ⟨i, j, hi, hj, hcell⟩ := Table.exists_cell_of_mem_dropLast hmem hreturn
    exact hlegible.ne_return i j hi hj hcell

/-- A number below ten is written with one digit, which is read as that number. -/
theorem digits_eq_singleton {d : Nat} (hd : d ≤ 9) :
    ∃ c, Numeral.digits d = [c] ∧ digitOfChar c = .ok d ∧ c ≠ '\n' ∧ c ≠ '\r' := by
  have hdigit : ∀ d : Fin 10, Numeral.digits d = [Nat.digitChar d] ∧
      digitOfChar (Nat.digitChar d) = .ok d.val ∧ Nat.digitChar d ≠ '\n' ∧
        Nat.digitChar d ≠ '\r' := by decide
  exact ⟨_, hdigit ⟨d, Nat.lt_succ_of_le hd⟩⟩

theorem digits_write {g : Grid Nat} (hg : g.Addressable)
    (hdigit : ∀ i j, g.table.cell i j ≤ 9) :
    digits (g.write Numeral.digits) = .ok g := by
  have hcell : ∀ row ∈ g.table.toLists, ∀ d ∈ row, ∃ c, Numeral.digits d = [c] ∧
      digitOfChar c = .ok d ∧ c ≠ '\n' ∧ c ≠ '\r' := by
    intro row hrow d hd
    obtain ⟨i, j, rfl⟩ := Table.exists_cell_of_mem hrow hd
    exact digits_eq_singleton (hdigit i j)
  have hmark : ∀ row ∈ g.table.toLists, ∀ c ∈ row.flatMap Numeral.digits,
      c ≠ '\n' ∧ c ≠ '\r' := by
    intro row hrow c hc
    obtain ⟨d, hd, hc⟩ := List.mem_flatMap.mp hc
    obtain ⟨c', hdigits, -, hne⟩ := hcell row hrow d hd
    rw [hdigits, List.mem_singleton] at hc
    exact hc ▸ hne
  refine build_write hg (fun row hrow => ?_) (fun row hrow hfeed => ?_)
    (fun row hrow hreturn => ?_)
  · refine reads_flatMap fun d hd => ?_
    obtain ⟨c, hdigits, hread, -⟩ := hcell row hrow d hd
    exact ⟨c, hdigits, hread⟩
  · exact (hmark row hrow _ hfeed).1 rfl
  · exact (hmark row (List.dropLast_subset _ hrow) _ (List.mem_of_getLast? hreturn)).2 rfl

/-- The rows of the grid of the characters of a text are the lines of the text. -/
theorem toLists_of_chars {g : Grid Char} {text : List Char} (h : chars text = .ok g) :
    g.table.toLists = Text.lines text := by
  have hrows : List.Forall₂ (Reads Except.ok) (Text.lines text) g.table.toLists :=
    reads_of_ofLines h
  symm
  refine List.forall₂_eq_eq_eq ▸ hrows.imp fun line row hline => ?_
  exact List.forall₂_eq_eq_eq ▸ hline.imp fun _ _ hc => Except.ok.inj hc

theorem write_of_chars {g : Grid Char} {text : List Char} (htext : '\r' ∉ text)
    (h : chars text = .ok g) : (g.write fun c => [c]) = Text.dropFinalFeed text := by
  rw [write, rowTexts_singleton, toLists_of_chars h, Text.intercalate_lines htext]

/-- Writing a grid of characters or of digits and reading the text gives the grid
back, and reading a text and writing the grid gives back the text but for a line feed
at its end. -/
theorem text_roundtrip :
    (∀ g : Grid Char, g.Addressable → g.Legible →
      chars (g.write fun c => [c]) = .ok g ∧ (g.write fun c => [c]) = g.render id) ∧
    (∀ g : Grid Nat, g.Addressable → (∀ i j, g.table.cell i j ≤ 9) →
      digits (g.write Numeral.digits) = .ok g) ∧
    ∀ (text : List Char) (g : Grid Char), '\r' ∉ text → chars text = .ok g →
      (g.write fun c => [c]) = Text.dropFinalFeed text :=
  ⟨fun _ hg hlegible => ⟨chars_write hg hlegible, rfl⟩, fun _ hg hdigit => digits_write hg hdigit,
    fun _ _ htext h => write_of_chars htext h⟩

/-- Two rows, of which the last one ends in a carriage return. -/
def returning : Grid Char := ⟨2, 2, #v[#v['a', '#'], #v[' ', '\r']]⟩

/-- A row of digits. -/
def counting : Grid Nat := ⟨1, 3, #v[#v[0, 5, 9]]⟩

/-- A column of characters. -/
def upright : Grid Char := ⟨2, 1, #v[#v['.'], #v['#']]⟩

theorem text_roundtrip_returning :
    chars (returning.write fun c => [c]) = .ok returning ∧
      digits (counting.write Numeral.digits) = .ok counting ∧
      (upright.write fun c => [c]) = ['.', '\n', '#'] := by
  obtain ⟨hchars, hdigits, htext⟩ := text_roundtrip
  refine ⟨?_, ?_, ?_⟩
  · have hlegible : returning.Legible := ⟨by decide, by decide⟩
    exact (hchars returning ⟨by decide, by decide, by decide, by decide⟩ hlegible).1
  · exact hdigits counting ⟨by decide, by decide, by decide, by decide⟩ (by decide)
  · exact htext ['.', '\n', '#', '\n'] upright (by decide) rfl

end PuzzleKit.Grid

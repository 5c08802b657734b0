import PuzzleKit.Proofs.Grid.Call
import PuzzleKit.Proofs.Table

/-!
# Reading a grid and its first fault

Lines are read as a grid if they have one width and every call makes a cell. Otherwise
there is a first row that something is wrong with (`FirstFault`), and a row can be wrong
in two ways (`RowFault`): a call for it fails, or all of its calls make cells and there
are not as many as in the first row. The width is compared after the calls of the row,
so a row that is wrong in both ways is reported for the call.

That the mapper is called for each character in turn and for no other is part of this,
as the state is followed from call to call. It is read off directly when the state is
the list of the calls that were made (`recording`).

Rows and columns are counted up to `2 ^ 31` here, where all of them have coordinates.
-/

namespace PuzzleKit.Grid

variable {σ E α : Type} {f : Mapper σ E α} {s s₁ s' : σ} {row column width : Nat} {line : List Char}
  {lines : List (List Char)} {cells : List α} {e : GridTextError E}

/-! ## Rows -/

/-- What is wrong with a row: a call for it fails, or else it has another width. -/
inductive RowFault (f : Mapper σ E α) (width : Nat) (s : σ) (row : Nat) (line : List Char) :
    GridTextError E → σ → Prop
  | cell {column : Nat} {source : E} {s' : σ}
    (fails : Fails f s (lineCalls row 0 line) column source s') :
    RowFault f width s row line (.invalidCell row column source) s'
  | width {cells : List α} {s' : σ} (makes : Makes f s (lineCalls row 0 line) cells s')
    (hne : line.length ≠ width) :
    RowFault f width s row line (.unequalWidth row width line.length) s'

/-- The first row that something is wrong with, of lines from a row on. -/
def FirstFault (f : Mapper σ E α) (width : Nat) (s : σ) (row : Nat) (lines : List (List Char))
    (e : GridTextError E) (s' : σ) : Prop :=
  ∃ k line cells s₁, lines[k]? = some line ∧ (∀ earlier ∈ lines.take k, earlier.length = width) ∧
    Makes f s (callsFrom row (lines.take k)) cells s₁ ∧ RowFault f width s₁ (row + k) line e s'

theorem firstFault_cons_iff : FirstFault f width s row (line :: lines) e s' ↔
    RowFault f width s row line e s' ∨
      line.length = width ∧ ∃ cells s₁, Makes f s (lineCalls row 0 line) cells s₁ ∧
        FirstFault f width s₁ (row + 1) lines e s' := by
  constructor
  · rintro ⟨k, line', cells, s₁, hline, hwidth, hmakes, hfault⟩
    cases k with
    | zero =>
        cases hline
        cases hmakes
        exact .inl hfault
    | succ k =>
        rw [List.take_succ_cons] at hwidth hmakes
        rw [callsFrom_cons, makes_append_iff] at hmakes
        obtain ⟨front, back, s₂, hfront, hback, rfl⟩ := hmakes
        obtain ⟨hfirst, hwidth⟩ := List.forall_mem_cons.mp hwidth
        refine .inr ⟨hfirst, front, s₂, hfront, k, line', back, s₁, hline, hwidth, hback, ?_⟩
        rw [Nat.add_right_comm, Nat.add_assoc]
        exact hfault
  · rintro (hfault | ⟨hfirst, front, s₁, hfront, k, line', back, s₂, hline, hwidth, hback, hfault⟩)
    · exact ⟨0, line, [], s, rfl, by simp, .nil s, hfault⟩
    · refine ⟨k + 1, line', front ++ back, s₂, hline, ?_, ?_, ?_⟩
      · exact List.forall_mem_cons.mpr ⟨hfirst, hwidth⟩
      · exact makes_append_iff.mpr ⟨front, back, s₁, hfront, hback, rfl⟩
      · rw [Nat.add_right_comm, Nat.add_assoc] at hfault
        exact hfault

/-- Lines, from a row on, of whose characters each has a coordinate. -/
structure Locatable (row : Nat) (lines : List (List Char)) : Prop where
  rows : row + lines.length ≤ 2 ^ 31
  columns : ∀ line ∈ lines, line.length ≤ 2 ^ 31

theorem Locatable.tail (h : Locatable row (line :: lines)) : Locatable (row + 1) lines where
  rows := by
    have hrows := h.rows
    rw [List.length_cons] at hrows
    omega
  columns := fun line' hline' => h.columns line' (List.mem_cons_of_mem line hline')

theorem Locatable.row_lt (h : Locatable row (line :: lines)) : row < 2 ^ 31 := by
  have hrows := h.rows
  rw [List.length_cons] at hrows
  omega

theorem Locatable.first_line (h : Locatable row (line :: lines)) : line.length ≤ 2 ^ 31 :=
  h.columns line List.mem_cons_self

theorem Locatable.cellsOfLine_ok_iff (h : Locatable row (line :: lines)) :
    cellsOfLine f row 0 line s = (.ok cells, s') ↔ Makes f s (lineCalls row 0 line) cells s' :=
  Grid.cellsOfLine_ok_iff h.row_lt (by rw [Nat.zero_add]; exact h.first_line)

theorem Locatable.cellsOfLine_error_iff (h : Locatable row (line :: lines)) :
    cellsOfLine f row 0 line s = (.error e, s') ↔ ∃ column source,
      e = .invalidCell row column source ∧ Fails f s (lineCalls row 0 line) column source s' := by
  have hline : 0 + line.length ≤ 2 ^ 31 := by
    rw [Nat.zero_add]
    exact h.first_line
  simp only [Grid.cellsOfLine_error_iff h.row_lt hline, Nat.zero_add]

theorem length_of_makes_line (h : Makes f s (lineCalls row column line) cells s') :
    cells.length = line.length := h.length_eq.trans (length_lineCalls row column line)

theorem rowsOfLines_cons_ok_iff {rows : List (Vector α width)}
    (h : Locatable row (line :: lines)) :
    rowsOfLines f width row (line :: lines) s = (.ok rows, s') ↔
      line.length = width ∧ ∃ (cells : Vector α width) (rest : List (Vector α width)) (s₁ : σ),
        Makes f s (lineCalls row 0 line) cells.toList s₁ ∧
          rowsOfLines f width (row + 1) lines s₁ = (.ok rest, s') ∧ rows = cells :: rest := by
  rw [rowsOfLines, bind_apply_eq_ok_iff]
  constructor
  · rintro ⟨cells, s₁, hcells, hread⟩
    rw [h.cellsOfLine_ok_iff] at hcells
    split at hread
    · next hwidth =>
        obtain ⟨rest, s₂, hrest, hresult⟩ := bind_apply_eq_ok_iff.mp hread
        cases hresult
        refine ⟨?_, ⟨cells.toArray, hwidth⟩, rest, s₁, hcells, hrest, rfl⟩
        rw [← length_of_makes_line hcells, hwidth]
    · cases hread
  · rintro ⟨-, cells, rest, s₁, hcells, hrest, rfl⟩
    refine ⟨cells.toList, s₁, h.cellsOfLine_ok_iff.mpr hcells, ?_⟩
    rw [dif_pos cells.length_toList, bind_apply_of_ok hrest]
    rfl

theorem rowsOfLines_cons_error_iff (h : Locatable row (line :: lines)) :
    rowsOfLines f width row (line :: lines) s = (.error e, s') ↔
      RowFault f width s row line e s' ∨
        line.length = width ∧ ∃ cells s₁, Makes f s (lineCalls row 0 line) cells s₁ ∧
          rowsOfLines f width (row + 1) lines s₁ = (.error e, s') := by
  rw [rowsOfLines, bind_apply_eq_error_iff, h.cellsOfLine_error_iff]
  constructor
  · rintro (⟨column, source, rfl, hfails⟩ | ⟨cells, s₁, hcells, hread⟩)
    · exact .inl (.cell hfails)
    -- only a row all of whose calls made cells is compared in width
    · rw [h.cellsOfLine_ok_iff] at hcells
      have hlength := length_of_makes_line hcells
      split at hread
      · next hwidth =>
          rcases bind_apply_eq_error_iff.mp hread with hrest | ⟨rest, s₂, -, hresult⟩
          · exact .inr ⟨hlength.symm.trans hwidth, cells, s₁, hcells, hrest⟩
          · cases hresult
      · next hwidth =>
          cases hread
          rw [hlength] at hwidth ⊢
          exact .inl (.width hcells hwidth)
  · rintro (hfault | ⟨hwidth, cells, s₁, hcells, hrest⟩)
    · cases hfault with
      | cell hfails => exact .inl ⟨_, _, rfl, hfails⟩
      | @width cells _ hcells hne =>
          have hlength := length_of_makes_line hcells
          refine .inr ⟨cells, s', h.cellsOfLine_ok_iff.mpr hcells, ?_⟩
          rw [dif_neg (hlength ▸ hne), hlength]
          rfl
    · have hlength := (length_of_makes_line hcells).trans hwidth
      refine .inr ⟨cells, s₁, h.cellsOfLine_ok_iff.mpr hcells, ?_⟩
      rw [dif_pos hlength, bind_apply_of_error hrest]

theorem rowsOfLines_ok_iff {rows : List (Vector α width)} (h : Locatable row lines) :
    rowsOfLines f width row lines s = (.ok rows, s') ↔
      (∀ line ∈ lines, line.length = width) ∧ rows.length = lines.length ∧
        Makes f s (callsFrom row lines) (rows.flatMap Vector.toList) s' := by
  induction lines generalizing row s rows with
  | nil =>
      constructor
      · intro h
        cases h
        exact ⟨by simp, rfl, .nil _⟩
      · rintro ⟨-, hrows, hmakes⟩
        cases List.eq_nil_of_length_eq_zero hrows
        cases hmakes
        rfl
  | cons line lines ih =>
      rw [rowsOfLines_cons_ok_iff h, List.forall_mem_cons, callsFrom_cons, makes_append_iff]
      constructor
      · rintro ⟨hwidth, cells, rest, s₁, hcells, hrest, rfl⟩
        obtain ⟨hwidths, hrows, hmakes⟩ := (ih h.tail).mp hrest
        refine ⟨⟨hwidth, hwidths⟩, congrArg (· + 1) hrows, ?_⟩
        exact ⟨cells.toList, rest.flatMap Vector.toList, s₁, hcells, hmakes, rfl⟩
      · rintro ⟨⟨hwidth, hwidths⟩, hrows, front, back, s₁, hfront, hback, hsplit⟩
        refine ⟨hwidth, ?_⟩
        cases rows with
        | nil => cases hrows
        | cons cells rest =>
            have hlength : cells.toList.length = front.length := by
              rw [cells.length_toList, length_of_makes_line hfront, hwidth]
            -- the first row takes up as many cells as its line has characters
            obtain ⟨rfl, rfl⟩ := List.append_inj hsplit hlength
            refine ⟨cells, rest, s₁, hfront, ?_, rfl⟩
            exact (ih h.tail).mpr ⟨hwidths, Nat.succ.inj hrows, hback⟩

theorem rowsOfLines_error_iff (h : Locatable row lines) :
    rowsOfLines f width row lines s = (.error e, s') ↔ FirstFault f width s row lines e s' := by
  induction lines generalizing row s with
  | nil => exact ⟨(nomatch ·), fun ⟨_, _, _, _, h, _⟩ => nomatch h⟩
  | cons line lines ih =>
      simp only [rowsOfLines_cons_error_iff h, firstFault_cons_iff, ih h.tail]

/-! ## The grid of the rows -/

variable {g : Grid α} {rows : List (Vector α width)} {call : Call} {a : α}

def ofRows (rows : List (Vector α width)) : Grid α := ⟨rows.length, width, ⟨rows.toArray, rfl⟩⟩

/-- The cells, row by row and each row from the left. -/
def inOrder (g : Grid α) : List α := g.table.toLists.flatten

theorem exists_eq_ofRows (g : Grid α) : ∃ rows : List (Vector α g.width), g = ofRows rows := by
  obtain ⟨height, width, ⟨⟨rows⟩, rfl⟩⟩ := g
  exact ⟨rows, rfl⟩

theorem inOrder_ofRows (rows : List (Vector α width)) :
    (ofRows rows).inOrder = rows.flatMap Vector.toList := by
  rw [inOrder, Table.toLists_eq, List.flatMap_def]
  rfl

/-- The first line is read as any other, since it has the width that it sets. -/
theorem ofLines_cons (h : Locatable 0 (line :: lines)) (hwidth : line.length = width) :
    ofLines f (line :: lines) s =
      match rowsOfLines f width 0 (line :: lines) s with
      | (.ok rows, s') => (.ok (ofRows rows), s')
      | (.error e, s') => (.error e, s') := by
  rcases hfirst : cellsOfLine f 0 0 line s with ⟨e | first, s₁⟩
  · rw [ofLines, rowsOfLines, bind_apply_of_error hfirst, bind_apply_of_error hfirst]
  · have hlength : first.length = width := by
      rw [length_of_makes_line (h.cellsOfLine_ok_iff.mp hfirst), hwidth]
    subst hlength
    rw [ofLines, rowsOfLines, bind_apply_of_ok hfirst, bind_apply_of_ok hfirst, dif_pos rfl]
    rcases hrest : rowsOfLines f first.length 1 lines s₁ with ⟨e | rest, s₂⟩
    · rw [bind_apply_of_error hrest, bind_apply_of_error hrest]
    · rw [bind_apply_of_ok hrest, bind_apply_of_ok hrest]
      rfl

def lineWidth (lines : List (List Char)) : Nat := (lines.headD []).length

theorem ofLines_ok_iff (h : Locatable 0 lines) :
    ofLines f lines s = (.ok g, s') ↔
      lines ≠ [] ∧ g.height = lines.length ∧ g.width = lineWidth lines ∧
        (∀ line ∈ lines, line.length = lineWidth lines) ∧
          Makes f s (callsFrom 0 lines) g.inOrder s' := by
  cases lines with
  | nil => exact ⟨(nomatch ·), fun ⟨h, _⟩ => absurd rfl h⟩
  | cons line lines =>
      constructor
      · intro hread
        rw [ofLines_cons h rfl] at hread
        rcases hrows : rowsOfLines f line.length 0 (line :: lines) s with ⟨e | rows, s₁⟩
        · rw [hrows] at hread
          cases hread
        · rw [hrows] at hread
          cases hread
          obtain ⟨hwidths, hlength, hmakes⟩ := (rowsOfLines_ok_iff h).mp hrows
          rw [inOrder_ofRows]
          exact ⟨List.cons_ne_nil _ _, hlength, rfl, hwidths, hmakes⟩
      · rintro ⟨-, hheight, hwidth, hwidths, hmakes⟩
        obtain ⟨rows, hg⟩ := exists_eq_ofRows g
        rw [← hwidth] at hwidths
        rw [ofLines_cons h hwidth.symm]
        rw [hg, inOrder_ofRows] at hmakes
        rw [(rowsOfLines_ok_iff h).mpr ⟨hwidths, hheight ▸ congrArg height hg.symm, hmakes⟩]
        exact congrArg (fun g => (Except.ok g, s')) hg.symm

theorem ofLines_error_iff (h : Locatable 0 lines) (hne : lines ≠ []) :
    ofLines f lines s = (.error e, s') ↔ FirstFault f (lineWidth lines) s 0 lines e s' := by
  cases lines with
  | nil => exact absurd rfl hne
  | cons line lines =>
      rw [ofLines_cons h rfl, lineWidth, List.headD_cons, ← rowsOfLines_error_iff h]
      rcases rowsOfLines f line.length 0 (line :: lines) s with ⟨e' | rows, s₁⟩
      · exact ⟨fun h => by cases h; rfl, fun h => by cases h; rfl⟩
      · exact ⟨(nomatch ·), (nomatch ·)⟩

/-! ## The cells of the grid -/

theorem mem_zip_lineCalls {call : Call} {a : α} (cells : Vector α width)
    (hline : line.length = width) (h : (call, a) ∈ (lineCalls row 0 line).zip cells.toList) :
    ∃ j : Fin width, call.1 = locate row j ∧ cells.get j = a := by
  obtain ⟨j, hj, hcell⟩ := List.mem_iff_getElem.mp h
  rw [List.length_zip, length_lineCalls, cells.length_toList, hline, Nat.min_self] at hj
  rw [List.getElem_zip, Prod.mk.injEq] at hcell
  obtain ⟨rfl, rfl⟩ := hcell
  refine ⟨⟨j, hj⟩, ?_, rfl⟩
  simp [lineCalls]

/-- Each cell that was made is in the row and the column of its call. -/
theorem mem_zip_callsFrom {rows : List (Vector α width)} {call : Call} {a : α}
    (hwidths : ∀ line ∈ lines, line.length = width) (hlength : rows.length = lines.length)
    (h : (call, a) ∈ (callsFrom row lines).zip (rows.flatMap Vector.toList)) :
    ∃ (i : Fin rows.length) (j : Fin width),
      call.1 = locate (row + i) j ∧ (rows.get i).get j = a := by
  induction lines generalizing row rows with
  | nil => exact absurd h List.not_mem_nil
  | cons line lines ih =>
      cases rows with
      | nil => cases hlength
      | cons cells rows =>
          obtain ⟨hline, hwidths⟩ := List.forall_mem_cons.mp hwidths
          rw [callsFrom_cons, List.flatMap_cons, List.zip_append, List.mem_append] at h
          · rcases h with h | h
            · obtain ⟨j, hcall, hcell⟩ := mem_zip_lineCalls cells hline h
              exact ⟨⟨0, Nat.succ_pos _⟩, j, hcall, hcell⟩
            · obtain ⟨i, j, hcall, hcell⟩ := ih hwidths (Nat.succ.inj hlength) h
              refine ⟨i.succ, j, ?_, hcell⟩
              rw [hcall, Fin.val_succ, Nat.add_right_comm, Nat.add_assoc]
          · rw [length_lineCalls, cells.length_toList, hline]

theorem get?_of_mem_zip {call : Call} {a : α} (h : Locatable 0 lines)
    (hheight : g.height = lines.length) (hwidths : ∀ line ∈ lines, line.length = g.width)
    (hcall : (call, a) ∈ (callsFrom 0 lines).zip g.inOrder) : g.get? call.1 = some a := by
  have hrows : g.height ≤ 2 ^ 31 := by
    have hlines := h.rows
    omega
  have hcolumns : g.width ≤ 2 ^ 31 := by
    cases lines with
    | nil => exact absurd hcall List.not_mem_nil
    | cons line lines =>
        rw [← hwidths line List.mem_cons_self]
        exact h.columns line List.mem_cons_self
  obtain ⟨rows, hg⟩ := exists_eq_ofRows g
  generalize g.width = width at rows hg hwidths hcolumns
  subst hg
  rw [inOrder_ofRows] at hcall
  obtain ⟨i, j, hlocate, hcell⟩ := mem_zip_callsFrom hwidths hheight hcall
  rw [hlocate, Nat.zero_add]
  exact (get?_locate hcolumns hrows i j).trans (congrArg some hcell)

/-! ## The calls that are made -/

/-- The mapper that keeps account of its calls beside its state. -/
def recording (f : Mapper σ E α) : Mapper (σ × List Call) E α :=
  fun coordinate c (s, made) =>
    ((f coordinate c s).1, (f coordinate c s).2, made ++ [(coordinate, c)])

theorem recording_apply {call : Call} {answer : Except E α} (h : f call.1 call.2 s = (answer, s'))
    (made : List Call) :
    recording f call.1 call.2 (s, made) = (answer, s', made ++ [call]) := by
  rw [recording, h]

theorem Makes.recorded {calls : List Call} (h : Makes f s calls cells s') (made : List Call) :
    Makes (recording f) (s, made) calls cells (s', made ++ calls) := by
  induction h generalizing made with
  | nil s =>
      rw [List.append_nil]
      exact .nil _
  | @cons _ _ _ call calls _ _ first _ ih =>
      have hrest := ih (made ++ [call])
      rw [List.append_assoc, List.singleton_append] at hrest
      exact .cons (recording_apply first made) hrest

theorem Fails.recorded {calls : List Call} {k : Nat} {source : E}
    (h : Fails f s calls k source s') (made : List Call) :
    Fails (recording f) (s, made) calls k source (s', made ++ calls.take (k + 1)) := by
  induction h generalizing made with
  | here first => exact .here (recording_apply first made)
  | @later _ _ _ call calls _ k _ first _ ih =>
      have hrest := ih (made ++ [call])
      rw [List.append_assoc, List.singleton_append, ← List.take_succ_cons] at hrest
      exact .later (recording_apply first made) hrest

/-- The calls that a result takes. -/
def callsUntil (lines : List (List Char)) : Except (GridTextError E) (Grid α) → List Call
  | .ok _ => callsFrom 0 lines
  | .error (.invalidCell row column _) =>
    callsFrom 0 (lines.take row) ++ (lineCalls row 0 (lines.getD row [])).take (column + 1)
  | .error (.unequalWidth row _ _) => callsFrom 0 (lines.take (row + 1))
  | .error _ => []

theorem callsFrom_append (row : Nat) (lines lines' : List (List Char)) :
    callsFrom row (lines ++ lines') =
      callsFrom row lines ++ callsFrom (row + lines.length) lines' := by
  simp only [callsFrom, List.zipIdx_append, List.flatMap_append]

theorem callsFrom_take_succ {k : Nat} (h : lines[k]? = some line) :
    callsFrom 0 (lines.take (k + 1)) = callsFrom 0 (lines.take k) ++ lineCalls k 0 line := by
  obtain ⟨hk, -⟩ := List.getElem?_eq_some_iff.mp h
  have hlength : (lines.take k).length = k := List.length_take_of_le hk.le
  rw [List.take_add_one, h, callsFrom_append, hlength, Nat.zero_add, Option.toList_some,
    callsFrom_cons]
  exact congrArg _ (List.append_nil _)

theorem FirstFault.recorded (h : FirstFault f width s 0 lines e s') :
    FirstFault (recording f) width (s, []) 0 lines e
      (s', callsUntil (α := α) lines (.error e)) := by
  obtain ⟨k, line, cells, s₁, hline, hwidth, hmakes, hfault⟩ := h
  refine ⟨k, line, cells, _, hline, hwidth, hmakes.recorded [], ?_⟩
  rw [Nat.zero_add] at hfault ⊢
  cases hfault with
  | cell fails =>
      rw [callsUntil, List.getD_eq_getElem?_getD, hline, Option.getD_some]
      exact .cell (fails.recorded _)
  | width makes hne =>
      rw [callsUntil, callsFrom_take_succ hline]
      exact .width (makes.recorded _) hne

/-! ## What reading comes to -/

/-- Cells are the rows of a grid if there are as many of them as there are calls. -/
theorem exists_rows (hwidths : ∀ line ∈ lines, line.length = width)
    (hcells : cells.length = (callsFrom row lines).length) :
    ∃ rows : List (Vector α width), rows.length = lines.length ∧
      rows.flatMap Vector.toList = cells := by
  induction lines generalizing row cells with
  | nil =>
      cases List.eq_nil_of_length_eq_zero hcells
      exact ⟨[], rfl, rfl⟩
  | cons line lines ih =>
      obtain ⟨hline, hwidths⟩ := List.forall_mem_cons.mp hwidths
      rw [callsFrom_cons, List.length_append, length_lineCalls, hline] at hcells
      have hlength : (cells.drop width).length = (callsFrom (row + 1) lines).length := by
        rw [List.length_drop]
        omega
      obtain ⟨rows, hrows, hrest⟩ := ih hwidths hlength
      have hfirst : (cells.take width).length = width := List.length_take_of_le (by omega)
      refine ⟨⟨(cells.take width).toArray, hfirst⟩ :: rows, congrArg (· + 1) hrows, ?_⟩
      rw [List.flatMap_cons, hrest]
      exact List.take_append_drop width cells

/-- What reading some lines comes to. -/
structure ReadsLines (f : Mapper σ E α) (lines : List (List Char)) (s : σ)
    (read : Except (GridTextError E) (Grid α) × σ) : Prop where
  ok_iff : (∃ g, read.1 = .ok g) ↔
    lines ≠ [] ∧ (∀ line ∈ lines, line.length = lineWidth lines) ∧
      ∃ cells s', Makes f s (callsFrom 0 lines) cells s'
  grid : ∀ g, read.1 = .ok g → g.height = lines.length ∧ g.width = lineWidth lines ∧
    ∃ cells, Makes f s (callsFrom 0 lines) cells read.2 ∧
      ∀ call a, (call, a) ∈ (callsFrom 0 lines).zip cells → g.get? call.1 = some a
  empty_iff : read.1 = .error .empty ↔ lines = []
  error_iff : lines ≠ [] → ∀ e,
    read.1 = .error e ↔ FirstFault f (lineWidth lines) s 0 lines e read.2

theorem readsLines_ofLines (h : Locatable 0 lines) :
    ReadsLines f lines s (ofLines f lines s) where
  ok_iff := by
    constructor
    · rintro ⟨g, hg⟩
      obtain ⟨hne, -, -, hwidths, hmakes⟩ := (ofLines_ok_iff h).mp (Prod.ext hg rfl)
      exact ⟨hne, hwidths, _, _, hmakes⟩
    · rintro ⟨hne, hwidths, cells, s', hmakes⟩
      obtain ⟨rows, hrows, rfl⟩ := exists_rows hwidths hmakes.length_eq
      rw [← inOrder_ofRows] at hmakes
      exact ⟨_, congrArg Prod.fst ((ofLines_ok_iff h).mpr ⟨hne, hrows, rfl, hwidths, hmakes⟩)⟩
  grid g hg := by
    obtain ⟨-, hheight, hwidth, hwidths, hmakes⟩ := (ofLines_ok_iff h).mp (Prod.ext hg rfl)
    refine ⟨hheight, hwidth, _, hmakes, fun call a hcall => ?_⟩
    rw [← hwidth] at hwidths
    exact get?_of_mem_zip h hheight hwidths hcall
  empty_iff := by
    constructor
    · intro hempty
      by_contra hne
      obtain ⟨k, line, cells, s₁, -, -, -, hfault⟩ :=
        (ofLines_error_iff h hne).mp (Prod.ext hempty rfl)
      cases hfault
    · rintro rfl
      rfl
  error_iff hne e := by
    rw [← ofLines_error_iff h hne]
    exact ⟨fun he => Prod.ext he rfl, congrArg Prod.fst⟩

theorem ofLines_recording (h : Locatable 0 lines) :
    ofLines (recording f) lines (s, []) =
      ((ofLines f lines s).1, (ofLines f lines s).2, callsUntil lines (ofLines f lines s).1) := by
  rcases hread : ofLines f lines s with ⟨e | g, s'⟩
  · by_cases hne : lines = []
    · subst hne
      cases hread
      rfl
    · exact (ofLines_error_iff h hne).mpr ((ofLines_error_iff h hne).mp hread).recorded
  · obtain ⟨hne, hheight, hwidth, hwidths, hmakes⟩ := (ofLines_ok_iff h).mp hread
    exact (ofLines_ok_iff h).mpr ⟨hne, hheight, hwidth, hwidths, hmakes.recorded []⟩

/-- A text is read as a grid if its lines have one width and the mapper makes a cell of
each character, and otherwise the first row that something is wrong with is reported.
The mapper is called once for each character, row by row, up to the first failure. -/
theorem build_first_fault (f : Mapper σ E α) (text : List Char) (s : σ)
    (hrows : (Text.lines text).length ≤ 2 ^ 31)
    (hcolumns : ∀ line ∈ Text.lines text, line.length ≤ 2 ^ 31) :
    ReadsLines f (Text.lines text) s (build f text s) ∧
      build (recording f) text (s, []) =
        ((build f text s).1, (build f text s).2,
          callsUntil (Text.lines text) (build f text s).1) := by
  have h : Locatable 0 (Text.lines text) := ⟨by rw [Nat.zero_add]; exact hrows, hcolumns⟩
  exact ⟨readsLines_ofLines h, ofLines_recording h⟩

/-- A mapper that makes cells of the number of calls before, and fails for one character. -/
def tally : Mapper Nat Char Nat := fun _ c calls =>
  (if c = '!' then .error c else .ok calls, calls + 1)

theorem build_first_fault_tally :
    ReadsLines tally [['a', 'b'], ['!'], ['c']] 0
        (build tally ['a', 'b', '\n', '!', '\n', 'c'] 0) ∧
      build (recording tally) ['a', 'b', '\n', '!', '\n', 'c'] (0, []) =
        (.error (.invalidCell 1 0 '!'), 3, [(⟨0, 0⟩, 'a'), (⟨1, 0⟩, 'b'), (⟨0, 1⟩, '!')]) :=
  build_first_fault tally ['a', 'b', '\n', '!', '\n', 'c'] 0 (by decide) (by decide)

end PuzzleKit.Grid

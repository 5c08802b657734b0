import PuzzleKit.Grid.Text
import PuzzleKit.Proofs.Fallible
import PuzzleKit.Proofs.Grid.Position

/-!
# The calls that make the cells of a grid

A grid is read by calling a mapper for one character after the other. The mapper may
keep a state, so its answers can depend on the calls before, and how often it is called
and in which order shows in the state that it leaves. Two relations say what a series of
calls does from a state to a state: in `Makes` each of them makes a cell, and in `Fails`
one does not and it is the last. Reading a line, and reading lines that are to have one
width, are no more than these calls: each equivalence below says what a result means for
the calls, and there is one for the rows that are read and one for the first fault.
-/

namespace PuzzleKit.Grid

variable {σ E ε α β γ : Type} {s s₁ s' : σ} {a : α} {e : ε}

/-! ## Calls -/

/-- The coordinate and the character for which a cell is to be made. -/
abbrev Call := Coordinate .i32 × Char

abbrev Mapper (σ E α : Type) := Coordinate .i32 → Char → StateM σ (Except E α)

/-- Calls that are made one after the other and each make a cell. -/
inductive Makes (f : Mapper σ E α) : σ → List Call → List α → σ → Prop
  | nil (s : σ) : Makes f s [] [] s
  | cons {s s₁ s' : σ} {call : Call} {calls : List Call} {a : α} {cells : List α}
    (first : f call.1 call.2 s = (.ok a, s₁)) (rest : Makes f s₁ calls cells s') :
    Makes f s (call :: calls) (a :: cells) s'

/-- Calls of which the one with a number fails, after each before it has made a cell.
None is made after it. -/
inductive Fails (f : Mapper σ E α) : σ → List Call → Nat → E → σ → Prop
  | here {s s' : σ} {call : Call} {calls : List Call} {source : E}
    (first : f call.1 call.2 s = (.error source, s')) : Fails f s (call :: calls) 0 source s'
  | later {s s₁ s' : σ} {call : Call} {calls : List Call} {a : α} {k : Nat} {source : E}
    (first : f call.1 call.2 s = (.ok a, s₁)) (rest : Fails f s₁ calls k source s') :
    Fails f s (call :: calls) (k + 1) source s'

variable {f : Mapper σ E α} {call : Call} {calls calls' : List Call} {cells : List α}

theorem Makes.length_eq (h : Makes f s calls cells s') : cells.length = calls.length := by
  induction h with
  | nil => rfl
  | cons _ _ ih => rw [List.length_cons, List.length_cons, ih]

theorem makes_cons_iff : Makes f s (call :: calls) cells s' ↔
    ∃ a s₁ rest, f call.1 call.2 s = (.ok a, s₁) ∧ Makes f s₁ calls rest s' ∧
      cells = a :: rest := by
  constructor
  · intro h
    cases h with
    | cons first rest => exact ⟨_, _, _, first, rest, rfl⟩
  · rintro ⟨a, s₁, rest, first, hrest, rfl⟩
    exact .cons first hrest

theorem makes_append_iff : Makes f s (calls ++ calls') cells s' ↔
    ∃ front back s₁, Makes f s calls front s₁ ∧ Makes f s₁ calls' back s' ∧
      cells = front ++ back := by
  induction calls generalizing s cells with
  | nil =>
      constructor
      · intro h
        exact ⟨[], cells, s, .nil s, h, rfl⟩
      · rintro ⟨front, back, s₁, hfront, hback, rfl⟩
        cases hfront
        exact hback
  | cons call calls ih =>
      rw [List.cons_append, makes_cons_iff]
      constructor
      · rintro ⟨a, s₁, rest, first, hrest, rfl⟩
        obtain ⟨front, back, s₂, hfront, hback, rfl⟩ := ih.mp hrest
        exact ⟨a :: front, back, s₂, .cons first hfront, hback, rfl⟩
      · rintro ⟨front, back, s₂, hfront, hback, rfl⟩
        obtain ⟨a, s₁, rest, first, hrest, rfl⟩ := makes_cons_iff.mp hfront
        exact ⟨a, s₁, rest ++ back, first, ih.mpr ⟨rest, back, s₂, hrest, hback, rfl⟩, rfl⟩

/-- The calls for the characters of a line, from a column on. -/
def lineCalls (row column : Nat) (line : List Char) : List Call :=
  (line.zipIdx column).map fun (c, column) => (locate row column, c)

/-- The calls for the characters of some lines, from a row on. -/
def callsFrom (row : Nat) (lines : List (List Char)) : List Call :=
  (lines.zipIdx row).flatMap fun (line, row) => lineCalls row 0 line

variable {row column width : Nat} {c : Char} {line : List Char} {lines : List (List Char)}

theorem lineCalls_cons (row column : Nat) (c : Char) (line : List Char) :
    lineCalls row column (c :: line) = (locate row column, c) :: lineCalls row (column + 1) line :=
  rfl

theorem length_lineCalls (row column : Nat) (line : List Char) :
    (lineCalls row column line).length = line.length := by
  rw [lineCalls, List.length_map, List.length_zipIdx]

theorem callsFrom_cons (row : Nat) (line : List Char) (lines : List (List Char)) :
    callsFrom row (line :: lines) = lineCalls row 0 line ++ callsFrom (row + 1) lines := rfl

/-! ## Reading a line -/

theorem cellOf_apply (hrow : row < 2 ^ 31) (hcolumn : column < 2 ^ 31) :
    cellOf f row column c s =
      match f (locate row column) c s with
      | (.ok a, s') => (.ok a, s')
      | (.error source, s') => (.error (.invalidCell row column source), s') := by
  have hcall : (liftM (f (locate row column) c) :
      ExceptT (GridTextError E) (StateM σ) (Except E α)) s =
        (.ok (f (locate row column) c s).1, (f (locate row column) c s).2) := rfl
  rw [cellOf, coordinateAt_eq_locate hrow hcolumn]
  simp only []
  rw [bind_apply_of_ok hcall]
  rcases f (locate row column) c s with ⟨source | a, s'⟩ <;> rfl

theorem cellOf_ok_iff (hrow : row < 2 ^ 31) (hcolumn : column < 2 ^ 31) :
    cellOf f row column c s = (.ok a, s') ↔ f (locate row column) c s = (.ok a, s') := by
  rw [cellOf_apply hrow hcolumn]
  rcases f (locate row column) c s with ⟨source | b, s₁⟩
  · exact ⟨(nomatch ·), (nomatch ·)⟩
  · exact ⟨fun h => by cases h; rfl, fun h => by cases h; rfl⟩

theorem cellOf_error_iff {e : GridTextError E} (hrow : row < 2 ^ 31) (hcolumn : column < 2 ^ 31) :
    cellOf f row column c s = (.error e, s') ↔
      ∃ source, e = .invalidCell row column source ∧
        f (locate row column) c s = (.error source, s') := by
  rw [cellOf_apply hrow hcolumn]
  rcases f (locate row column) c s with ⟨source | b, s₁⟩
  · constructor
    · intro h
      cases h
      exact ⟨source, rfl, rfl⟩
    · rintro ⟨source, rfl, h⟩
      cases h
      rfl
  · exact ⟨(nomatch ·), fun ⟨_, _, h⟩ => nomatch h⟩

theorem cellsOfLine_ok_iff (hrow : row < 2 ^ 31) (hline : column + line.length ≤ 2 ^ 31) :
    cellsOfLine f row column line s = (.ok cells, s') ↔
      Makes f s (lineCalls row column line) cells s' := by
  induction line generalizing column s cells with
  | nil =>
      constructor
      · intro h
        cases h
        exact .nil _
      · intro h
        cases h
        rfl
  | cons c line ih =>
      rw [List.length_cons] at hline
      rw [cellsOfLine, lineCalls_cons, bind_apply_eq_ok_iff, makes_cons_iff]
      refine exists_congr fun a => exists_congr fun s₁ => ?_
      rw [cellOf_ok_iff hrow (by omega), bind_apply_eq_ok_iff]
      constructor
      · rintro ⟨hcall, rest, s₂, hrest, hresult⟩
        cases hresult
        exact ⟨rest, hcall, (ih (by omega)).mp hrest, rfl⟩
      · rintro ⟨rest, hcall, hrest, rfl⟩
        exact ⟨hcall, rest, s', (ih (by omega)).mpr hrest, rfl⟩

theorem cellsOfLine_error_iff {e : GridTextError E} (hrow : row < 2 ^ 31)
    (hline : column + line.length ≤ 2 ^ 31) :
    cellsOfLine f row column line s = (.error e, s') ↔
      ∃ k source, e = .invalidCell row (column + k) source ∧
        Fails f s (lineCalls row column line) k source s' := by
  induction line generalizing column s with
  | nil => exact ⟨(nomatch ·), fun ⟨_, _, _, h⟩ => nomatch h⟩
  | cons c line ih =>
      rw [List.length_cons] at hline
      rw [cellsOfLine, lineCalls_cons, bind_apply_eq_error_iff, cellOf_error_iff hrow (by omega)]
      constructor
      · rintro (⟨source, rfl, hcall⟩ | ⟨a, s₁, hcall, h⟩)
        · exact ⟨0, source, rfl, .here hcall⟩
        · rw [cellOf_ok_iff hrow (by omega)] at hcall
          rcases bind_apply_eq_error_iff.mp h with hrest | ⟨rest, s₂, -, hresult⟩
          · obtain ⟨k, source, rfl, hfails⟩ := (ih (by omega)).mp hrest
            exact ⟨k + 1, source, by rw [Nat.add_right_comm, Nat.add_assoc], .later hcall hfails⟩
          · cases hresult
      · rintro ⟨k, source, rfl, hfails⟩
        cases hfails with
        | here hcall => exact .inl ⟨source, rfl, hcall⟩
        | @later _ s₁ _ _ _ a k _ hcall hrest =>
            refine .inr ⟨a, s₁, (cellOf_ok_iff hrow (by omega)).mpr hcall,
              bind_apply_eq_error_iff.mpr ?_⟩
            refine .inl ((ih (by omega)).mpr ⟨k, source, ?_, hrest⟩)
            rw [Nat.add_right_comm, Nat.add_assoc]

end PuzzleKit.Grid

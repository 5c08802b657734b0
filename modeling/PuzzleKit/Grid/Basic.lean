import PuzzleKit.Geometry.Coordinate
import PuzzleKit.Table

/-!
# Grids

A grid is a table of cells that coordinates index: `y` is the row and `x` the
column, over whatever width the coordinates have. Coordinates that the grid
itself hands out are of 32 bits, so a grid may be too large for some of its
cells to have one.
-/

namespace PuzzleKit

structure Grid (α : Type) where
  height : Nat
  width : Nat
  table : Table α height width

/-- Why a grid cannot answer. -/
inductive GridFault
  | outside (coordinate : String) (width height : Nat)
  | widthTooLarge
  | heightTooLarge
  | arithmetic (fault : ArithmeticFault)
deriving DecidableEq

def GridFault.message : GridFault → String
  | .outside coordinate width height =>
    s!"coordinate {coordinate} is outside the {width}x{height} grid"
  | .widthTooLarge => "grid width fits in i32"
  | .heightTooLarge => "grid height fits in i32"
  | .arithmetic fault => fault.message

namespace Grid

variable {α : Type} {w : Width}

instance [DecidableEq α] : DecidableEq (Grid α)
  | ⟨h₁, w₁, t₁⟩, ⟨h₂, w₂, t₂⟩ =>
    if h : h₁ = h₂ ∧ w₁ = w₂ then
      match h₁, w₁, t₁, h with
      | _, _, t₁, ⟨rfl, rfl⟩ =>
        if ht : t₁ = t₂ then isTrue (by rw [ht])
        else isFalse fun e => ht (by cases e; rfl)
    else isFalse fun e => h (by cases e; exact ⟨rfl, rfl⟩)

/-- A grid with the same value in every cell. -/
def filled (width height : Nat) (a : α) : Grid α :=
  ⟨height, width, Vector.ofFn fun _ => Vector.replicate width a⟩

/-- A grid with the same value in every cell, if so many cells of four bytes can
be held. -/
def ofSize (width height : Nat) (a : α) : Except GridFault (Grid α) := do
  let _ ← (Word.listSize 4 height width).mapError .arithmetic
  return filled width height a

/-- The coordinate of a row and a column. -/
def coordinateAt (row column : Nat) : Except GridFault (Coordinate .i32) :=
  match Word.ofInt? .i32 column, Word.ofInt? .i32 row with
  | none, _ => .error .widthTooLarge
  | some _, none => .error .heightTooLarge
  | some x, some y => .ok ⟨x, y⟩

/-- The row and the column of a coordinate inside the grid. -/
def index? (g : Grid α) (c : Coordinate w) : Option (Fin g.height × Fin g.width) :=
  if h : (0 ≤ c.y.val ∧ c.y.val < g.height) ∧ (0 ≤ c.x.val ∧ c.x.val < g.width) then
    some (⟨c.y.val.toNat, by omega⟩, ⟨c.x.val.toNat, by omega⟩)
  else none

def contains (g : Grid α) (c : Coordinate w) : Bool := (g.index? c).isSome

/-- The cell at a coordinate, if it lies inside the grid. -/
def get? (g : Grid α) (c : Coordinate w) : Option α :=
  (g.index? c).map fun (i, j) => g.table.cell i j

/-- The grid with a new value in one cell. -/
def setCell (g : Grid α) (i : Fin g.height) (j : Fin g.width) (a : α) : Grid α :=
  { g with table := g.table.setCell i j a }

/-- Replace a cell: the value it had, and the grid with the new one. Outside
the grid there is nothing to replace. -/
def set (g : Grid α) (c : Coordinate w) (a : α) : Option α × Grid α :=
  match g.index? c with
  | none => (none, g)
  | some (i, j) => (some (g.table.cell i j), g.setCell i j a)

def outsideFault (g : Grid α) (c : Coordinate w) : GridFault :=
  .outside c.toText g.width g.height

/-- The cell at a coordinate that has to lie inside the grid. -/
def get (g : Grid α) (c : Coordinate w) : Except GridFault α :=
  match g.get? c with
  | some a => .ok a
  | none => .error (g.outsideFault c)

/-- Assign to a cell at a coordinate that has to lie inside the grid. -/
def assign (g : Grid α) (c : Coordinate w) (a : α) : Except GridFault (Grid α) :=
  match g.index? c with
  | some (i, j) => .ok (g.setCell i j a)
  | none => .error (g.outsideFault c)

/-- The steps from a coordinate, in the given directions, that end inside the
grid. Every step has to fit the width, wherever it ends. -/
def neighborsIn (g : Grid α) (c : Coordinate w) :
    List Direction → Except ArithmeticFault (List (Direction × Coordinate w))
  | [] => .ok []
  | d :: directions => do
    let next ← c.step d
    let rest ← g.neighborsIn c directions
    return if g.contains next then (d, next) :: rest else rest

def cardinalNeighbors (g : Grid α) (c : Coordinate w) := g.neighborsIn c Direction.cardinal

def ordinalNeighbors (g : Grid α) (c : Coordinate w) := g.neighborsIn c Direction.ordinal

def allNeighbors (g : Grid α) (c : Coordinate w) := g.neighborsIn c Direction.all

/-- Map every cell by a function that may have effects. The cells are visited
column by column, each column from the top; without rows there is none. -/
def mapM {m : Type → Type} [Monad m] {β : Type} (f : α → m β) (g : Grid α) : m (Grid β) :=
  if g.height = 0 then return ⟨0, g.width, #v[]⟩
  else do
    let columns ← Vector.ofFnM fun j : Fin g.width =>
      Vector.ofFnM fun i : Fin g.height => f (g.table.cell i j)
    return ⟨g.height, g.width, Table.transpose columns⟩

/-- Map every cell. -/
def map {β : Type} (f : α → β) (g : Grid α) : Grid β :=
  ⟨g.height, g.width, g.table.mapCells f⟩

end Grid

end PuzzleKit

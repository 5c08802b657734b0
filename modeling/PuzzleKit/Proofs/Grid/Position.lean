import Mathlib.Algebra.Group.Nat.Defs
import Mathlib.Data.List.Forall2
import PuzzleKit.Grid.Query
import PuzzleKit.Proofs.Geometry.Rectangle

/-!
# Positions and coordinates

A grid counts its rows and columns from zero without a bound, while the coordinates
it hands out are of 32 bits. A position has a coordinate if both of its numbers are
less than `2 ^ 31`, and that is so everywhere in a grid that is at most that wide and
high.
-/

namespace PuzzleKit

namespace Grid

variable {α : Type} {g : Grid α} {row column : Nat} {w : Width} {c : Coordinate .i32}
  {p : Coordinate w} {a : α}

/-- A grid with cells, each of which has a coordinate. -/
structure Addressable (g : Grid α) : Prop where
  width_pos : 0 < g.width
  height_pos : 0 < g.height
  width_le : g.width ≤ 2 ^ 31
  height_le : g.height ≤ 2 ^ 31

/-- The grid has a cell with the numbers `x` and `y`. -/
def Inside (g : Grid α) (key : Int × Int) : Prop :=
  (0 ≤ key.1 ∧ key.1 < g.width) ∧ 0 ≤ key.2 ∧ key.2 < g.height

instance (key : Int × Int) : Decidable (g.Inside key) := inferInstanceAs (Decidable (_ ∧ _))

theorem coordinateAt_eq_ok_iff :
    coordinateAt row column = .ok c ↔ c.x.val = column ∧ c.y.val = row := by
  rw [← Word.ofInt?_eq_some_iff, ← Word.ofInt?_eq_some_iff, coordinateAt]
  cases hx : Word.ofInt? .i32 column with
  | none => simp
  | some x =>
      cases hy : Word.ofInt? .i32 row with
      | none => simp
      | some y =>
          cases c
          simp

/-- The coordinate of a row and a column, where it has one. -/
def locate (row column : Nat) : Coordinate .i32 :=
  ⟨(0 : Word .i32).offset column, (0 : Word .i32).offset row⟩

theorem key_locate (hrow : row < 2 ^ 31) (hcolumn : column < 2 ^ 31) :
    (locate row column).key = (↑column, ↑row) := by
  have hfits : ∀ k : Nat, k < 2 ^ 31 → ((0 : Word .i32).offset k).val = k := by
    intro k hk
    have hzero : (0 : Word .i32).val = 0 := rfl
    have hmax : Width.i32.max = 2 ^ 31 - 1 := rfl
    rw [Word.offset_val (by omega)]
    omega
  rw [Coordinate.key, locate, hfits column hcolumn, hfits row hrow]

theorem coordinateAt_eq_locate (hrow : row < 2 ^ 31) (hcolumn : column < 2 ^ 31) :
    coordinateAt row column = .ok (locate row column) :=
  coordinateAt_eq_ok_iff.mpr (Prod.mk.inj (key_locate hrow hcolumn))

theorem exists_coordinateAt (hrow : row < 2 ^ 31) (hcolumn : column < 2 ^ 31) :
    ∃ c, coordinateAt row column = .ok c :=
  ⟨_, coordinateAt_eq_locate hrow hcolumn⟩

/-! ## Cells -/

theorem index?_eq_some_iff {i : Fin g.height} {j : Fin g.width} :
    g.index? p = some (i, j) ↔ p.y.val = i ∧ p.x.val = j := by
  have hi := i.isLt
  have hj := j.isLt
  unfold index?
  split
  · rw [Option.some.injEq, Prod.mk.injEq, Fin.ext_iff, Fin.ext_iff]
    change p.y.val.toNat = i.val ∧ p.x.val.toNat = j.val ↔ _
    omega
  · next houtside => exact ⟨(nomatch ·), fun h => absurd h (by omega)⟩

theorem contains_iff :
    g.contains p ↔ (0 ≤ p.y.val ∧ p.y.val < g.height) ∧ 0 ≤ p.x.val ∧ p.x.val < g.width := by
  unfold contains index?
  split
  · next h => exact ⟨fun _ => h, fun _ => rfl⟩
  · next h => exact ⟨(nomatch ·), fun hinside => absurd hinside h⟩

theorem contains_iff_inside : g.contains p ↔ g.Inside p.key := contains_iff.trans and_comm

theorem inside_iff {key : Int × Int} : g.Inside key ↔
    ∃ (i : Fin g.height) (j : Fin g.width), key = (↑j.val, ↑i.val) := by
  constructor
  · rintro ⟨⟨hx, hx'⟩, hy, hy'⟩
    refine ⟨⟨key.2.toNat, by omega⟩, ⟨key.1.toNat, by omega⟩, ?_⟩
    simp [hx, hy]
  · rintro ⟨i, j, rfl⟩
    exact ⟨⟨Int.natCast_nonneg _, Int.ofNat_lt.mpr j.isLt⟩,
      Int.natCast_nonneg _, Int.ofNat_lt.mpr i.isLt⟩

theorem get?_eq_some_iff :
    g.get? p = some a ↔ ∃ i j, p.y.val = i.val ∧ p.x.val = j.val ∧ g.table.cell i j = a := by
  rw [get?, Option.map_eq_some_iff]
  constructor
  · rintro ⟨⟨i, j⟩, hindex, hcell⟩
    obtain ⟨hy, hx⟩ := index?_eq_some_iff.mp hindex
    exact ⟨i, j, hy, hx, hcell⟩
  · rintro ⟨i, j, hy, hx, hcell⟩
    exact ⟨(i, j), index?_eq_some_iff.mpr ⟨hy, hx⟩, hcell⟩

theorem exists_get?_of_contains (h : g.contains p) : ∃ i j, g.get? p = some (g.table.cell i j) := by
  obtain ⟨⟨i, j⟩, hindex⟩ := Option.isSome_iff_exists.mp h
  exact ⟨i, j, by rw [get?, hindex]; rfl⟩

section Sized

variable (hwidth : g.width ≤ 2 ^ 31) (hheight : g.height ≤ 2 ^ 31)
include hwidth hheight

theorem key_locate_cell (i : Fin g.height) (j : Fin g.width) :
    (locate i j).key = (↑j.val, ↑i.val) :=
  key_locate (i.isLt.trans_le hheight) (j.isLt.trans_le hwidth)

theorem coordinateAt_cell (i : Fin g.height) (j : Fin g.width) :
    coordinateAt i j = .ok (locate i j) :=
  coordinateAt_eq_locate (i.isLt.trans_le hheight) (j.isLt.trans_le hwidth)

theorem get?_locate (i : Fin g.height) (j : Fin g.width) :
    g.get? (locate i j) = some (g.table.cell i j) := by
  obtain ⟨hx, hy⟩ := Prod.mk.inj (key_locate_cell hwidth hheight i j)
  exact get?_eq_some_iff.mpr ⟨i, j, hy, hx, rfl⟩

end Sized

/-! ## All coordinates -/

/-- The rectangle of the coordinates of a grid. -/
def frame (g : Grid α) : Rectangle .i32 :=
  ⟨.origin, ⟨(0 : Word .i32).offset (g.width - 1), (0 : Word .i32).offset (g.height - 1)⟩⟩

theorem Addressable.frame_high (hg : g.Addressable) :
    g.frame.high.x.val + 1 = g.width ∧ g.frame.high.y.val + 1 = g.height := by
  have hlast : ∀ k : Nat, 0 < k → k ≤ 2 ^ 31 → ((0 : Word .i32).offset (k - 1)).val + 1 = k := by
    intro k hpos hle
    have hzero : (0 : Word .i32).val = 0 := rfl
    have hmax : Width.i32.max = 2 ^ 31 - 1 := rfl
    rw [Word.offset_val (by omega)]
    omega
  exact ⟨hlast g.width hg.width_pos hg.width_le, hlast g.height hg.height_pos hg.height_le⟩

theorem Addressable.frame_size (hg : g.Addressable) :
    g.frame.Ordered ∧ g.frame.columns = g.width ∧ g.frame.rows = g.height := by
  obtain ⟨hx, hy⟩ := hg.frame_high
  have hwidth := hg.width_pos
  have hheight := hg.height_pos
  have hlowx : g.frame.low.x.val = 0 := rfl
  have hlowy : g.frame.low.y.val = 0 := rfl
  rw [Rectangle.columns, Rectangle.rows]
  exact ⟨⟨by omega, by omega⟩, by omega, by omega⟩

/-- The coordinates of a grid are those of its frame, in the same order. -/
theorem Addressable.coordinates_eq (hg : g.Addressable) :
    g.coordinates = .ok g.frame.coordinates := by
  obtain ⟨hordered, hcolumns, hrows⟩ := hg.frame_size
  have hcell : ∀ ij ∈ g.positions,
      coordinateAt ij.1 ij.2 = .ok (g.frame.position ij.1 ij.2) := by
    intro (i, j) _
    have hx := Rectangle.position_x_val (i := i) hordered (j.isLt.trans_eq hcolumns.symm)
    have hy := Rectangle.position_y_val (j := j) hordered (i.isLt.trans_eq hrows.symm)
    exact coordinateAt_eq_ok_iff.mpr ⟨hx.trans (Int.zero_add _), hy.trans (Int.zero_add _)⟩
  refine (mapM_eq_ok hcell).trans (congrArg Except.ok ?_)
  rw [Rectangle.coordinates_eq hordered, hrows, hcolumns, positions, List.map_flatMap,
    ← List.map_coe_finRange_eq_range, ← List.map_coe_finRange_eq_range, List.flatMap_map]
  simp only [List.map_map, Function.comp_def]

theorem Addressable.mem_coordinates_iff (hg : g.Addressable) :
    c ∈ g.frame.coordinates ↔ g.contains c := by
  obtain ⟨hordered, -, -⟩ := hg.frame_size
  obtain ⟨hx, hy⟩ := hg.frame_high
  have hlowx : g.frame.low.x.val = 0 := rfl
  have hlowy : g.frame.low.y.val = 0 := rfl
  rw [Rectangle.mem_coordinates_iff hordered, contains_iff]
  omega

end Grid

end PuzzleKit

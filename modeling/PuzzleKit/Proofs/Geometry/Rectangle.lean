import Mathlib.Algebra.Order.Group.Int
import Mathlib.Data.List.Range
import PuzzleKit.Geometry.Rectangle
import PuzzleKit.Proofs.Geometry.Coordinate

/-!
# The walk over a rectangle

The coordinates of a rectangle are its rows, one after the other. The walk is
followed forwards (`trail`): from any place in a row it passes the rest of that row
(`trail_row`) and then stands at the start of the next row, if there is one.

Places are counted from the least corner, with numbers that may lead out of the
width; such a place is held at the greatest word, and nothing is said of it.
-/

namespace PuzzleKit

theorem Word.next_val {w : Width} {a b : Word w} (h : a < b) : (a.next b h).val = a.val + 1 := rfl

namespace Rectangle

variable {w : Width} {r : Rectangle w} {c : Coordinate w} {i j k n : Nat}

/-- The first corner is the least one in both components. -/
structure Ordered (r : Rectangle w) : Prop where
  le_x : r.low.x.val ≤ r.high.x.val
  le_y : r.low.y.val ≤ r.high.y.val

theorem spanned_low_high (h : r.Ordered) : spanned r.low r.high = r := by
  obtain ⟨low, high⟩ := r
  rw [spanned, mk.injEq]
  exact ⟨Coordinate.ext_val ((Word.min_val ..).trans (min_eq_left h.le_x))
      ((Word.min_val ..).trans (min_eq_left h.le_y)),
    Coordinate.ext_val ((Word.max_val ..).trans (max_eq_right h.le_x))
      ((Word.max_val ..).trans (max_eq_right h.le_y))⟩

/-- The coordinate in row `i` and column `j`. -/
def position (r : Rectangle w) (i j : Nat) : Coordinate w := ⟨r.low.x.offset j, r.low.y.offset i⟩

theorem position_x_val (h : r.Ordered) (hj : j < r.columns) :
    (r.position i j).x.val = r.low.x.val + j := by
  have hx := h.le_x
  unfold columns at hj
  exact Word.offset_val (le_trans (by omega) r.high.x.le_max)

theorem position_y_val (h : r.Ordered) (hi : i < r.rows) :
    (r.position i j).y.val = r.low.y.val + i := by
  have hy := h.le_y
  unfold rows at hi
  exact Word.offset_val (le_trans (by omega) r.high.y.le_max)

theorem position_zero_x_val (h : r.Ordered) : (r.position i 0).x.val = r.low.x.val :=
  (position_x_val h (Nat.succ_pos _)).trans (Int.add_zero _)

theorem position_zero_y_val (h : r.Ordered) : (r.position 0 j).y.val = r.low.y.val :=
  (position_y_val h (Nat.succ_pos _)).trans (Int.add_zero _)

/-- Whatever lies between the corners is at a place. -/
theorem exists_position (h : r.Ordered) (hx : r.low.x.val ≤ c.x.val ∧ c.x.val ≤ r.high.x.val)
    (hy : r.low.y.val ≤ c.y.val ∧ c.y.val ≤ r.high.y.val) :
    ∃ i j, i < r.rows ∧ j < r.columns ∧ r.position i j = c := by
  have hi : (c.y.val - r.low.y.val).toNat < r.rows := by
    unfold rows
    omega
  have hj : (c.x.val - r.low.x.val).toNat < r.columns := by
    unfold columns
    omega
  refine ⟨_, _, hi, hj, Coordinate.ext_val ?_ ?_⟩
  · rw [position_x_val h hj]
    omega
  · rw [position_y_val h hi]
    omega

/-! ## One step -/

theorem position_x_lt_iff (h : r.Ordered) (hj : j < r.columns) :
    (r.position i j).x < r.high.x ↔ j + 1 < r.columns := by
  have hx := position_x_val (i := i) h hj
  have hle := h.le_x
  rw [Word.lt_iff, hx]
  unfold columns
  omega

theorem position_y_lt_iff (h : r.Ordered) (hi : i < r.rows) :
    (r.position i j).y < r.high.y ↔ i + 1 < r.rows := by
  have hy := position_y_val (j := j) h hi
  have hle := h.le_y
  rw [Word.lt_iff, hy]
  unfold rows
  omega

theorem next?_of_column_lt (h : r.Ordered) (hj : j + 1 < r.columns) :
    r.next? (r.position i j) = some (r.position i (j + 1)) := by
  have hx := position_x_val (i := i) h (Nat.lt_of_succ_lt hj)
  have hnext := position_x_val (i := i) h hj
  have hlt := (position_x_lt_iff (i := i) h (Nat.lt_of_succ_lt hj)).mpr hj
  rw [next?, dif_pos hlt]
  refine congrArg some (Coordinate.ext_val ?_ rfl)
  rw [Word.next_val]
  omega

theorem next?_of_row_lt (h : r.Ordered) (hj : j + 1 = r.columns) (hi : i + 1 < r.rows) :
    r.next? (r.position i j) = some (r.position (i + 1) 0) := by
  have hy := position_y_val (j := j) h (Nat.lt_of_succ_lt hi)
  have hnext := position_y_val (j := 0) h hi
  have hlast := mt (position_x_lt_iff (i := i) h (Nat.lt_of_succ_le hj.le)).mp hj.not_lt
  have hlt := (position_y_lt_iff (j := j) h (Nat.lt_of_succ_lt hi)).mpr hi
  rw [next?, dif_neg hlast, dif_pos hlt]
  refine congrArg some (Coordinate.ext_val (position_zero_x_val h).symm ?_)
  rw [Word.next_val]
  omega

theorem next?_last (h : r.Ordered) (hj : j + 1 = r.columns) (hi : i + 1 = r.rows) :
    r.next? (r.position i j) = none := by
  have hlastx := mt (position_x_lt_iff (i := i) h (Nat.lt_of_succ_le hj.le)).mp hj.not_lt
  have hlasty := mt (position_y_lt_iff (j := j) h (Nat.lt_of_succ_le hi.le)).mp hi.not_lt
  rw [next?, dif_neg hlastx, dif_neg hlasty]

/-! ## The whole walk -/

/-- The walk, the earliest coordinate first. -/
def trail (r : Rectangle w) : Nat → Option (Coordinate w) → List (Coordinate w)
  | 0, _ => []
  | _ + 1, none => []
  | n + 1, some c => c :: r.trail n (r.next? c)

theorem walk_eq (r : Rectangle w) (n : Nat) (next : Option (Coordinate w))
    (passed : List (Coordinate w)) : r.walk n next passed = (r.trail n next).reverse ++ passed := by
  induction n generalizing next passed with
  | zero => rfl
  | succ n ih =>
      cases next with
      | none => rfl
      | some c => rw [walk, trail, ih, List.reverse_cons, List.append_assoc, List.singleton_append]

theorem take_eq_trail (r : Rectangle w) (n : Nat) : r.take n = r.trail n (some r.low) := by
  rw [take, walk_eq, List.append_nil, List.reverse_reverse]

/-- The start of a row, if there is that row. -/
def rowStart? (r : Rectangle w) (i : Nat) : Option (Coordinate w) :=
  if i < r.rows then some (r.position i 0) else none

theorem trail_row (h : r.Ordered) (hi : i < r.rows) (hjk : j + k + 1 = r.columns) :
    r.trail (k + 1 + n) (some (r.position i j)) =
      (List.range' j (k + 1)).map (r.position i) ++ r.trail n (r.rowStart? (i + 1)) := by
  -- By the number of places that follow in the row; after the last one comes the next row.
  induction k generalizing j with
  | zero =>
      have hnext : r.next? (r.position i j) = r.rowStart? (i + 1) := by
        rw [rowStart?]
        split
        · next hi => exact next?_of_row_lt h hjk hi
        · next hlast => exact next?_last h hjk (by omega)
      rw [Nat.zero_add, Nat.add_comm, trail, hnext]
      rfl
  | succ k ih =>
      have hrest := ih (j := j + 1) (by omega)
      rw [Nat.add_right_comm, trail, next?_of_column_lt h (by omega), hrest,
        ← List.cons_append, ← List.map_cons, ← List.range'_succ]

/-- The walk over the remaining rows; it has ended after the last one. -/
theorem trail_rows (h : r.Ordered) (hik : i + k = r.rows) (n : Nat) :
    r.trail (k * r.columns + n) (r.rowStart? i) =
      (List.range' i k).flatMap fun i => (List.range r.columns).map (r.position i) := by
  induction k generalizing i with
  | zero =>
      have hend : ¬ i < r.rows := by omega
      rw [rowStart?, if_neg hend]
      cases n with
      | zero => rw [Nat.zero_mul]; rfl
      | succ n => rw [Nat.zero_mul, Nat.zero_add]; rfl
  | succ k ih =>
      have hi : i < r.rows := by omega
      have hrow := trail_row (j := 0) (k := r.columns - 1) (n := k * r.columns + n) h hi
        (by unfold columns; omega)
      have hcolumns : r.columns - 1 + 1 = r.columns := rfl
      rw [hcolumns, ih (by omega), ← List.range_eq_range'] at hrow
      rw [Nat.succ_mul, Nat.add_comm (k * r.columns), Nat.add_assoc, rowStart?, if_pos hi, hrow,
        List.range'_succ, List.flatMap_cons]

theorem rowStart?_zero (h : r.Ordered) : r.rowStart? 0 = some r.low := by
  have hfirst : r.position 0 0 = r.low :=
    Coordinate.ext_val (position_zero_x_val h) (position_zero_y_val h)
  rw [rowStart?, if_pos (show 0 < r.rows from Nat.succ_pos _), hfirst]

/-- Taking as many coordinates as there are, or more, gives all of them, row by row and
each row from the left. -/
theorem take_eq (h : r.Ordered) (hn : r.columns * r.rows ≤ n) : r.take n =
    (List.range r.rows).flatMap fun i => (List.range r.columns).map (r.position i) := by
  obtain ⟨k, rfl⟩ := Nat.exists_eq_add_of_le hn
  rw [take_eq_trail, ← rowStart?_zero h, Nat.mul_comm, trail_rows h (Nat.zero_add _),
    ← List.range_eq_range']

/-- The coordinates of a rectangle are the places of its rows, each from the left. -/
theorem coordinates_eq (h : r.Ordered) : r.coordinates =
    (List.range r.rows).flatMap fun i => (List.range r.columns).map (r.position i) :=
  take_eq h le_rfl

theorem length_coordinates (h : r.Ordered) : r.coordinates.length = r.columns * r.rows := by
  simp [coordinates_eq h, List.length_flatMap, Nat.mul_comm]

theorem take_of_length_le (h : r.Ordered) (hn : r.coordinates.length ≤ n) :
    r.take n = r.coordinates := by
  rw [length_coordinates h] at hn
  rw [take_eq h hn, coordinates_eq h]

theorem mem_coordinates_iff (h : r.Ordered) :
    c ∈ r.coordinates ↔ (r.low.x.val ≤ c.x.val ∧ c.x.val ≤ r.high.x.val) ∧
      r.low.y.val ≤ c.y.val ∧ c.y.val ≤ r.high.y.val := by
  rw [coordinates_eq h]
  constructor
  · intro hc
    obtain ⟨i, hi, hc⟩ := List.mem_flatMap.mp hc
    obtain ⟨j, hj, rfl⟩ := List.mem_map.mp hc
    rw [List.mem_range] at hi hj
    have hx := h.le_x
    have hy := h.le_y
    rw [position_x_val h hj, position_y_val h hi]
    unfold rows at hi
    unfold columns at hj
    omega
  · rintro ⟨hx, hy⟩
    obtain ⟨i, j, hi, hj, rfl⟩ := exists_position h hx hy
    exact List.mem_flatMap.mpr ⟨i, List.mem_range.mpr hi,
      List.mem_map.mpr ⟨j, List.mem_range.mpr hj, rfl⟩⟩

end Rectangle

end PuzzleKit

import Mathlib.Order.Bounds.Basic
import PuzzleKit.Grid.Plot
import PuzzleKit.Proofs.Geometry.Rectangle
import PuzzleKit.Proofs.Grid.Text

/-!
# The drawing of a set of points

A drawing is a grid that has been written out: the one with a cell for each place of
the bounding box (`picture`). What is drawn from a position alone, the line feed
before the first place of each row but the first, is what stands between the rows of
a grid, since the places come row by row. So the drawing is read as that grid, and
what it shows is a matter of cells.

The bounding box is that of the set, whatever point the fold begins with, as each of
its sides is a least or a greatest element.
-/

namespace PuzzleKit.Plot

open Grid

variable {w : Width} {box box' : Rectangle w} {first p : Coordinate w}
  {points points' : List (Coordinate w)} {set : Set (Coordinate w)}

/-- The sides of a box are attained by points of a set, and none lies outside. -/
structure Bounds (set : Set (Coordinate w)) (box : Rectangle w) : Prop where
  low_x : IsLeast ((fun p => p.x.val) '' set) box.low.x.val
  low_y : IsLeast ((fun p => p.y.val) '' set) box.low.y.val
  high_x : IsGreatest ((fun p => p.x.val) '' set) box.high.x.val
  high_y : IsGreatest ((fun p => p.y.val) '' set) box.high.y.val

/-! ## The bounding box -/

theorem Bounds.singleton (p : Coordinate w) : Bounds {p} ⟨p, p⟩ := by
  constructor <;> simp only [Set.image_singleton, isLeast_singleton, isGreatest_singleton]

theorem Bounds.insert (h : Bounds set box) (p : Coordinate w) :
    Bounds (insert p set) ⟨⟨min box.low.x p.x, min box.low.y p.y⟩,
      ⟨max box.high.x p.x, max box.high.y p.y⟩⟩ := by
  constructor <;> rw [Set.image_insert_eq]
  · rw [Word.min_val, min_comm]
    exact h.low_x.insert p.x.val
  · rw [Word.min_val, min_comm]
    exact h.low_y.insert p.y.val
  · rw [Word.max_val, max_comm]
    exact h.high_x.insert p.x.val
  · rw [Word.max_val, max_comm]
    exact h.high_y.insert p.y.val

theorem Bounds.unique (h : Bounds set box) (h' : Bounds set box') : box = box' := by
  have hlow := Coordinate.ext_val (h.low_x.unique h'.low_x) (h.low_y.unique h'.low_y)
  have hhigh := Coordinate.ext_val (h.high_x.unique h'.high_x) (h.high_y.unique h'.high_y)
  cases box
  cases box'
  cases hlow
  cases hhigh
  rfl

theorem Bounds.ordered (h : Bounds set box) : box.Ordered :=
  ⟨h.high_x.2 h.low_x.1, h.high_y.2 h.low_y.1⟩

/-- Every point of the set is a place of the box. -/
theorem Bounds.exists_position (h : Bounds set box) (hp : p ∈ set) :
    ∃ i j, i < box.rows ∧ j < box.columns ∧ box.position i j = p :=
  Rectangle.exists_position h.ordered ⟨h.low_x.2 ⟨p, hp, rfl⟩, h.high_x.2 ⟨p, hp, rfl⟩⟩
    ⟨h.low_y.2 ⟨p, hp, rfl⟩, h.high_y.2 ⟨p, hp, rfl⟩⟩

theorem bounds_boundingBox (first : Coordinate w) (points : List (Coordinate w)) :
    Bounds {p | p ∈ first :: points} (boundingBox first points) := by
  induction points using List.reverseRecOn with
  | nil =>
      have hset : {p | p ∈ [first]} = {first} := Set.ext fun _ => List.mem_singleton
      exact hset ▸ Bounds.singleton first
  | append_singleton points q ih =>
      have hset : {p | p ∈ first :: (points ++ [q])} = insert q {p | p ∈ first :: points} := by
        ext p
        rw [← List.cons_append]
        exact List.mem_append.trans (or_comm.trans (or_congr_left List.mem_singleton))
      rw [hset, boundingBox, List.foldl_append]
      exact ih.insert q

/-! ## The picture -/

section Picture

variable (f : Bool → Coordinate w → Char)

/-- The character of a place. -/
def mark (points : List (Coordinate w)) (p : Coordinate w) : Char := f (points.contains p) p

/-- The grid of a box with the character of each place. -/
def picture (box : Rectangle w) (points : List (Coordinate w)) : Grid Char :=
  ⟨box.rows, box.columns, Table.ofFn fun i j => mark f points (box.position i j)⟩

/-- The characters of a row. -/
def markedRow (box : Rectangle w) (points : List (Coordinate w)) (i : Nat) : List Char :=
  (List.range box.columns).map fun j => mark f points (box.position i j)

theorem rowTexts_picture (box : Rectangle w) (points : List (Coordinate w)) :
    ((picture f box points).rowTexts fun c => [c]) =
      (List.range box.rows).map (markedRow f box points) := by
  rw [rowTexts_singleton]
  exact Table.toLists_ofFn fun i j => mark f points (box.position i j)

/-- A place is drawn after a line feed if it begins a row that is not the first. -/
theorem place_position (h : box.Ordered) (points : List (Coordinate w)) {i j : Nat}
    (hi : i < box.rows) (hj : j < box.columns) :
    place (m := Id) f box points (box.position i j) =
      (if j = 0 ∧ i ≠ 0 then ['\n'] else []) ++ [mark f points (box.position i j)] := by
  have hx := Rectangle.position_x_val (i := i) h hj
  have hy := Rectangle.position_y_val (j := j) h hi
  have hstart : ((box.position i j).x = box.low.x ∧ (box.position i j).y ≠ box.low.y) ↔
      j = 0 ∧ i ≠ 0 := by
    rw [Ne, Word.ext_iff, Word.ext_iff, hx, hy]
    omega
  simp only [← hstart]
  exact (apply_ite (· ++ [mark f points (box.position i j)]) _ ['\n'] []).symm

/-- A row is drawn after a line feed if it is not the first. -/
theorem flatMap_place (h : box.Ordered) (points : List (Coordinate w)) {i : Nat}
    (hi : i < box.rows) :
    ((List.range box.columns).map (box.position i)).flatMap (place (m := Id) f box points) =
      (if i ≠ 0 then ['\n'] else []) ++ markedRow f box points i := by
  have hplaces : ∀ j ∈ List.range box.columns, place (m := Id) f box points (box.position i j) =
      (if j = 0 ∧ i ≠ 0 then ['\n'] else []) ++ [mark f points (box.position i j)] :=
    fun j hj => place_position f h points hi (List.mem_range.mp hj)
  -- Only the first place can have a line feed before it, so it is split off.
  have hcolumns : List.range box.columns = 0 :: (List.range (box.columns - 1)).map Nat.succ :=
    List.range_succ_eq_map
  rw [List.flatMap_map, List.flatMap_congr hplaces, markedRow, List.map_eq_flatMap, hcolumns]
  simp [List.flatMap_map]

/-- What is drawn is the picture, written out. -/
theorem drawWith_cons (first : Coordinate w) (points : List (Coordinate w)) :
    drawWith (m := Id) f (first :: points) =
      (picture f (boundingBox first points) (first :: points)).write fun c => [c] := by
  have h := (bounds_boundingBox first points).ordered
  generalize hbox : boundingBox first points = box at *
  have hdraw : drawWith (m := Id) f (first :: points) =
      box.coordinates.flatMap (place (m := Id) f box (first :: points)) := by
    rw [← hbox, List.flatMap_def]
    exact congrArg List.flatten List.idRun_mapM
  have hrows : ∀ i ∈ List.range box.rows, ((List.range box.columns).map (box.position i)).flatMap
      (place (m := Id) f box (first :: points)) =
        (if i ≠ 0 then ['\n'] else []) ++ markedRow f box (first :: points) i :=
    fun i hi => flatMap_place f h _ (List.mem_range.mp hi)
  -- Joining puts nothing before the first row, as drawing does.
  have hrange : List.range box.rows = 0 :: (List.range (box.rows - 1)).map Nat.succ :=
    List.range_succ_eq_map
  rw [hdraw, Rectangle.coordinates_eq h, List.flatMap_assoc, List.flatMap_congr hrows, Grid.write,
    rowTexts_picture, hrange, List.map_cons, intercalate_cons]
  simp [List.flatMap_map]

end Picture

/-! ## What the drawing shows -/

/-- The picture with `#` for the points and `.` elsewhere. -/
def sketch (box : Rectangle w) (points : List (Coordinate w)) : Grid Char :=
  picture (fun member _ => if member then '#' else '.') box points

theorem cell_sketch (i : Fin (sketch box points).height) (j : Fin (sketch box points).width) :
    (sketch box points).table.cell i j = if box.position i j ∈ points then '#' else '.' := by
  refine (Table.cell_ofFn _ i j).trans ?_
  simp only [mark, List.contains_iff_mem]

theorem legible_sketch : (sketch box points).Legible where
  ne_feed i j := by
    rw [cell_sketch]
    split <;> decide
  ne_return i j _ _ := by
    rw [cell_sketch]
    split <;> decide

/-- The set is drawn as the picture over its bounding box. -/
theorem draw_eq (h : Bounds {p | p ∈ points} box) :
    draw points = (sketch box points).write fun c => [c] := by
  cases points with
  | nil =>
      obtain ⟨p, hp, -⟩ := h.low_x.1
      exact absurd hp List.not_mem_nil
  | cons first points =>
      rw [h.unique (bounds_boundingBox first points)]
      exact drawWith_cons _ first points

theorem draw_congr (h : Bounds {p | p ∈ points} box) (hsame : ∀ p, p ∈ points' ↔ p ∈ points) :
    draw points' = draw points := by
  have hset : {p | p ∈ points'} = {p | p ∈ points} := Set.ext hsame
  have hcontains : points'.contains = points.contains := by
    funext p
    rw [Bool.eq_iff_iff, List.contains_iff_mem, List.contains_iff_mem, hsame]
  rw [draw_eq h, draw_eq (hset ▸ h)]
  unfold sketch picture mark
  rw [hcontains]

/-- The width and the height of the bounding box. -/
theorem size_sketch (h : box.Ordered) (points : List (Coordinate w)) :
    (sketch box points).width = box.high.x.val - box.low.x.val + 1 ∧
      (sketch box points).height = box.high.y.val - box.low.y.val + 1 := by
  have hx := h.le_x
  have hy := h.le_y
  have hwidth : (sketch box points).width = box.columns := rfl
  have hheight : (sketch box points).height = box.rows := rfl
  rw [hwidth, hheight, Rectangle.columns, Rectangle.rows]
  omega

/-- The coordinate of a point as seen from a corner. -/
def Translated (corner p : Coordinate w) (c : Coordinate .i32) : Prop :=
  c.x.val = p.x.val - corner.x.val ∧ c.y.val = p.y.val - corner.y.val

/-- A grid has a `#` for just the points of a set, seen from a corner, and a `.` for
everything else. -/
structure Shows (points : List (Coordinate w)) (corner : Coordinate w) (g : Grid Char) : Prop where
  exists_translated : ∀ p ∈ points, ∃ c, Translated corner p c
  point_iff : ∀ c, g.get? c = some '#' ↔ ∃ p ∈ points, Translated corner p c
  blank : ∀ c : Coordinate .i32, g.contains c → g.get? c ≠ some '#' → g.get? c = some '.'

theorem shows_sketch (h : Bounds {p | p ∈ points} box) (hsize : (sketch box points).Addressable) :
    Shows points box.low (sketch box points) where
  exists_translated p hp := by
    obtain ⟨i, j, hi, hj, rfl⟩ := h.exists_position hp
    obtain ⟨c, hc⟩ := exists_coordinateAt (hi.trans_le hsize.height_le) (hj.trans_le hsize.width_le)
    obtain ⟨hx, hy⟩ := coordinateAt_eq_ok_iff.mp hc
    refine ⟨c, ?_, ?_⟩
    · rw [Rectangle.position_x_val h.ordered hj]
      omega
    · rw [Rectangle.position_y_val h.ordered hi]
      omega
  point_iff c := by
    rw [Grid.get?_eq_some_iff]
    constructor
    · rintro ⟨i, j, hy, hx, hcell⟩
      rw [cell_sketch] at hcell
      split at hcell
      · next hmem =>
          refine ⟨_, hmem, ?_, ?_⟩
          · rw [Rectangle.position_x_val h.ordered j.isLt]
            omega
          · rw [Rectangle.position_y_val h.ordered i.isLt]
            omega
      · cases hcell
    · rintro ⟨p, hp, hx, hy⟩
      obtain ⟨i, j, hi, hj, rfl⟩ := h.exists_position hp
      rw [Rectangle.position_x_val h.ordered hj] at hx
      rw [Rectangle.position_y_val h.ordered hi] at hy
      exact ⟨⟨i, hi⟩, ⟨j, hj⟩, hy.trans (add_sub_cancel_left _ _),
        hx.trans (add_sub_cancel_left _ _), (cell_sketch ⟨i, hi⟩ ⟨j, hj⟩).trans (if_pos hp)⟩
  blank c hc hne := by
    obtain ⟨i, j, hget⟩ := exists_get?_of_contains hc
    rw [hget, cell_sketch] at hne ⊢
    split at hne
    · exact absurd rfl hne
    · next habsent => rw [if_neg habsent]

/-- The drawing of a set is read as a grid of the size of the bounding box that shows
just the points of the set, whatever the order in which they are given. -/
theorem draw_shows_points {w : Width} :
    draw ([] : List (Coordinate w)) = [] ∧ ∀ points : List (Coordinate w), points ≠ [] →
      ∃ box, Bounds {p | p ∈ points} box ∧
        (∀ points' : List (Coordinate w), (∀ p, p ∈ points' ↔ p ∈ points) →
          draw points' = draw points) ∧
        (box.high.x.val - box.low.x.val + 1 ≤ 2 ^ 31 →
          box.high.y.val - box.low.y.val + 1 ≤ 2 ^ 31 →
          ∃ g, chars (draw points) = .ok g ∧
            g.width = box.high.x.val - box.low.x.val + 1 ∧
            g.height = box.high.y.val - box.low.y.val + 1 ∧ Shows points box.low g) := by
  refine ⟨rfl, fun points hne => ?_⟩
  obtain ⟨first, rest, rfl⟩ := List.exists_cons_of_ne_nil hne
  have h := bounds_boundingBox first rest
  refine ⟨_, h, fun points' hsame => draw_congr h hsame, fun hwidth hheight => ?_⟩
  obtain ⟨hcolumns, hrows⟩ := size_sketch h.ordered (first :: rest)
  have hsize : (sketch (boundingBox first rest) (first :: rest)).Addressable :=
    ⟨Nat.succ_pos _, Nat.succ_pos _, by omega, by omega⟩
  refine ⟨_, ?_, hcolumns, hrows, shows_sketch h hsize⟩
  rw [draw_eq h]
  exact chars_write hsize legible_sketch

/-- Two points at the greatest `x` and the least `y` of their width. -/
def edge : List (Coordinate .i8) :=
  [⟨.maximum .i8, ⟨-127, by decide, by decide⟩⟩, ⟨⟨126, by decide, by decide⟩, .minimum .i8⟩]

theorem draw_shows_points_edge :
    ∃ g, chars (draw edge) = .ok g ∧ g.width = 2 ∧ g.height = 2 ∧
      Shows edge ⟨⟨126, by decide, by decide⟩, .minimum .i8⟩ g := by
  obtain ⟨box, hbounds, -, hdraw⟩ := draw_shows_points.2 edge (List.cons_ne_nil _ _)
  have hbox : box = ⟨⟨⟨126, by decide, by decide⟩, .minimum .i8⟩,
      ⟨.maximum .i8, ⟨-127, by decide, by decide⟩⟩⟩ :=
    hbounds.unique (bounds_boundingBox ..)
  subst hbox
  obtain ⟨g, hg, hwidth, hheight, hshows⟩ := hdraw (by decide) (by decide)
  exact ⟨g, hg, Int.ofNat_inj.mp hwidth, Int.ofNat_inj.mp hheight, hshows⟩

example : draw edge = "#.\n.#".toList := by decide

end PuzzleKit.Plot

import PuzzleKit.Proofs.Geometry.Rectangle

/-!
# The coordinates between two corners

Two coordinates span the same rectangle in either order, and the walk over it comes by
every coordinate between them once, in reading order, and then ends. However far it is
followed, it gives a first part of one list (`take_eq_take_coordinates`).

The walk moves on only below a greater number. Counted up in checked arithmetic instead,
where a move could be refused, none is (`advance_eq`), so the walk also ends safely in a
last row and a last column at the greatest word of the width.
-/

namespace PuzzleKit

theorem Word.add_one_of_lt {w : Width} {a b : Word w} (h : a < b) :
    a.add 1 = .ok (a.next b h) := fit_eq_ok_iff.mpr rfl

namespace Rectangle

variable {w : Width} {r : Rectangle w} {i j n : Nat}

theorem spanned_ordered (a b : Coordinate w) : (spanned a b).Ordered where
  le_x := by
    rw [spanned, Word.min_val, Word.max_val]
    exact min_le_max
  le_y := by
    rw [spanned, Word.min_val, Word.max_val]
    exact min_le_max

theorem spanned_comm (a b : Coordinate w) : spanned a b = spanned b a := by
  rw [spanned, spanned, mk.injEq]
  constructor
  · exact Coordinate.ext_val (by rw [Word.min_val, Word.min_val, min_comm])
      (by rw [Word.min_val, Word.min_val, min_comm])
  · exact Coordinate.ext_val (by rw [Word.max_val, Word.max_val, max_comm])
      (by rw [Word.max_val, Word.max_val, max_comm])

/-! ## The order of the walk -/

theorem reading_position (h : r.Ordered) (hi : i < r.rows) (hj : j < r.columns) :
    (r.position i j).reading = toLex (r.low.y.val + i, r.low.x.val + j) := by
  rw [Coordinate.reading, position_x_val h hj, position_y_val h hi]

/-- Within a row `x` grows, and from one row to the next `y` does. -/
theorem pairwise_coordinates (h : r.Ordered) :
    r.coordinates.Pairwise fun a b => a.reading < b.reading := by
  rw [coordinates_eq h, List.pairwise_flatMap]
  constructor
  · intro i hi
    rw [List.mem_range] at hi
    rw [List.pairwise_map]
    refine List.pairwise_lt_range.imp_of_mem fun {j k} hj hk hlt => ?_
    rw [List.mem_range] at hj hk
    rw [reading_position h hi hj, reading_position h hi hk, Prod.Lex.toLex_lt_toLex]
    exact .inr ⟨rfl, by omega⟩
  · refine List.pairwise_lt_range.imp_of_mem fun {i k} hi hk hlt a ha b hb => ?_
    obtain ⟨j, hj, rfl⟩ := List.mem_map.mp ha
    obtain ⟨j', hj', rfl⟩ := List.mem_map.mp hb
    rw [List.mem_range] at hi hk hj hj'
    rw [reading_position h hi hj, reading_position h hk hj', Prod.Lex.toLex_lt_toLex]
    exact .inl (by omega)

/-! ## The end of the walk -/

theorem trail_eq_take (r : Rectangle w) (n k : Nat) (next : Option (Coordinate w)) :
    r.trail n next = (r.trail (n + k) next).take n := by
  induction n generalizing next with
  | zero => rfl
  | succ n ih =>
      rw [Nat.add_right_comm]
      cases next with
      | none => rfl
      | some c => rw [trail, trail, List.take_succ_cons, ← ih]

/-- Taking some coordinates takes the first ones of all, and no more than there are. -/
theorem take_eq_take_coordinates (h : r.Ordered) (n : Nat) : r.take n = r.coordinates.take n := by
  rw [coordinates_eq h, ← take_eq h (Nat.le_add_left _ n), take_eq_trail, take_eq_trail]
  exact trail_eq_take r n _ _

/-! ## The walk in checked arithmetic -/

/-- One move of the walk, where a component is counted up by an addition. -/
def advance (r : Rectangle w) (c : Coordinate w) :
    Except ArithmeticFault (Option (Coordinate w)) :=
  if c.x < r.high.x then do
    let x ← c.x.add 1
    return some ⟨x, c.y⟩
  else if c.y < r.high.y then do
    let y ← c.y.add 1
    return some ⟨r.low.x, y⟩
  else return none

/-- No addition of a move overflows. -/
theorem advance_eq (r : Rectangle w) (c : Coordinate w) : r.advance c = .ok (r.next? c) := by
  rw [advance, next?]
  by_cases hx : c.x < r.high.x
  · rw [if_pos hx, dif_pos hx, Word.add_one_of_lt hx]
    rfl
  · rw [if_neg hx, dif_neg hx]
    by_cases hy : c.y < r.high.y
    · rw [if_pos hy, dif_pos hy, Word.add_one_of_lt hy]
      rfl
    · rw [if_neg hy, dif_neg hy]
      rfl

/-- At most `n` coordinates from where the walk stands. The move that follows a
coordinate is made before it is handed out. -/
def pull (r : Rectangle w) :
    Nat → Option (Coordinate w) → Except ArithmeticFault (List (Coordinate w))
  | 0, _ => .ok []
  | _ + 1, none => .ok []
  | n + 1, some c => do
    let next ← r.advance c
    let rest ← r.pull n next
    return c :: rest

theorem pull_eq (r : Rectangle w) (n : Nat) (next : Option (Coordinate w)) :
    r.pull n next = .ok (r.trail n next) := by
  induction n generalizing next with
  | zero => rfl
  | succ n ih =>
      cases next with
      | none => rfl
      | some c =>
          exact bind_eq_ok_iff.mpr
            ⟨r.next? c, advance_eq r c, bind_eq_ok_iff.mpr ⟨_, ih (r.next? c), rfl⟩⟩

/-- The walk from either of two corners to the other lists what lies between them, each
once and in reading order, and ends; nothing on the way overflows. -/
theorem spanned_lists_between (a b : Coordinate w) :
    ∃ between : List (Coordinate w),
      (∀ c, c ∈ between ↔
        (min a.x.val b.x.val ≤ c.x.val ∧ c.x.val ≤ max a.x.val b.x.val) ∧
          min a.y.val b.y.val ≤ c.y.val ∧ c.y.val ≤ max a.y.val b.y.val) ∧
      between.Nodup ∧ between.Pairwise (fun c d => c.reading < d.reading) ∧
      ∀ n, (spanned a b).take n = between.take n ∧ (spanned b a).take n = between.take n ∧
        (spanned a b).pull n (some (spanned a b).low) = .ok (between.take n) := by
  have hordered := spanned_ordered a b
  have hincreasing := pairwise_coordinates hordered
  refine ⟨_, fun c => ?_, Coordinate.nodup_of_increasing hincreasing, hincreasing, fun n => ?_⟩
  · rw [mem_coordinates_iff hordered]
    simp only [spanned, Word.min_val, Word.max_val]
  · have htake := take_eq_take_coordinates hordered n
    refine ⟨htake, ?_, ?_⟩
    · rw [spanned_comm, htake]
    · rw [pull_eq, ← take_eq_trail, htake]

end Rectangle

end PuzzleKit

import PuzzleKit.Geometry.Direction

/-!
# Directions and their unit steps

A direction is its unit step, and the unit step of the opposite direction leads back.
Turning adds up eighths of a full turn, and whole turns do not count.
-/

namespace PuzzleKit.Direction

variable {d e : Direction} {m n degrees : Int}

theorem mem_all (d : Direction) : d ∈ all := by cases d <;> decide

theorem nodup_all : all.Nodup := by decide

theorem unit_dx (d : Direction) : -1 ≤ d.dx ∧ d.dx ≤ 1 := by cases d <;> decide

theorem unit_dy (d : Direction) : -1 ≤ d.dy ∧ d.dy ≤ 1 := by cases d <;> decide

/-- A direction moves along an axis at least. -/
theorem offset_ne_zero (d : Direction) : d.dx ≠ 0 ∨ d.dy ≠ 0 := by cases d <;> decide

theorem exists_of_unit {dx dy : Int} (hx : -1 ≤ dx ∧ dx ≤ 1) (hy : -1 ≤ dy ∧ dy ≤ 1)
    (hne : dx ≠ 0 ∨ dy ≠ 0) : ∃ d ∈ all, d.dx = dx ∧ d.dy = dy := by
  obtain rfl | rfl | rfl : dx = -1 ∨ dx = 0 ∨ dx = 1 := by omega
  all_goals obtain rfl | rfl | rfl : dy = -1 ∨ dy = 0 ∨ dy = 1 := by omega
  all_goals
    revert hne
    decide

theorem ofOffset_offset (d : Direction) : ofOffset d.dx d.dy = .ok d := by cases d <;> rfl

theorem eq_of_offset_eq (hx : d.dx = e.dx) (hy : d.dy = e.dy) : d = e := by
  have h := ofOffset_offset d
  rw [hx, hy, ofOffset_offset e] at h
  exact (Except.ok.inj h).symm

theorem dx_opposite (d : Direction) : d.opposite.dx = -d.dx := by cases d <;> rfl

theorem dy_opposite (d : Direction) : d.opposite.dy = -d.dy := by cases d <;> rfl

/-! ## Turning -/

theorem eighths_ofEighths (n : Int) : ((ofEighths n).eighths : Int) = n % 8 := by
  obtain h | h | h | h | h | h | h | h : n % 8 = 0 ∨ n % 8 = 1 ∨ n % 8 = 2 ∨ n % 8 = 3 ∨
    n % 8 = 4 ∨ n % 8 = 5 ∨ n % 8 = 6 ∨ n % 8 = 7 := by omega
  all_goals
    rw [ofEighths, h]
    rfl

theorem ofEighths_congr (h : m % 8 = n % 8) : ofEighths m = ofEighths n := by
  rw [ofEighths, ofEighths, h]

theorem turn_congr (d : Direction) (h : m % 8 = n % 8) : d.turn m = d.turn n :=
  ofEighths_congr (by omega)

theorem turn_turn (d : Direction) (m n : Int) : (d.turn m).turn n = d.turn (m + n) := by
  refine ofEighths_congr ?_
  rw [turn, eighths_ofEighths]
  omega

theorem rotate_eq_turn (d : Direction) (h : 45 ∣ degrees) :
    d.rotate degrees = .ok (d.turn (degrees / 45)) := by
  obtain ⟨n, rfl⟩ := h
  rw [rotate, if_pos (by omega), ofDegrees, if_pos (by rw [Direction.degrees]; omega)]
  refine congrArg Except.ok (ofEighths_congr ?_)
  rw [Direction.degrees]
  omega

theorem rotate_eq_error_iff {e : DirectionError} :
    d.rotate degrees = .error e ↔ e = .degrees degrees ∧ ¬45 ∣ degrees := by
  by_cases h : 45 ∣ degrees
  · rw [rotate_eq_turn d h]
    exact ⟨(nomatch ·), fun hrefused => absurd h hrefused.2⟩
  · rw [rotate, if_neg (by omega), Except.error.injEq, eq_comm]
    exact (and_iff_left h).symm

end PuzzleKit.Direction

import Mathlib.Data.Prod.Lex
import PuzzleKit.Geometry.Coordinate
import PuzzleKit.Proofs.Fallible
import PuzzleKit.Proofs.Integer.Exact

/-!
# Coordinates and their components

What an operation on coordinates gives is known by the integers that the components
stand for, and it gives something when these are in range.
-/

namespace PuzzleKit.Coordinate

variable {w : Width} {a b : Coordinate w} {d : Direction} {numbers : Int × Int}
  {fault e : ArithmeticFault}

theorem ext_val (hx : a.x.val = b.x.val) (hy : a.y.val = b.y.val) : a = b := by
  cases a
  cases b
  cases Word.ext hx
  cases Word.ext hy
  rfl

/-- The numbers of a coordinate, whatever its width. -/
def key (c : Coordinate w) : Int × Int := (c.x.val, c.y.val)

theorem ext_key (h : a.key = b.key) : a = b := ext_val (Prod.mk.inj h).1 (Prod.mk.inj h).2

/-- The coordinate as a point of two components. -/
def toPoint (c : Coordinate w) : Point w 2 := #v[c.x, c.y]

theorem eq_of_toPoint_eq (h : a.toPoint = b.toPoint) : a = b :=
  ext_val (congrArg (fun p : Point w 2 => p[0].val) h) (congrArg (fun p : Point w 2 => p[1].val) h)

/-- The place of a coordinate in reading order, where `y` counts before `x`. -/
def reading (c : Coordinate w) : ℤ ×ₗ ℤ := toLex (c.y.val, c.x.val)

theorem nodup_of_increasing {found : List (Coordinate w)}
    (h : found.Pairwise fun a b => a.reading < b.reading) : found.Nodup :=
  h.imp fun hlt heq => hlt.ne (congrArg _ heq)

/-- The coordinate of two exact numbers, or the fault of the operation they came from. -/
def fitted (w : Width) (fault : ArithmeticFault) (numbers : Int × Int) :
    Except ArithmeticFault (Coordinate w) := do
  let x ← Word.fit w fault numbers.1
  let y ← Word.fit w fault numbers.2
  return ⟨x, y⟩

theorem fitted_eq_ok_iff : fitted w fault numbers = .ok b ↔ b.key = numbers := by
  rw [fitted, bind_eq_ok_iff, key, Prod.ext_iff]
  constructor
  · rintro ⟨x, hx, h⟩
    obtain ⟨y, hy, h⟩ := bind_eq_ok_iff.mp h
    cases h
    exact ⟨Word.fit_eq_ok_iff.mp hx, Word.fit_eq_ok_iff.mp hy⟩
  · rintro ⟨hx, hy⟩
    exact ⟨b.x, Word.fit_eq_ok_iff.mpr hx,
      bind_eq_ok_iff.mpr ⟨b.y, Word.fit_eq_ok_iff.mpr hy, rfl⟩⟩

theorem fault_of_fitted (h : fitted w fault numbers = .error e) : e = fault := by
  rcases bind_eq_error_iff.mp h with hx | ⟨x, -, h⟩
  · exact Word.fault_of_fit hx
  · rcases bind_eq_error_iff.mp h with hy | ⟨y, -, h⟩
    · exact Word.fault_of_fit hy
    · cases h

/-- Numbers that no coordinate has are reported as the fault of their operation. -/
theorem fitted_eq_error_iff :
    fitted w fault numbers = .error e ↔ e = fault ∧ ∀ b : Coordinate w, b.key ≠ numbers := by
  constructor
  · intro h
    refine ⟨fault_of_fitted h, fun b hb => ?_⟩
    rw [fitted_eq_ok_iff.mpr hb] at h
    cases h
  · rintro ⟨rfl, hnone⟩
    cases h : fitted w e numbers with
    | ok b => exact absurd (fitted_eq_ok_iff.mp h) (hnone b)
    | error e' => rw [fault_of_fitted h]

theorem step_eq_fitted (a : Coordinate w) (d : Direction) :
    a.step d = fitted w .addOverflow (a.x.val + d.dx, a.y.val + d.dy) := rfl

theorem step_eq_ok_iff_key : a.step d = .ok b ↔ b.key = (a.x.val + d.dx, a.y.val + d.dy) := by
  rw [step_eq_fitted, fitted_eq_ok_iff]

theorem step_eq_ok_iff :
    a.step d = .ok b ↔ b.x.val = a.x.val + d.dx ∧ b.y.val = a.y.val + d.dy := by
  rw [step_eq_ok_iff_key, key, Prod.mk.injEq]

theorem fault_of_step (h : a.step d = .error e) : e = .addOverflow := by
  rw [step_eq_fitted] at h
  exact fault_of_fitted h

theorem exists_step (hx : w.min ≤ a.x.val + d.dx ∧ a.x.val + d.dx ≤ w.max)
    (hy : w.min ≤ a.y.val + d.dy ∧ a.y.val + d.dy ≤ w.max) : ∃ b, a.step d = .ok b :=
  ⟨⟨⟨_, hx.1, hx.2⟩, ⟨_, hy.1, hy.2⟩⟩, step_eq_ok_iff.mpr ⟨rfl, rfl⟩⟩

/-- The remainder that is never negative is the Euclidean one. -/
theorem exists_remainderUp (u : Word w) {modulus : Word w} (hmodulus : 0 < modulus.val) :
    ∃ r, remainderUp u modulus = .ok r ∧ r.val = u.val % modulus.val := by
  obtain ⟨r, hr, hval⟩ := Word.exists_rem u hmodulus
  have hlow := Int.emod_nonneg u.val hmodulus.ne'
  have hhigh := Int.emod_lt_of_pos u.val hmodulus
  have hexact := Int.emod_eq_tmod (a := u.val) (b := modulus.val)
  rw [← hval] at hexact
  by_cases hneg : r.val < 0
  · have habs : modulus.abs = .ok modulus := if_neg hmodulus.not_gt
    obtain ⟨s, hs, hsum⟩ := Word.exists_fit_of_nonneg (w := w) (v := u.val % modulus.val)
      .addOverflow hlow (hhigh.le.trans modulus.le_max)
    have hvalue : u.val % modulus.val = r.val + modulus.val := by
      split at hexact <;> omega
    rw [hvalue] at hs
    refine ⟨s, ?_, hsum⟩
    simp only [remainderUp, hr, bind, Except.bind, if_pos hneg, habs]
    exact hs
  · refine ⟨r, ?_, ?_⟩
    · simp only [remainderUp, hr, bind, Except.bind, if_neg hneg]
      rfl
    · split at hexact <;> omega

/-- The exact Manhattan distance. -/
def manhattan (a b : Coordinate w) : Nat :=
  (a.x.val - b.x.val).natAbs + (a.y.val - b.y.val).natAbs

theorem manhattan_self (a : Coordinate w) : a.manhattan a = 0 := by
  unfold manhattan
  omega

theorem eq_of_manhattan_eq_zero (h : a.manhattan b = 0) : a = b := by
  unfold manhattan at h
  exact ext_val (by omega) (by omega)

/-- The Manhattan distance is returned unless it is too great. -/
theorem exists_distance (hw : w.signed = true) (h : (a.manhattan b : Int) ≤ w.max) :
    ∃ d, a.distance b = .ok d ∧ d.val = a.manhattan b := by
  unfold manhattan at h ⊢
  have hfar : ∀ {x y : Word w}, ((x.val - y.val).natAbs : Int) ≤ w.max →
      ∃ r, x.sub y = .ok r ∧ ∃ s, r.abs = .ok s ∧ s.val = (x.val - y.val).natAbs := by
    intro x y hle
    rw [← Int.abs_eq_natAbs] at hle ⊢
    obtain ⟨r, hr, hval⟩ := Word.exists_fit_of_abs_le .subOverflow hw hle
    rw [← hval] at hle ⊢
    exact ⟨r, hr, Word.exists_abs hle⟩
  obtain ⟨rx, hrx, dx, hdx, hx⟩ := hfar (x := a.x) (y := b.x) (by omega)
  obtain ⟨ry, hry, dy, hdy, hy⟩ := hfar (x := a.y) (y := b.y) (by omega)
  obtain ⟨d, hd, hval⟩ := Word.exists_fit_of_nonneg (w := w) (v := dx.val + dy.val) .addOverflow
    (by omega) (by omega)
  refine ⟨d, ?_, by omega⟩
  have hsum : dx.add dy = .ok d := hd
  simp only [distance, hrx, hdx, hry, hdy, hsum, bind, Except.bind]

/-- A distance that is returned is exact, so it is returned just if it is not too great. -/
theorem distance_eq_ok_iff (hw : w.signed = true) {r : Word w} :
    a.distance b = .ok r ↔ r.val = a.manhattan b := by
  constructor
  · intro h
    obtain ⟨x, hx, h⟩ := bind_eq_ok_iff.mp h
    obtain ⟨dx, hdx, h⟩ := bind_eq_ok_iff.mp h
    obtain ⟨y, hy, h⟩ := bind_eq_ok_iff.mp h
    obtain ⟨dy, hdy, h⟩ := bind_eq_ok_iff.mp h
    rw [Word.abs_eq_fit, Word.fit_eq_ok_iff] at hdx hdy
    have hsum := Word.fit_eq_ok_iff.mp h
    rw [Word.sub, Word.fit_eq_ok_iff] at hx hy
    rw [hsum, hdx, hdy, hx, hy, manhattan, Int.abs_eq_natAbs, Int.abs_eq_natAbs, Nat.cast_add]
  · intro h
    obtain ⟨r', hr', hval⟩ := exists_distance (a := a) (b := b) hw (h ▸ r.le_max)
    rw [hr', Word.ext (hval.trans h.symm)]

/-- A step along an axis goes at most one further away. -/
theorem manhattan_step_le (start : Coordinate w) (hd : d ∈ Direction.cardinal)
    (h : a.step d = .ok b) : start.manhattan b ≤ start.manhattan a + 1 := by
  obtain ⟨hx, hy⟩ := step_eq_ok_iff.mp h
  have hunit : d.dx.natAbs + d.dy.natAbs = 1 := by
    revert hd
    cases d <;> decide
  unfold manhattan
  omega

/-- Between two words that differ there is one that is a unit nearer to the first. -/
theorem exists_nearer {u v : Word w} (h : u.val ≠ v.val) :
    ∃ (t : Word w) (δ : Int), (δ = 1 ∨ δ = -1) ∧ v.val = t.val + δ ∧
      (u.val - t.val).natAbs + 1 = (u.val - v.val).natAbs ∧
      min u.val v.val ≤ t.val ∧ t.val ≤ max u.val v.val := by
  have hu := u.min_le
  have hu' := u.le_max
  have hv := v.min_le
  have hv' := v.le_max
  rcases lt_or_gt_of_ne h with hlt | hgt
  · obtain ⟨t, ht⟩ : ∃ t : Word w, t.val = v.val - 1 := ⟨⟨_, by omega, by omega⟩, rfl⟩
    exact ⟨t, 1, .inl rfl, by omega, by omega, by omega, by omega⟩
  · obtain ⟨t, ht⟩ : ∃ t : Word w, t.val = v.val + 1 := ⟨⟨_, by omega, by omega⟩, rfl⟩
    exact ⟨t, -1, .inr rfl, by omega, by omega, by omega, by omega⟩

/-- From a coordinate other than the start, some step along an axis leads back to one
that is nearer and no further out than the two. -/
theorem exists_step_nearer (start : Coordinate w) (h : start.manhattan b ≠ 0) :
    ∃ d ∈ Direction.cardinal, ∃ a, a.step d = .ok b ∧
      start.manhattan a + 1 = start.manhattan b ∧
      (min start.x.val b.x.val ≤ a.x.val ∧ a.x.val ≤ max start.x.val b.x.val) ∧
      min start.y.val b.y.val ≤ a.y.val ∧ a.y.val ≤ max start.y.val b.y.val := by
  unfold manhattan at h ⊢
  -- Along `x` while it differs, and then along `y`.
  by_cases hx : start.x.val = b.x.val
  · obtain ⟨y, δ, hδ, hval, hnear, hmin, hmax⟩ := exists_nearer (u := start.y) (v := b.y) (by omega)
    have hstep : ∃ d ∈ Direction.cardinal, d.dx = 0 ∧ d.dy = δ := by
      rcases hδ with rfl | rfl <;> decide
    obtain ⟨d, hd, hdx, hdy⟩ := hstep
    refine ⟨d, hd, ⟨b.x, y⟩, step_eq_ok_iff.mpr ⟨?_, ?_⟩, ?_, ⟨?_, ?_⟩, hmin, hmax⟩ <;>
      simp only [] <;> omega
  · obtain ⟨x, δ, hδ, hval, hnear, hmin, hmax⟩ := exists_nearer (u := start.x) (v := b.x) hx
    have hstep : ∃ d ∈ Direction.cardinal, d.dx = δ ∧ d.dy = 0 := by
      rcases hδ with rfl | rfl <;> decide
    obtain ⟨d, hd, hdx, hdy⟩ := hstep
    refine ⟨d, hd, ⟨x, b.y⟩, step_eq_ok_iff.mpr ⟨?_, ?_⟩, ?_, ⟨hmin, hmax⟩, ?_, ?_⟩ <;>
      simp only [] <;> omega

end PuzzleKit.Coordinate

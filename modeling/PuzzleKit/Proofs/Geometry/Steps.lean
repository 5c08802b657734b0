import Mathlib.Algebra.Order.Ring.Abs
import Mathlib.Tactic.Ring
import PuzzleKit.Proofs.Geometry.Coordinate
import PuzzleKit.Proofs.Geometry.Direction

/-!
# Many steps at once

Many steps in a direction can be taken one by one or at once. One by one, a component
counts up or down, or stays, and the first step out of the width is refused. At once, the
unit step is multiplied by the count and added.

Both ways compute the same two numbers (`steps_eq_fitted`, `stepBy_eq_fitted`), and
asking whether the last of them are in range is enough: a component moves one way only,
so whatever it passes lies between its start and its end (`exists_passed`). Hence the two
refuse the same inputs.
-/

namespace PuzzleKit

variable {w : Width}

/-- What a component passes on its way lies in the width if both ends do. -/
theorem Word.exists_passed {u v : Word w} {δ : Int} {n : Nat} (hδ : -1 ≤ δ ∧ δ ≤ 1)
    (hv : v.val = u.val + (n + 1 : Nat) * δ) : ∃ t : Word w, t.val = u.val + n * δ := by
  have hu := u.min_le
  have hu' := u.le_max
  have hv' := v.min_le
  have hv'' := v.le_max
  obtain rfl | rfl | rfl : δ = -1 ∨ δ = 0 ∨ δ = 1 := by omega
  all_goals exact ⟨⟨_, by omega, by omega⟩, rfl⟩

/-- The multiple of a unit offset is in range, so only the sum can overflow. -/
theorem Coordinate.moveBy_eq_fit (hw : w.signed = true) {δ : Int} (hδ : -1 ≤ δ ∧ δ ≤ 1)
    {count : Word w} (hcount : |count.val| ≤ w.max) (u : Word w) :
    moveBy u δ count = Word.fit w .addOverflow (u.val + δ * count.val) := by
  have hmultiple : |δ * count.val| ≤ w.max := by
    rw [abs_mul]
    exact (mul_le_of_le_one_left (abs_nonneg _) (abs_le.mpr hδ)).trans hcount
  obtain ⟨delta, hdelta, hval⟩ := Word.exists_fit_of_abs_le .mulOverflow hw hmultiple
  rw [moveBy, hdelta, ← hval]
  rfl

namespace Coordinate

variable {a b c : Coordinate w} {d : Direction} {n : Nat} {count : Word w}
  {fault : ArithmeticFault}

/-- As many single steps, one after the other. -/
def steps (a : Coordinate w) (d : Direction) : Nat → Except ArithmeticFault (Coordinate w)
  | 0 => .ok a
  | n + 1 => do (← a.steps d n).step d

/-- The numbers that single steps lead to. -/
def reach (a : Coordinate w) (d : Direction) (n : Nat) : Int × Int :=
  (a.x.val + n * d.dx, a.y.val + n * d.dy)

theorem exists_key_reach (h : b.key = a.reach d (n + 1)) :
    ∃ m : Coordinate w, m.key = a.reach d n := by
  obtain ⟨hx, hy⟩ := Prod.mk.inj h
  obtain ⟨x, hx⟩ := Word.exists_passed d.unit_dx hx
  obtain ⟨y, hy⟩ := Word.exists_passed d.unit_dy hy
  exact ⟨⟨x, y⟩, Prod.ext hx hy⟩

theorem step_of_key_reach (h : b.key = a.reach d n) :
    b.step d = fitted w .addOverflow (a.reach d (n + 1)) := by
  obtain ⟨hx, hy⟩ := Prod.mk.inj h
  rw [step_eq_fitted, hx, hy]
  refine congrArg _ (Prod.ext ?_ ?_) <;> push_cast [reach] <;> ring

/-- Single steps are refused just if the numbers after the last one are out of range. -/
theorem steps_eq_fitted (a : Coordinate w) (d : Direction) (n : Nat) :
    a.steps d n = fitted w .addOverflow (a.reach d n) := by
  induction n with
  | zero =>
      refine (fitted_eq_ok_iff.mpr ?_).symm
      simp [key, reach]
  | succ n ih =>
      rw [steps, ih]
      cases hpassed : fitted w .addOverflow (a.reach d n) with
      | ok m => exact step_of_key_reach (fitted_eq_ok_iff.mp hpassed)
      | error e =>
          -- A step that was refused is not made up for by those after it.
          obtain ⟨rfl, hnone⟩ := fitted_eq_error_iff.mp hpassed
          refine (fitted_eq_error_iff.mpr ⟨rfl, fun b hb => ?_⟩).symm
          obtain ⟨m, hm⟩ := exists_key_reach hb
          exact hnone m hm

theorem stepBy_eq_fitted (hw : w.signed = true) (hcount : |count.val| ≤ w.max)
    (a : Coordinate w) (d : Direction) : a.stepBy d count =
      fitted w .addOverflow (a.x.val + d.dx * count.val, a.y.val + d.dy * count.val) := by
  rw [stepBy, moveBy_eq_fit hw d.unit_dx hcount, moveBy_eq_fit hw d.unit_dy hcount]
  rfl

/-- The refusal of a run of single steps is that of the first step that leads out. -/
theorem steps_eq_error_iff : a.steps d n = .error fault ↔
    fault = .addOverflow ∧ ∃ k < n, ∃ m, a.steps d k = .ok m ∧ m.step d = .error .addOverflow := by
  induction n with
  | zero => exact ⟨(nomatch ·), fun ⟨_, k, hk, _⟩ => absurd hk k.not_lt_zero⟩
  | succ n ih =>
      rw [steps, bind_eq_error_iff, ih]
      constructor
      · rintro (⟨hfault, k, hk, hm⟩ | ⟨m, hm, hstep⟩)
        · exact ⟨hfault, k, hk.trans n.lt_succ_self, hm⟩
        · cases fault_of_step hstep
          exact ⟨rfl, n, n.lt_succ_self, m, hm, hstep⟩
      · rintro ⟨rfl, k, hk, m, hm, hstep⟩
        rcases Nat.lt_succ_iff_lt_or_eq.mp hk with hk | rfl
        · exact .inl ⟨rfl, k, hk, m, hm, hstep⟩
        · exact .inr ⟨m, hm, hstep⟩

/-- Moving by a count at once is taking as many single steps, and it is refused just if one
of them is. A negative count leads the opposite way. -/
theorem stepBy_eq_steps (hw : w.signed = true) (c : Coordinate w) (d : Direction)
    (hcount : 0 ≤ count.val) :
    c.stepBy d count = c.steps d count.val.toNat ∧
      (∀ fault, c.stepBy d count = .error fault ↔ fault = .addOverflow ∧
        ∃ k < count.val.toNat, ∃ m, c.steps d k = .ok m ∧ m.step d = .error .addOverflow) ∧
      ∃ back, count.neg = .ok back ∧ back.val = -count.val ∧
        c.stepBy d back = c.stepBy d.opposite count := by
  have habs : |count.val| ≤ w.max := Word.abs_le_max_of_nonneg hcount
  have hsame : c.stepBy d count = c.steps d count.val.toNat := by
    rw [stepBy_eq_fitted hw habs, steps_eq_fitted, reach, Int.toNat_of_nonneg hcount,
      mul_comm d.dx, mul_comm d.dy]
  refine ⟨hsame, fun fault => by rw [hsame, steps_eq_error_iff], ?_⟩
  rw [← abs_neg] at habs
  obtain ⟨back, hback, hval⟩ := Word.exists_fit_of_abs_le .negOverflow hw habs
  refine ⟨back, hback, hval, ?_⟩
  rw [← hval] at habs
  rw [stepBy_eq_fitted hw habs, stepBy_eq_fitted hw (Word.abs_le_max_of_nonneg hcount), hval,
    Direction.dx_opposite, Direction.dy_opposite]
  simp only [mul_neg, neg_mul]

def nearTopEdge : Coordinate .i8 := ⟨0, ⟨-126, by decide, by decide⟩⟩

def threeTimes : Word .i8 := ⟨3, by decide, by decide⟩

/-- The third step leads over the edge. The other way there is room enough. -/
theorem stepBy_eq_steps_nearTopEdge :
    (nearTopEdge.stepBy .northEast threeTimes = .error .addOverflow ∧
      ∃ k < 3, ∃ m, nearTopEdge.steps .northEast k = .ok m ∧
        m.step .northEast = .error .addOverflow) ∧
      (nearTopEdge.stepBy .southWest threeTimes = nearTopEdge.steps .southWest 3) ∧
      ∃ back, threeTimes.neg = .ok back ∧
        nearTopEdge.stepBy .northEast back = nearTopEdge.stepBy .southWest threeTimes := by
  have hcount : 0 ≤ threeTimes.val := by decide
  obtain ⟨-, hrefused, back, hback, -, hopposite⟩ :=
    stepBy_eq_steps (w := .i8) rfl nearTopEdge .northEast hcount
  obtain ⟨hsame, -⟩ := stepBy_eq_steps (w := .i8) rfl nearTopEdge .southWest hcount
  have hfault : nearTopEdge.stepBy .northEast threeTimes = .error .addOverflow := by decide
  exact ⟨⟨hfault, ((hrefused _).mp hfault).2⟩, hsame, back, hback, hopposite⟩

end Coordinate

end PuzzleKit

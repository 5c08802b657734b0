import Mathlib.Data.Matrix.Mul
import Mathlib.Logic.Equiv.Basic
import Mathlib.Algebra.BigOperators.Fin
import PuzzleKit.Linear.Reduction
import PuzzleKit.Proofs.Fraction.Exact

/-!
# Systems and their solutions

An augmented table stands for the system `A x = b` of its values. For the
elimination it is better to look at a row as one vector: the row says that its
product with `point x`, which is `x` with a minus one in the place of the right
hand side, is zero. That product is linear in the row, so what a row operation
does to the solutions is read off from what it does to the vector of values.

`Cleared` is everything there is to say about one column being dealt with. The
columns before it are not touched at all. The column itself becomes that of a
pivot. And as a vector of values, the pivot row has been divided by its cell and
the others have lost a multiple of the pivot row, which is why the solutions
stay.
-/

namespace PuzzleKit.Linear

open Matrix

variable {m n : Nat} {t t' : Table Fraction m n} {row row' pivot : Vector Fraction n}
  {p : Fin m} {c : Fin n} {x : Fin (n - 1) → ℚ}

/-- The coefficients of a system. -/
def coefficients (t : Table Fraction m n) : Matrix (Fin m) (Fin (n - 1)) ℚ :=
  fun i j => (t.cell i ⟨j.val, Nat.lt_of_lt_pred j.isLt⟩).value

/-- The right hand sides of a system, zero if there is no column for them. -/
def rightSides (t : Table Fraction m n) (i : Fin m) : ℚ :=
  if h : n - 1 < n then (t.cell i ⟨n - 1, h⟩).value else 0

/-- The rational solutions of a system. -/
def solutions (t : Table Fraction m n) : Set (Fin (n - 1) → ℚ) :=
  {x | coefficients t *ᵥ x = rightSides t}

def NormalizedRow (row : Vector Fraction n) : Prop := ∀ j, (row.get j).Normalized

/-- Every cell is in lowest terms over a positive denominator. -/
def Normalized (t : Table Fraction m n) : Prop := ∀ i, NormalizedRow (t.get i)

instance (t : Table Fraction m n) : Decidable (Normalized t) :=
  inferInstanceAs (Decidable (∀ i j, (t.cell i j).Normalized))

/-! ## Rows as vectors -/

/-- The values of a row. -/
def values (row : Vector Fraction n) (j : Fin n) : ℚ := (row.get j).value

/-- A row is its coefficients and its right hand side. -/
theorem values_get (t : Table Fraction m n) (i : Fin m) (j : Fin n) :
    values (t.get i) j =
      if h : j.val < n - 1 then coefficients t i ⟨j.val, h⟩ else rightSides t i := by
  split
  · rfl
  · next hlast =>
      have hj : j.val = n - 1 := by omega
      rw [rightSides, dif_pos (hj ▸ j.isLt)]
      exact congrArg (fun k => (t.cell i k).value) (Fin.ext hj)

/-- The unknowns, and minus one for the right hand side. -/
def point (x : Fin (n - 1) → ℚ) (j : Fin n) : ℚ := if h : j.val < n - 1 then x ⟨j.val, h⟩ else -1

theorem values_dotProduct_point (t : Table Fraction m n) (x : Fin (n - 1) → ℚ) (i : Fin m) :
    values (t.get i) ⬝ᵥ point x = (coefficients t *ᵥ x) i - rightSides t i := by
  cases n with
  | zero => simp [dotProduct, mulVec, rightSides]
  | succ n =>
      have hlast : point x (Fin.last n) = -1 := dif_neg (Nat.lt_irrefl n)
      have hvariable : ∀ j : Fin n, point x j.castSucc = x j := fun j => dif_pos j.isLt
      have hright : rightSides t i = (t.cell i (Fin.last n)).value := dif_pos (Nat.lt_succ_self n)
      rw [dotProduct, Fin.sum_univ_castSucc, hlast, mul_neg_one, ← sub_eq_add_neg, hright]
      refine congrArg (· - _) (Finset.sum_congr rfl fun j _ => ?_)
      rw [hvariable]
      rfl

theorem mem_solutions_iff :
    x ∈ solutions t ↔ ∀ i, values (t.get i) ⬝ᵥ point x = 0 := by
  refine (funext_iff (f := coefficients t *ᵥ x)).trans (forall_congr' fun i => ?_)
  rw [values_dotProduct_point, sub_eq_zero]

/-! ## Row operations -/

theorem get_swapRows (t : Table Fraction m n) (i k l : Fin m) :
    (t.swapRows i k).get l = t.get (Equiv.swap i k l) := by
  rw [Equiv.swap_apply_def]
  simp only [Fin.ext_iff]
  refine (Vector.getElem_swap i.isLt k.isLt l.isLt).trans ?_
  split
  · rfl
  split <;> rfl

theorem normalized_swapRows (ht : Normalized t) (i k : Fin m) : Normalized (t.swapRows i k) := by
  intro l
  rw [get_swapRows]
  exact ht _

theorem solutions_swapRows (t : Table Fraction m n) (i k : Fin m) :
    solutions (t.swapRows i k) = solutions t := by
  ext x
  simp only [mem_solutions_iff, get_swapRows]
  exact (Equiv.swap i k).forall_congr_right (q := fun l => values (t.get l) ⬝ᵥ point x = 0)

/-- A row with its part before column `c` as it was, and with these values. -/
structure Rewritten (row row' : Vector Fraction n) (c : Fin n) (v : Fin n → ℚ) : Prop where
  normalized : NormalizedRow row'
  get_of_lt : ∀ j, j.val < c.val → row'.get j = row.get j
  values_eq : values row' = v

theorem scaleRow_spec (hrow : NormalizedRow row) (hzero : row.get c ≠ 0)
    (hbefore : ∀ j, j.val < c.val → row.get j = 0) (h : scaleRow row c = .ok row') :
    Rewritten row row' c ((values row c)⁻¹ • values row) := by
  have hcell : ∀ j, (row'.get j).Normalized ∧ (j.val < c.val → row'.get j = row.get j) ∧
      values row' j = (values row c)⁻¹ * values row j := by
    intro j
    have hj := get_of_ofFnM_eq_ok h j
    split at hj
    · next hlt =>
        have hj : row'.get j = row.get j := (Except.ok.inj hj).symm
        refine ⟨hj ▸ hrow j, fun _ => hj, ?_⟩
        rw [values, values, values, hj, hbefore j hlt, Fraction.value_zero, mul_zero]
    · next hlt =>
        rw [Fraction.div_eq (hrow j) (hrow c) hzero] at hj
        obtain ⟨hnormalized, hvalue⟩ := Fraction.ofRat_eq_ok_iff.mp hj
        exact ⟨hnormalized, fun h => absurd h hlt, hvalue.trans (div_eq_inv_mul ..)⟩
  exact ⟨fun j => (hcell j).1, fun j => (hcell j).2.1, funext fun j => (hcell j).2.2⟩

theorem clearRow_spec (hrow : NormalizedRow row) (hpivot : NormalizedRow pivot)
    (hbefore : ∀ j, j.val < c.val → pivot.get j = 0) (h : clearRow row pivot c = .ok row') :
    Rewritten row row' c (values row - values row c • values pivot) := by
  have hcell : ∀ j, (row'.get j).Normalized ∧ (j.val < c.val → row'.get j = row.get j) ∧
      values row' j = values row j - values row c * values pivot j := by
    intro j
    have hj := get_of_ofFnM_eq_ok h j
    split at hj
    · next hlt =>
        have hj : row'.get j = row.get j := (Except.ok.inj hj).symm
        refine ⟨hj ▸ hrow j, fun _ => hj, ?_⟩
        rw [values, values, values, values, hj, hbefore j hlt, Fraction.value_zero, mul_zero,
          sub_zero]
    · next hlt =>
        obtain ⟨product, hproduct, hj⟩ := bind_eq_ok_iff.mp hj
        rw [Fraction.mul_eq (hrow c) (hpivot j)] at hproduct
        obtain ⟨hproductNormalized, hproductValue⟩ := Fraction.ofRat_eq_ok_iff.mp hproduct
        rw [Fraction.sub_eq (hrow j) hproductNormalized, hproductValue] at hj
        obtain ⟨hnormalized, hvalue⟩ := Fraction.ofRat_eq_ok_iff.mp hj
        exact ⟨hnormalized, fun h => absurd h hlt, hvalue⟩
  exact ⟨fun j => (hcell j).1, fun j => (hcell j).2.1, funext fun j => (hcell j).2.2⟩

/-- What dealing with column `c` by means of row `p` makes of a table. -/
structure Cleared (t t' : Table Fraction m n) (p : Fin m) (c : Fin n) : Prop where
  pivot_ne_zero : values (t.get p) c ≠ 0
  pivot : Rewritten (t.get p) (t'.get p) c ((values (t.get p) c)⁻¹ • values (t.get p))
  other : ∀ i, i ≠ p → Rewritten (t.get i) (t'.get i) c
    (values (t.get i) - values (t.get i) c • values (t'.get p))

namespace Cleared

theorem normalized (h : Cleared t t' p c) : Normalized t' := by
  intro i
  by_cases hi : i = p
  · exact hi ▸ h.pivot.normalized
  · exact (h.other i hi).normalized

theorem cell_of_lt (h : Cleared t t' p c) (i : Fin m) {j : Fin n} (hj : j.val < c.val) :
    t'.cell i j = t.cell i j := by
  by_cases hi : i = p
  · exact hi ▸ h.pivot.get_of_lt j hj
  · exact (h.other i hi).get_of_lt j hj

theorem values_pivot_column (h : Cleared t t' p c) : values (t'.get p) c = 1 := by
  rw [h.pivot.values_eq]
  exact inv_mul_cancel₀ h.pivot_ne_zero

/-- The column is that of a pivot. -/
theorem cell_column (h : Cleared t t' p c) (i : Fin m) :
    t'.cell i c = if i = p then 1 else 0 := by
  split
  · next hi =>
      rw [hi]
      exact (h.normalized p c).value_eq_one_iff.mp h.values_pivot_column
  · next hi =>
      refine (h.normalized i c).value_eq_zero_iff.mp ?_
      calc values (t'.get i) c
          = values (t.get i) c - values (t.get i) c * values (t'.get p) c :=
            congrFun (h.other i hi).values_eq c
        _ = 0 := by rw [h.values_pivot_column, mul_one, sub_self]

theorem solutions_eq (h : Cleared t t' p c) : solutions t' = solutions t := by
  ext x
  have hpivot : values (t'.get p) ⬝ᵥ point x = 0 ↔ values (t.get p) ⬝ᵥ point x = 0 := by
    rw [h.pivot.values_eq, smul_dotProduct, smul_eq_mul, mul_eq_zero]
    exact or_iff_right (inv_ne_zero h.pivot_ne_zero)
  have hother : ∀ i, i ≠ p → values (t'.get p) ⬝ᵥ point x = 0 →
      values (t'.get i) ⬝ᵥ point x = values (t.get i) ⬝ᵥ point x := by
    intro i hi hzero
    rw [(h.other i hi).values_eq, sub_dotProduct, smul_dotProduct, hzero, smul_zero, sub_zero]
  simp only [mem_solutions_iff]
  constructor
  · intro hx i
    by_cases hi : i = p
    · rw [hi]
      exact hpivot.mp (hx p)
    · rw [← hother i hi (hx p)]
      exact hx i
  · intro hx i
    by_cases hi : i = p
    · rw [hi]
      exact hpivot.mpr (hx p)
    · rw [hother i hi (hpivot.mpr (hx p))]
      exact hx i

end Cleared

theorem clearColumn_spec (ht : Normalized t) (hpivot : t.cell p c ≠ 0)
    (hbefore : ∀ j, j.val < c.val → t.cell p j = 0) (h : clearColumn t p c = .ok t') :
    Cleared t t' p c := by
  obtain ⟨scaled, hscaled, h⟩ := bind_eq_ok_iff.mp h
  have hscaled := scaleRow_spec (ht p) hpivot hbefore hscaled
  have hrows := get_of_ofFnM_eq_ok h
  have hpivotRow : t'.get p = scaled := by
    have hrow := hrows p
    rw [if_pos rfl] at hrow
    exact (Except.ok.inj hrow).symm
  rw [← hpivotRow] at hscaled hrows
  refine ⟨fun hzero => hpivot ((ht p c).value_eq_zero_iff.mp hzero), hscaled, fun i hi => ?_⟩
  have hrow := hrows i
  rw [if_neg hi] at hrow
  -- A row that is zero in the column is not touched: it would lose zero times
  -- the pivot row.
  split at hrow
  · next hzero =>
      have hrow : t'.get i = t.get i := (Except.ok.inj hrow).symm
      have hvalue : values (t.get i) c = 0 :=
        (ht i c).value_eq_zero_iff.mpr ((ht i c).isZero_iff.mp hzero)
      exact ⟨hrow ▸ ht i, fun j _ => by rw [hrow], by rw [hrow, hvalue, zero_smul, sub_zero]⟩
  · exact clearRow_spec (ht i) hscaled.normalized
      (fun j hj => (hscaled.get_of_lt j hj).trans (hbefore j hj)) hrow

end PuzzleKit.Linear

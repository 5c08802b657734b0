import Mathlib.Data.List.Sort
import PuzzleKit.Proofs.Linear.Consistency
import PuzzleKit.Proofs.Table

/-!
# The reduced form is canonical

Two eliminations may exchange different rows and take their pivots from different
ones, so there is nothing to be gained from following them step by step. What they
have in common is the set of solutions, and a table in reduced row echelon form can
be read off that set, provided there is a solution.

First the pivots. Solve from the last unknown to the first: an unknown with a pivot
has no choice once the later ones are known, because the row of its pivot is zero
before the pivot. A free unknown always has a choice, because no row with a later
pivot mentions it. So the pivots are the columns that are determined by the later
ones, which is said of the solutions alone (`mem_pivots_iff`).

Then the rows. The row of a pivot gives its unknown as a function of the free ones,
which may take any values. At zero it is the right hand side, and at a unit vector
it is off by the coefficient of one free unknown. Since both tables give the same
function, they have the same row.
-/

namespace PuzzleKit.Linear

open Matrix

variable {m n : Nat} {t t' : Table Fraction m n} {pivots pivots' : List Nat}
  {x y : Fin (n - 1) → ℚ}

/-- Only the free unknowns that the row mentions matter. -/
theorem freeSum_congr_of_ne_zero {k : Fin m}
    (h : ∀ j, j.val ∉ pivots → coefficients t k j ≠ 0 → x j = y j) :
    freeSum t pivots x k = freeSum t pivots y k := by
  refine Finset.sum_congr rfl fun j hj => ?_
  by_cases hzero : coefficients t k j = 0
  · rw [hzero, zero_mul, zero_mul]
  · rw [h j (Finset.mem_filter.mp hj).2 hzero]

theorem freeSum_zero (k : Fin m) : freeSum t pivots 0 k = 0 :=
  Finset.sum_eq_zero fun _ _ => mul_zero _

theorem freeSum_single {k : Fin m} {j : Fin (n - 1)} (hj : j.val ∉ pivots) :
    freeSum t pivots (Pi.single j 1) k = coefficients t k j := by
  rw [freeSum, Finset.sum_eq_single_of_mem j (Finset.mem_filter.mpr ⟨Finset.mem_univ j, hj⟩)]
  · rw [Pi.single_eq_same, mul_one]
  · intro i _ hij
    rw [Pi.single_eq_of_ne hij, mul_zero]

namespace Echelon

theorem coefficients_before (h : Echelon t pivots (n - 1)) {k : Fin m} {p : Nat}
    (hp : pivots[k.val]? = some p) {j : Fin (n - 1)} (hj : j.val < p) :
    coefficients t k j = 0 := by
  rw [coefficients, h.zero_before k p hp ⟨j.val, Nat.lt_of_lt_pred j.isLt⟩ hj]
  exact Fraction.value_zero

/-- The unknowns with a pivot are those that the later ones determine. -/
theorem mem_pivots_iff (h : Echelon t pivots (n - 1)) (hsolvable : (solutions t).Nonempty)
    (j : Fin (n - 1)) :
    j.val ∈ pivots ↔
      ∀ x ∈ solutions t, ∀ y ∈ solutions t, (∀ l, j < l → x l = y l) → x j = y j := by
  constructor
  · intro hj x hx y hy hlater
    obtain ⟨k, hk⟩ := h.exists_row hj
    have hsum : freeSum t pivots x k = freeSum t pivots y k := by
      refine freeSum_congr_of_ne_zero fun l hl hne => hlater l ?_
      by_contra hle
      rcases lt_or_eq_of_le (not_lt.mp hle) with hlt | rfl
      · exact hne (h.coefficients_before hk hlt)
      · exact hl hj
    rw [(h.mem_solutions_iff.mp hx).1 k j hk, (h.mem_solutions_iff.mp hy).1 k j hk, hsum]
  · intro hdetermined
    by_contra hj
    have hzero := h.solutions_nonempty_iff.mp hsolvable
    obtain ⟨x, hx, hxfree⟩ := h.exists_solution hzero 0
    obtain ⟨y, hy, hyfree⟩ := h.exists_solution hzero (Pi.single j 1)
    have hlater : ∀ l, j < l → x l = y l := by
      intro l hl
      have hfree : ∀ i, i.val ∉ pivots → i ≠ j → x i = y i := by
        intro i hi hij
        rw [hxfree i hi, hyfree i hi, Pi.single_eq_of_ne hij, Pi.zero_apply]
      by_cases hlpivot : l.val ∈ pivots
      · obtain ⟨k, hk⟩ := h.exists_row hlpivot
        have hsum : freeSum t pivots x k = freeSum t pivots y k := by
          refine freeSum_congr_of_ne_zero fun i hi hne => hfree i hi ?_
          rintro rfl
          exact hne (h.coefficients_before hk hl)
        rw [(h.mem_solutions_iff.mp hx).1 k l hk, (h.mem_solutions_iff.mp hy).1 k l hk, hsum]
      · exact hfree l hlpivot hl.ne'
    have heq := hdetermined x hx y hy hlater
    rw [hxfree j hj, hyfree j hj, Pi.single_eq_same, Pi.zero_apply] at heq
    exact zero_ne_one heq

/-- Tables in reduced row echelon form with the same solutions have the same
pivots. -/
theorem pivots_eq (h : Echelon t pivots (n - 1)) (h' : Echelon t' pivots' (n - 1))
    (hsame : solutions t' = solutions t) (hsolvable : (solutions t).Nonempty) :
    pivots = pivots' := by
  refine h.increasing.eq_of_mem_iff h'.increasing fun p => ?_
  by_cases hp : p < n - 1
  · rw [h.mem_pivots_iff hsolvable ⟨p, hp⟩, h'.mem_pivots_iff (hsame ▸ hsolvable) ⟨p, hp⟩, hsame]
  · exact ⟨fun hmem => absurd (h.lt_width p hmem) hp, fun hmem => absurd (h'.lt_width p hmem) hp⟩

/-- The row of a pivot gives its unknown as a function of the free ones, and this
function belongs to the solutions. -/
theorem pivot_function_eq (h : Echelon t pivots (n - 1)) (h' : Echelon t' pivots (n - 1))
    (hsame : solutions t' = solutions t) (hsolvable : (solutions t).Nonempty) {k : Fin m}
    (hk : k.val < pivots.length) (free : Fin (n - 1) → ℚ) :
    rightSides t k - freeSum t pivots free k = rightSides t' k - freeSum t' pivots free k := by
  have hp : pivots[k.val]? = some pivots[k.val] := List.getElem?_eq_getElem hk
  have hlt : pivots[k.val] < n - 1 := h.lt_width _ (List.getElem_mem hk)
  obtain ⟨x, hx, hfree⟩ := h.exists_solution (h.solutions_nonempty_iff.mp hsolvable) free
  have hx' : x ∈ solutions t' := hsame ▸ hx
  rw [← freeSum_congr hfree, ← freeSum_congr hfree,
    ← (h.mem_solutions_iff.mp hx).1 k ⟨_, hlt⟩ hp, ← (h'.mem_solutions_iff.mp hx').1 k ⟨_, hlt⟩ hp]

/-- A row that has a pivot is the same in both tables, and one that has none is
zero in both. -/
theorem row_eq (h : Echelon t pivots (n - 1)) (h' : Echelon t' pivots (n - 1))
    (hsame : solutions t' = solutions t) (hsolvable : (solutions t).Nonempty) (k : Fin m) :
    coefficients t k = coefficients t' k ∧ rightSides t k = rightSides t' k := by
  rcases Nat.lt_or_ge k.val pivots.length with hk | hk
  · have hfunction := h.pivot_function_eq h' hsame hsolvable hk
    have hright : rightSides t k = rightSides t' k := by
      simpa only [freeSum_zero, sub_zero] using hfunction 0
    refine ⟨funext fun j => ?_, hright⟩
    by_cases hj : j.val ∈ pivots
    · obtain ⟨l, hl⟩ := h.exists_row hj
      rw [h.coefficients_pivot hl, h'.coefficients_pivot hl]
    · have hunit := hfunction (Pi.single j 1)
      rwa [freeSum_single hj, freeSum_single hj, hright, sub_right_inj] at hunit
  · have hsolvable' : (solutions t').Nonempty := hsame ▸ hsolvable
    rw [h.coefficients_below hk, h'.coefficients_below hk,
      h.solutions_nonempty_iff.mp hsolvable k hk, h'.solutions_nonempty_iff.mp hsolvable' k hk]
    exact ⟨rfl, rfl⟩

end Echelon

/-- Cells in lowest terms are known by the values of the system. -/
theorem table_eq_of_rows (ht : Normalized t) (ht' : Normalized t')
    (h : ∀ k, coefficients t k = coefficients t' k ∧ rightSides t k = rightSides t' k) :
    t = t' := by
  refine Table.ext_cell fun i j => (ht i j).eq_of_value_eq (ht' i j) ?_
  have hvalues : values (t.get i) j = values (t'.get i) j := by
    rw [values_get, values_get, (h i).1, (h i).2]
  exact hvalues

namespace Elimination

variable {e e' : Elimination m n}

/-- The results of eliminations of tables with the same solutions. -/
theorem Sound.eq_of_solutions_eq (h : e.Sound t (n - 1)) (h' : e'.Sound t' (n - 1))
    (hsame : solutions t' = solutions t) (hsolvable : (solutions t).Nonempty) : e' = e := by
  have hsame : solutions e'.table = solutions e.table := by
    rw [h'.solutions_eq, h.solutions_eq, hsame]
  have hsolvable : (solutions e.table).Nonempty := h.solutions_eq ▸ hsolvable
  have hpivots := h.echelon.pivots_eq h'.echelon hsame hsolvable
  have htable : e.table = e'.table := table_eq_of_rows h.normalized h'.normalized
    (h.echelon.row_eq (hpivots ▸ h'.echelon) hsame hsolvable)
  cases e
  cases e'
  cases htable
  cases hpivots
  rfl

/-- A system with a solution is not reported as inconsistent. -/
theorem Sound.exists_outcome (h : e.Sound t (n - 1)) (hsolvable : (solutions t).Nonempty) :
    ∃ r, e.outcome = .ok r := by
  cases houtcome : e.outcome with
  | ok r => exact ⟨r, rfl⟩
  | error inconsistency =>
      obtain ⟨i, hi, -⟩ := outcome_eq_error_iff.mp houtcome
      have hcontradiction := firstContradiction_of_inconsistentRow? h.normalized h.echelon hi
      have hzero := h.echelon.solutions_nonempty_iff.mp (h.solutions_eq ▸ hsolvable)
      exact absurd (hzero i hcontradiction.below) hcontradiction.rightSide_ne

end Elimination

/-- The rows of `t'` are those of `t` in some order, each times a factor that is
not zero. -/
def Rescaled (t t' : Table Fraction m n) : Prop :=
  ∃ order : Equiv.Perm (Fin m), ∀ i, ∃ factor : ℚ, factor ≠ 0 ∧
    values (t'.get i) = factor • values (t.get (order i))

theorem Rescaled.solutions_eq (h : Rescaled t t') : solutions t' = solutions t := by
  obtain ⟨order, h⟩ := h
  ext x
  rw [mem_solutions_iff, mem_solutions_iff,
    ← order.forall_congr_right (q := fun i => values (t.get i) ⬝ᵥ point x = 0)]
  refine forall_congr' fun i => ?_
  obtain ⟨factor, hfactor, hvalues⟩ := h i
  rw [hvalues, smul_dotProduct, smul_eq_mul, mul_eq_zero, or_iff_right hfactor]

/-- The result of eliminating a system that has a solution depends on nothing but
its solutions: another table with the same solutions ends with the same table and
the same pivots, and so does one with the rows in another order and multiplied by
factors that are not zero, whichever of the candidate rows are taken for the
pivots. -/
theorem reduced_form_canonical {e : Elimination m n} (ht : Normalized t)
    (hsolvable : (solutions t).Nonempty) (h : reduce t = .ok e) :
    (∃ r, e.outcome = .ok r) ∧
      (∀ t' e', Normalized t' → solutions t' = solutions t → reduce t' = .ok e' → e' = e) ∧
      (∀ t' e', Normalized t' → Rescaled t t' → reduce t' = .ok e' → e' = e) ∧
      ∀ source?, ChoosesPivots source? →
        ∀ t' e', Normalized t' → solutions t' = solutions t → reduceBy source? t' = .ok e' →
          e' = e := by
  have hsound := reduce_sound ht h
  refine ⟨hsound.exists_outcome hsolvable, ?_, ?_, ?_⟩
  · intro t' e' ht' hsame h'
    exact hsound.eq_of_solutions_eq (reduce_sound ht' h') hsame hsolvable
  · intro t' e' ht' hrescaled h'
    exact hsound.eq_of_solutions_eq (reduce_sound ht' h') hrescaled.solutions_eq hsolvable
  · intro source? hsource t' e' ht' hsame h'
    exact hsound.eq_of_solutions_eq (reduceBy_sound hsource ht' h') hsame hsolvable

/-- The last of the candidate rows. -/
def lastSource? (t : Table Fraction m n) (firstRow : Nat) (column : Fin n) : Option (Fin m) :=
  ((List.finRange m).filter fun i : Fin m =>
    firstRow ≤ i.val && !(t.cell i column).isZero).getLast?

theorem choosesPivots_lastSource? : ChoosesPivots (lastSource? (m := m) (n := n)) where
  eq_none h i hi := by
    have hempty := List.filter_eq_nil_iff.mp (List.getLast?_eq_none_iff.mp h) i
      (List.mem_finRange i)
    simpa [hi] using hempty
  eq_some h := by
    simpa using (List.mem_filter.mp (List.mem_of_getLast? h)).2

/-- The equations of `skewed`: the third times `-1 / 3`, the second times `2` and
the first times `1 / 2`. -/
def shuffled : Table Fraction 3 4 :=
  Table.mapCells (fun v => .ofWord ((Word.ofInt? .i64 v).getD 0))
    #v[#v[0, -1, -1, -2], #v[0, 6, 2, 8], #v[0, 0, 1, 1]]

theorem reduced_form_canonical_shuffled :
    Normalized skewed ∧ (solutions skewed).Nonempty ∧ Normalized shuffled ∧
      Rescaled skewed shuffled ∧ reduce skewed = .ok ⟨skewedReduced, [1, 2]⟩ ∧
      reduce shuffled = .ok ⟨skewedReduced, [1, 2]⟩ ∧
      reduceBy lastSource? shuffled = .ok ⟨skewedReduced, [1, 2]⟩ := by
  have hnormalized : Normalized skewed := by decide +kernel
  have hnormalized' : Normalized shuffled := by decide +kernel
  have hsolvable : (solutions skewed).Nonempty :=
    ⟨![0, 1, 1], mem_solutions_iff.mpr (by decide +kernel)⟩
  have hrescaled : Rescaled skewed shuffled := by
    refine ⟨Equiv.swap 0 2, fun i => ⟨![-1 / 3, 2, 1 / 2] i, ?_, funext fun j => ?_⟩⟩
    · revert i
      decide +kernel
    · revert i j
      decide +kernel
  have hreduce : reduce skewed = .ok ⟨skewedReduced, [1, 2]⟩ := by decide +kernel
  obtain ⟨e, he⟩ : ∃ e, reduce shuffled = .ok e := ⟨⟨skewedReduced, [1, 2]⟩, by decide +kernel⟩
  obtain ⟨e', he'⟩ : ∃ e', reduceBy lastSource? shuffled = .ok e' :=
    ⟨⟨skewedReduced, [1, 2]⟩, by decide +kernel⟩
  obtain ⟨-, -, hrescaledSame, hchoiceSame⟩ := reduced_form_canonical hnormalized hsolvable hreduce
  have heq := hrescaledSame shuffled e hnormalized' hrescaled he
  have heq' := hchoiceSame lastSource? choosesPivots_lastSource? shuffled e' hnormalized'
    hrescaled.solutions_eq he'
  exact ⟨hnormalized, hsolvable, hnormalized', hrescaled, hreduce, heq ▸ he, heq' ▸ he'⟩

end PuzzleKit.Linear

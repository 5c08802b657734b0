import Mathlib.Algebra.GCDMonoid.Finset
import Mathlib.Algebra.GCDMonoid.Nat
import PuzzleKit.Linear.Integral
import PuzzleKit.Proofs.Fraction.Obtainable
import PuzzleKit.Proofs.Integer.CommonMultiple
import PuzzleKit.Proofs.Linear.Canonical
import PuzzleKit.Proofs.Linear.Freedom

/-!
# Integral systems

A row of fractions times the least common multiple of its denominators is a row of
integers, and what makes this multiple the right one is that it is least. If `g`
divides the multiple and all the integers of the row, then the multiple over `g` makes
integers of the row as well. So it is itself a multiple of the least one, and `g` is a
unit. No prime number is looked at for that.

In a reduced row with a pivot the multiple is one of the integers, since the pivot is
one. So there the integers alone have no common factor.
-/

namespace PuzzleKit.Linear

variable {m n : Nat}

/-! ## Tables of integers -/

theorem normalized_ofWord (t : Table (Word .i64) m n) :
    Normalized (t.mapCells Fraction.ofWord) := by
  intro i j
  show ((t.mapCells Fraction.ofWord).cell i j).Normalized
  rw [Table.cell_mapCells]
  exact Fraction.normalized_ofWord _

theorem values_ofWord (t : Table (Word .i64) m n) (i : Fin m) (j : Fin n) :
    values ((t.mapCells Fraction.ofWord).get i) j = (t.cell i j).val := by
  show ((t.mapCells Fraction.ofWord).cell i j).value = (t.cell i j).val
  rw [Table.cell_mapCells, Fraction.value_ofWord]

/-! ## One row -/

variable {row : Vector Fraction n} {scaled : Vector (Word .i64) n} {scale : ℤ}

/-- The integers of a row times the least positive number that makes integers of it. -/
structure Scaled (row : Vector Fraction n) (scaled : Vector (Word .i64) n) (scale : ℤ) :
    Prop where
  pos : 0 < scale
  values_eq : ∀ j, ((scaled.get j).val : ℚ) = scale * values row j
  least : ∀ k : ℤ, (∀ j, ∃ v : ℤ, (v : ℚ) = k * values row j) → scale ∣ k

namespace Scaled

theorem isUnit_of_dvd (h : Scaled row scaled scale) {g : ℤ} (hscale : g ∣ scale)
    (hscaled : ∀ j, g ∣ (scaled.get j).val) : IsUnit g := by
  obtain ⟨rest, hrest⟩ := hscale
  have hne : g * rest ≠ 0 := hrest ▸ h.pos.ne'
  have hg : (g : ℚ) ≠ 0 := Int.cast_ne_zero.mpr (left_ne_zero_of_mul hne)
  have hclears : scale ∣ rest := by
    refine h.least rest fun j => ?_
    obtain ⟨v, hv⟩ := hscaled j
    have hvalue := h.values_eq j
    rw [hv, hrest, Int.cast_mul, Int.cast_mul, mul_assoc] at hvalue
    exact ⟨v, mul_left_cancel₀ hg hvalue⟩
  have hself : g * rest ∣ 1 * rest := by
    rw [one_mul, ← hrest]
    exact hclears
  exact isUnit_of_dvd_one ((mul_dvd_mul_iff_right (right_ne_zero_of_mul hne)).mp hself)

/-- Where a fraction of the row is one, the multiple is one of the integers. -/
theorem pos_and_gcd_eq_one (h : Scaled row scaled scale) {j : Fin n} (hj : row.get j = 1) :
    0 < (scaled.get j).val ∧ Finset.univ.gcd (fun l => (scaled.get l).val) = 1 := by
  have hcell : (scaled.get j).val = scale := by
    have hvalue := h.values_eq j
    rw [values, hj, Fraction.value_one, mul_one] at hvalue
    exact_mod_cast hvalue
  have hdvd : ∀ l, Finset.univ.gcd (fun l => (scaled.get l).val) ∣ (scaled.get l).val :=
    fun l => Finset.gcd_dvd (Finset.mem_univ l)
  refine ⟨hcell ▸ h.pos, ?_⟩
  rw [← Finset.normalize_gcd, normalize_eq_one]
  exact h.isUnit_of_dvd (hcell ▸ hdvd j) hdvd

end Scaled

theorem rowScale_eq_ok {c : Word .i64} (hrow : NormalizedRow row) (h : rowScale row = .ok c) :
    0 < c.val ∧ ∀ k : ℤ, c.val ∣ k ↔ ∀ j, (row.get j).denominator.val ∣ k := by
  unfold rowScale at h
  split at h
  · next hmultiple =>
      cases h
      have hcells (P : Word .i64 → Prop) :
          (∀ b ∈ row.toList.map Fraction.denominator, P b) ↔ ∀ j, P (row.get j).denominator := by
        simp [Table.mem_row_iff]
      have hpos := (hcells (0 < ·.val)).mpr fun j => (hrow j).denominator_pos
      obtain ⟨hc, hdvd⟩ := Word.checkedLcmAll_spec (fun h => lt_irrefl 0 (hpos 0 h)) hmultiple
      exact ⟨hc, fun k => (hdvd k).trans (hcells _)⟩
  · cases h

theorem scaleCell_eq_ok {c v : Word .i64} {a : Fraction} (ha : a.Normalized)
    (hdvd : a.denominator.val ∣ c.val) (h : scaleCell c a = .ok v) :
    (v.val : ℚ) = c.val * a.value := by
  obtain ⟨cofactor, hcofactor, hmul⟩ := Word.exists_div_of_dvd ha.denominator_pos hdvd
  have hzero : (a.denominator.val : ℚ) ≠ 0 := Int.cast_ne_zero.mpr ha.denominator_pos.ne'
  unfold scaleCell at h
  rw [hcofactor] at h
  dsimp only at h
  split at h
  · next hproduct =>
      cases h
      rw [Word.ofInt?_eq_some_iff.mp hproduct, ← hmul, Fraction.value]
      push_cast
      field_simp
  · cases h

theorem integralRow_eq_ok (hrow : NormalizedRow row) (h : integralRow row = .ok scaled) :
    ∃ scale, Scaled row scaled scale := by
  obtain ⟨c, hscale, hcells⟩ := bind_eq_ok_iff.mp h
  obtain ⟨hpos, hdvd⟩ := rowScale_eq_ok hrow hscale
  refine ⟨c.val, hpos, fun j => ?_, fun k hk => ?_⟩
  · exact scaleCell_eq_ok (hrow j) ((hdvd c.val).mp (dvd_refl _) j)
      (get_of_ofFnM_eq_ok hcells j)
  · exact (hdvd k).mpr fun j => (hrow j).denominator_dvd_iff.mpr (hk j)

/-! ## The table -/

theorem Elimination.conclude_eq_ok {e : Elimination m n} {t t' : Table (Word .i64) m n}
    {outcome : Except Inconsistency Reduction} (h : e.conclude t = .ok (t', outcome)) :
    outcome = e.outcome ∧ (∀ inconsistency, outcome = .error inconsistency → t' = t) ∧
      ∀ r, outcome = .ok r → ∀ i, integralRow (e.table.get i) = .ok (t'.get i) := by
  unfold conclude at h
  split at h
  · next houtcome =>
      cases h
      exact ⟨houtcome.symm, fun _ _ => rfl, fun _ => (nomatch ·)⟩
  · next houtcome =>
      obtain ⟨table, hrows, hpair⟩ := bind_eq_ok_iff.mp h
      cases hpair
      exact ⟨houtcome.symm, fun _ => (nomatch ·), fun _ _ => get_of_ofFnM_eq_ok hrows⟩

/-- A row below the pivots is zero throughout, if there is a solution. -/
theorem Echelon.values_below {t : Table Fraction m n} {pivots : List Nat}
    (h : Echelon t pivots (n - 1))
    (hzero : ∀ i : Fin m, pivots.length ≤ i.val → rightSides t i = 0) {i : Fin m}
    (hi : pivots.length ≤ i.val) (j : Fin n) : values (t.get i) j = 0 := by
  rw [values_get, h.coefficients_below hi, hzero i hi]
  split <;> rfl

/-- The reduction of a table of integers leaves the table alone if the system has no
solution. Otherwise every row becomes a positive multiple of the reduced row, which is
primitive and positive at its pivot if it has one and zero if it has none, and the
solutions stay. -/
theorem reduceInteger_primitive {e : Elimination m n} {t t' : Table (Word .i64) m n}
    {outcome : Except Inconsistency Reduction} (h : reduceInteger t = .ok e)
    (hconclude : e.conclude t = .ok (t', outcome)) :
    (reduce (t.mapCells Fraction.ofWord) = .ok e ∧ outcome = e.outcome) ∧
    (∀ inconsistency, outcome = .error inconsistency → t' = t) ∧
    ∀ r, outcome = .ok r →
      (∀ i, ∃ scale : ℤ, 0 < scale ∧
        ∀ j, ((t'.cell i j).val : ℚ) = scale * (e.table.cell i j).value) ∧
      (∀ k p, r.pivotColumns[k]? = some p → ∃ (i : Fin m) (j : Fin n), i.val = k ∧ j.val = p ∧
        0 < (t'.cell i j).val ∧ Finset.univ.gcd (fun l => (t'.cell i l).val) = 1) ∧
      (∀ i : Fin m, r.pivotColumns.length ≤ i.val → ∀ j, (t'.cell i j).val = 0) ∧
      solutions (t'.mapCells Fraction.ofWord) = solutions (t.mapCells Fraction.ofWord) := by
  have hsound := reduce_sound (normalized_ofWord t) h
  obtain ⟨hsame, herror, hok⟩ := Elimination.conclude_eq_ok hconclude
  refine ⟨⟨h, hsame⟩, herror, ?_⟩
  intro r hr
  obtain ⟨hrow, rfl⟩ := Elimination.outcome_eq_ok (hsame.symm.trans hr)
  have hzero := Elimination.inconsistentRow?_eq_none hsound.normalized hrow
  choose scale hscaled using fun i => integralRow_eq_ok (hsound.normalized i) (hok _ hr i)
  refine ⟨fun i => ⟨scale i, (hscaled i).pos, (hscaled i).values_eq⟩, ?_, ?_, ?_⟩
  · intro k p hp
    obtain ⟨hk, -⟩ := List.getElem?_eq_some_iff.mp hp
    have hlt := hsound.echelon.lt_width p (List.mem_of_getElem? hp)
    let i : Fin m := ⟨k, Nat.lt_of_lt_of_le hk hsound.echelon.length_le⟩
    let j : Fin n := ⟨p, Nat.lt_of_lt_pred hlt⟩
    have hone : e.table.cell i j = 1 := (hsound.echelon.unit i i j hp).trans (if_pos rfl)
    exact ⟨i, j, rfl, rfl, (hscaled i).pos_and_gcd_eq_one hone⟩
  · intro i hi j
    have hvalue := (hscaled i).values_eq j
    rw [hsound.echelon.values_below hzero hi, mul_zero] at hvalue
    exact_mod_cast hvalue
  · rw [← hsound.solutions_eq]
    refine Rescaled.solutions_eq ⟨Equiv.refl _, fun i => ⟨scale i, ?_, funext fun j => ?_⟩⟩
    · exact Int.cast_ne_zero.mpr (hscaled i).pos.ne'
    · exact (values_ofWord t' i j).trans ((hscaled i).values_eq j)

def tallIntegral : Table (Word .i64) 3 3 := integers #v[#v[2, 0, 1], #v[0, 2, 1], #v[0, 0, 0]]

/-- Two equations that contradict each other. -/
def parallel : Table (Word .i64) 2 3 := integers #v[#v[1, 1, 1], #v[1, 1, 2]]

def parallelReduced : Table Fraction 2 3 := #v[#v[1, 1, 1], #v[0, 0, 1]]

/-- The equations of `tall` as integers, and a system that is left as it was. -/
theorem reduceInteger_primitive_tall :
    (reduceInteger tallIntegers = .ok ⟨tallReduced, [0, 1]⟩ ∧
      Elimination.conclude ⟨tallReduced, [0, 1]⟩ tallIntegers =
        .ok (tallIntegral, .ok ⟨[0, 1], 2⟩) ∧
      (∀ k p, [0, 1][k]? = some p → ∃ i j : Fin 3, i.val = k ∧ j.val = p ∧
        0 < (tallIntegral.cell i j).val ∧
        Finset.univ.gcd (fun l => (tallIntegral.cell i l).val) = 1) ∧
      solutions (tallIntegral.mapCells Fraction.ofWord) =
        solutions (tallIntegers.mapCells Fraction.ofWord)) ∧
    reduceInteger parallel = .ok ⟨parallelReduced, [0]⟩ ∧
      ∃ t', Elimination.conclude ⟨parallelReduced, [0]⟩ parallel = .ok (t', .error ⟨1⟩) ∧
        t' = parallel := by
  have htall : reduceInteger tallIntegers = .ok ⟨tallReduced, [0, 1]⟩ := by decide +kernel
  have hconclude : Elimination.conclude ⟨tallReduced, [0, 1]⟩ tallIntegers =
      .ok (tallIntegral, .ok ⟨[0, 1], 2⟩) := by decide +kernel
  have hparallel : reduceInteger parallel = .ok ⟨parallelReduced, [0]⟩ := by decide +kernel
  obtain ⟨t', hconclude'⟩ :
      ∃ t', Elimination.conclude ⟨parallelReduced, [0]⟩ parallel = .ok (t', .error ⟨1⟩) :=
    ⟨parallel, by decide +kernel⟩
  obtain ⟨-, -, hok⟩ := reduceInteger_primitive htall hconclude
  obtain ⟨-, herror, -⟩ := reduceInteger_primitive hparallel hconclude'
  obtain ⟨-, hprimitive, -, hsolutions⟩ := hok _ rfl
  exact ⟨⟨htall, hconclude, hprimitive, hsolutions⟩, hparallel, t', hconclude', herror _ rfl⟩

end PuzzleKit.Linear

import PuzzleKit.Proofs.Linear.Echelon

/-!
# Systems without a solution

A system in reduced row echelon form is solved from its free unknowns, which are
those of the columns without a pivot. Whatever values they are given, each pivot
row then says what the unknown of its own column has to be, and it says nothing
about the unknowns of the other pivots. What is left are the rows below the
pivots. They have no coefficients, so each of them asks of its right hand side
to be zero and asks nothing of the unknowns. So there is a solution just if those
right hand sides are zero, and to look at them is to decide the system that the
elimination started from, which has the same solutions.
-/

namespace PuzzleKit.Linear

open Matrix

variable {m n : Nat} {t : Table Fraction m n} {pivots : List Nat} {x y : Fin (n - 1) → ℚ}

/-- The part of a row's left hand side that the free unknowns make up. -/
def freeSum (t : Table Fraction m n) (pivots : List Nat) (x : Fin (n - 1) → ℚ) (i : Fin m) : ℚ :=
  ∑ j with j.val ∉ pivots, coefficients t i j * x j

theorem freeSum_congr (h : ∀ j, j.val ∉ pivots → x j = y j) (i : Fin m) :
    freeSum t pivots x i = freeSum t pivots y i :=
  Finset.sum_congr rfl fun j hj => by rw [h j (Finset.mem_filter.mp hj).2]

namespace Echelon

theorem coefficients_pivot (h : Echelon t pivots (n - 1)) {k : Fin m} {j : Fin (n - 1)}
    (hj : pivots[k.val]? = some j.val) (i : Fin m) :
    coefficients t i j = if i = k then 1 else 0 := by
  rw [coefficients, h.unit i k ⟨j.val, Nat.lt_of_lt_pred j.isLt⟩ hj]
  split
  · exact Fraction.value_one
  · exact Fraction.value_zero

theorem coefficients_below (h : Echelon t pivots (n - 1)) {i : Fin m}
    (hi : pivots.length ≤ i.val) : coefficients t i = 0 := by
  funext j
  rw [coefficients, h.zero_below i hi ⟨j.val, Nat.lt_of_lt_pred j.isLt⟩ j.isLt]
  exact Fraction.value_zero

/-- Every pivot has a row, and no two rows have the same one. -/
theorem exists_row (h : Echelon t pivots (n - 1)) {p : Nat} (hp : p ∈ pivots) :
    ∃ k : Fin m, pivots[k.val]? = some p := by
  obtain ⟨k, hk⟩ := List.mem_iff_getElem?.mp hp
  obtain ⟨hlt, -⟩ := List.getElem?_eq_some_iff.mp hk
  exact ⟨⟨k, Nat.lt_of_lt_of_le hlt h.length_le⟩, hk⟩

theorem row_unique (h : Echelon t pivots (n - 1)) {k l : Fin m} {p : Nat}
    (hk : pivots[k.val]? = some p) (hl : pivots[l.val]? = some p) : k = l := by
  have hnodup : pivots.Nodup := h.increasing.imp Nat.ne_of_lt
  obtain ⟨hlt, -⟩ := List.getElem?_eq_some_iff.mp hk
  exact Fin.ext ((List.getElem?_inj hlt hnodup).mp (hk.trans hl.symm))

/-- The left hand side of a pivot row is the unknown of its pivot and a sum of
free unknowns. -/
theorem mulVec_pivot (h : Echelon t pivots (n - 1)) {k : Fin m} {j : Fin (n - 1)}
    (hj : pivots[k.val]? = some j.val) (x : Fin (n - 1) → ℚ) :
    (coefficients t *ᵥ x) k = x j + freeSum t pivots x k := by
  have hmem : j ∈ Finset.univ.filter fun j : Fin (n - 1) => j.val ∈ pivots :=
    Finset.mem_filter.mpr ⟨Finset.mem_univ j, List.mem_of_getElem? hj⟩
  have hpivots : ∑ i with i.val ∈ pivots, coefficients t k i * x i = x j := by
    rw [Finset.sum_eq_single_of_mem j hmem]
    · rw [h.coefficients_pivot hj, if_pos rfl, one_mul]
    · intro i hi hne
      obtain ⟨l, hl⟩ := h.exists_row (Finset.mem_filter.mp hi).2
      have hkl : k ≠ l := by
        rintro rfl
        exact hne (Fin.ext (Option.some.inj (hl.symm.trans hj)))
      rw [h.coefficients_pivot hl, if_neg hkl, zero_mul]
  calc (coefficients t *ᵥ x) k
      = ∑ i, coefficients t k i * x i := rfl
    _ = ∑ i with i.val ∈ pivots, coefficients t k i * x i + freeSum t pivots x k :=
        (Finset.sum_filter_add_sum_filter_not ..).symm
    _ = x j + freeSum t pivots x k := by rw [hpivots]

/-- The solutions of a system in reduced row echelon form. -/
theorem mem_solutions_iff (h : Echelon t pivots (n - 1)) :
    x ∈ solutions t ↔
      (∀ (k : Fin m) (j : Fin (n - 1)), pivots[k.val]? = some j.val →
        x j = rightSides t k - freeSum t pivots x k) ∧
      ∀ i : Fin m, pivots.length ≤ i.val → rightSides t i = 0 := by
  have hbelow : ∀ i : Fin m, pivots.length ≤ i.val → (coefficients t *ᵥ x) i = 0 := by
    intro i hi
    rw [mulVec, h.coefficients_below hi, zero_dotProduct]
  constructor
  · intro hx
    have hx : ∀ i, (coefficients t *ᵥ x) i = rightSides t i := congrFun hx
    refine ⟨fun k j hj => ?_, fun i hi => (hx i).symm.trans (hbelow i hi)⟩
    rw [eq_sub_iff_add_eq, ← h.mulVec_pivot hj, hx]
  · rintro ⟨hpivot, hzero⟩
    refine funext fun i => ?_
    rcases Nat.lt_or_ge i.val pivots.length with hi | hi
    · have hp : pivots[i.val]? = some pivots[i.val] := List.getElem?_eq_getElem hi
      have hlt : pivots[i.val] < n - 1 := h.lt_width _ (List.getElem_mem hi)
      rw [h.mulVec_pivot (j := ⟨_, hlt⟩) hp, hpivot i ⟨_, hlt⟩ hp, sub_add_cancel]
    · rw [hbelow i hi, hzero i hi]

/-- The free unknowns may have any values, if the right hand sides below the
pivots are zero. -/
theorem exists_solution (h : Echelon t pivots (n - 1))
    (hzero : ∀ i : Fin m, pivots.length ≤ i.val → rightSides t i = 0)
    (free : Fin (n - 1) → ℚ) :
    ∃ x ∈ solutions t, ∀ j, j.val ∉ pivots → x j = free j := by
  have hvalue : ∀ j : Fin (n - 1), ∃ v,
      (∀ k : Fin m, pivots[k.val]? = some j.val →
        v = rightSides t k - freeSum t pivots free k) ∧
      (j.val ∉ pivots → v = free j) := by
    intro j
    by_cases hj : j.val ∈ pivots
    · obtain ⟨k, hk⟩ := h.exists_row hj
      refine ⟨rightSides t k - freeSum t pivots free k, fun l hl => ?_, fun hnot => absurd hj hnot⟩
      rw [h.row_unique hk hl]
    · exact ⟨free j, fun k hk => absurd (List.mem_of_getElem? hk) hj, fun _ => rfl⟩
  choose x hpivot hfree using hvalue
  refine ⟨x, h.mem_solutions_iff.mpr ⟨fun k j hj => ?_, hzero⟩, hfree⟩
  rw [freeSum_congr hfree]
  exact hpivot j k hj

theorem solutions_nonempty_iff (h : Echelon t pivots (n - 1)) :
    (solutions t).Nonempty ↔ ∀ i : Fin m, pivots.length ≤ i.val → rightSides t i = 0 := by
  constructor
  · rintro ⟨x, hx⟩
    exact (h.mem_solutions_iff.mp hx).2
  · intro hzero
    obtain ⟨x, hx, -⟩ := h.exists_solution hzero 0
    exact ⟨x, hx⟩

end Echelon

/-! ## What is reported -/

theorem rightSides_eq_zero_iff (ht : Normalized t) (hn : n - 1 < n) (i : Fin m) :
    rightSides t i = 0 ↔ (t.cell i ⟨n - 1, hn⟩).isZero = true := by
  have hcell : (t.cell i ⟨n - 1, hn⟩).Normalized := ht i ⟨n - 1, hn⟩
  rw [rightSides, dif_pos hn, hcell.value_eq_zero_iff, hcell.isZero_iff]

namespace Elimination

variable {e : Elimination m n}

/-- The first row below the pivots that says that zero is something else. -/
structure FirstContradiction (e : Elimination m n) (i : Fin m) : Prop where
  below : e.pivotColumns.length ≤ i.val
  coefficients_eq : coefficients e.table i = 0
  rightSide_ne : rightSides e.table i ≠ 0
  first : ∀ k : Fin m, e.pivotColumns.length ≤ k.val → rightSides e.table k ≠ 0 → i ≤ k

theorem inconsistentRow?_eq_none (he : Normalized e.table) (h : e.inconsistentRow? = none)
    (i : Fin m) (hi : e.pivotColumns.length ≤ i.val) : rightSides e.table i = 0 := by
  unfold inconsistentRow? at h
  split at h
  · next hn =>
      have hnot := List.find?_eq_none.mp h i (List.mem_finRange i)
      rw [rightSides_eq_zero_iff he hn]
      simpa [hi] using hnot
  · next hn => exact dif_neg hn

theorem firstContradiction_of_inconsistentRow? (he : Normalized e.table)
    (hechelon : Echelon e.table e.pivotColumns (n - 1)) {i : Fin m}
    (h : e.inconsistentRow? = some i) : e.FirstContradiction i := by
  unfold inconsistentRow? at h
  split at h
  · next hn =>
      obtain ⟨hfound, position, hposition, hget, hbefore⟩ := List.find?_eq_some_iff_getElem.mp h
      have hposition : i.val = position := by rw [← hget, List.getElem_finRange]; rfl
      simp only [Bool.and_eq_true, decide_eq_true_eq, Bool.not_eq_true', ← Bool.not_eq_true,
        ← rightSides_eq_zero_iff he hn] at hfound
      refine ⟨hfound.1, hechelon.coefficients_below hfound.1, hfound.2, fun k hk hne => ?_⟩
      by_contra hlt
      have hskipped := hbefore k.val (by omega)
      rw [List.getElem_finRange] at hskipped
      refine hne ((rightSides_eq_zero_iff he hn k).mpr ?_)
      simpa [hk] using hskipped
  · cases h

/-- The outcome is an inconsistency just if a row is found. -/
theorem outcome_eq_error_iff {inconsistency : Inconsistency} :
    e.outcome = .error inconsistency ↔
      ∃ i : Fin m, e.inconsistentRow? = some i ∧ inconsistency.row = i.val := by
  unfold outcome
  split
  · next i hi =>
      rw [hi]
      constructor
      · intro h
        cases h
        exact ⟨i, rfl, rfl⟩
      · rintro ⟨_, ⟨⟩, hrow⟩
        cases inconsistency
        exact congrArg _ (congrArg _ hrow.symm)
  · next hi =>
      rw [hi]
      constructor
      · rintro ⟨⟩
      · rintro ⟨_, ⟨⟩, -⟩

end Elimination

/-- An elimination reports an inconsistency just if the system it started from
has no solution. The row it reports is the first one below the pivots with a
right hand side other than zero, and nothing but zero coefficients are left in
it. A table without columns never has one. -/
theorem reduce_inconsistent_iff {e : Elimination m n} (ht : Normalized t)
    (h : reduce t = .ok e) :
    ((∃ inconsistency, e.outcome = .error inconsistency) ↔ solutions t = ∅) ∧
      (∀ inconsistency, e.outcome = .error inconsistency →
        ∃ i : Fin m, inconsistency.row = i.val ∧ e.FirstContradiction i) ∧
      (n = 0 → ∃ r, e.outcome = .ok r) := by
  have hsound := reduce_sound ht h
  have hreported : ∀ inconsistency, e.outcome = .error inconsistency →
      ∃ i : Fin m, inconsistency.row = i.val ∧ e.FirstContradiction i := by
    intro inconsistency herror
    obtain ⟨i, hi, hrow⟩ := Elimination.outcome_eq_error_iff.mp herror
    exact ⟨i, hrow,
      Elimination.firstContradiction_of_inconsistentRow? hsound.normalized hsound.echelon hi⟩
  have hsolvable : (solutions t).Nonempty ↔
      ∀ i : Fin m, e.pivotColumns.length ≤ i.val → rightSides e.table i = 0 := by
    rw [← hsound.solutions_eq]
    exact hsound.echelon.solutions_nonempty_iff
  refine ⟨⟨?_, fun hempty => ?_⟩, hreported, ?_⟩
  · rintro ⟨inconsistency, herror⟩
    obtain ⟨i, -, hi⟩ := hreported inconsistency herror
    rw [← Set.not_nonempty_iff_eq_empty, hsolvable]
    exact fun hzero => hi.rightSide_ne (hzero i hi.below)
  · cases hrow : e.inconsistentRow? with
    | none =>
        have hnonempty :=
          hsolvable.mpr (Elimination.inconsistentRow?_eq_none hsound.normalized hrow)
        exact absurd hempty hnonempty.ne_empty
    | some i => exact ⟨⟨i.val⟩, Elimination.outcome_eq_error_iff.mpr ⟨i, hrow, rfl⟩⟩
  · rintro rfl
    exact ⟨_, rfl⟩

/-- Three equations with one left hand side up to a factor, of which the second
repeats the first and the third contradicts it. -/
def contradictory : Table Fraction 3 3 :=
  Table.mapCells (fun v => .ofWord ((Word.ofInt? .i64 v).getD 0))
    #v[#v[1, 2, 3], #v[2, 4, 6], #v[1, 2, 5]]

theorem reduce_inconsistent_iff_contradictory :
    Normalized contradictory ∧ solutions contradictory = ∅ ∧
      ∃ e, reduce contradictory = .ok e ∧ e.outcome = .error ⟨2⟩ ∧ e.FirstContradiction 2 := by
  have hnormalized : Normalized contradictory := by decide +kernel
  obtain ⟨e, hreduce, houtcome⟩ : ∃ e, reduce contradictory = .ok e ∧ e.outcome = .error ⟨2⟩ :=
    ⟨⟨Table.mapCells (fun v => .ofWord ((Word.ofInt? .i64 v).getD 0))
        #v[#v[1, 2, 3], #v[0, 0, 0], #v[0, 0, 2]], [0]⟩,
      by decide +kernel, by decide +kernel⟩
  obtain ⟨hiff, hreported, -⟩ := reduce_inconsistent_iff hnormalized hreduce
  obtain ⟨i, hrow, hi⟩ := hreported _ houtcome
  have hi2 : i = 2 := Fin.ext hrow.symm
  exact ⟨hnormalized, hiff.mp ⟨_, houtcome⟩, e, hreduce, houtcome, hi2 ▸ hi⟩

end PuzzleKit.Linear

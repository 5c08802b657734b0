import PuzzleKit.Proofs.Linear.System

/-!
# Reduced row echelon form

The loop goes through the columns, and what it has made of the table after
`width` of them is `Echelon`: the pivots found so far have their columns and
their rows as they will be in the end, and the rows below the pivots are zero
as far as the loop has come. A column without a pivot makes the rows below zero
one column further. A column with a pivot moves one of those rows up and clears
the column; since the rows that are exchanged are both zero before the column,
and clearing it does not touch what is before it, nothing that was finished
changes.

When the variable columns are through, this is the reduced row echelon form. It
says nothing about the right hand sides, so it holds whether the system has a
solution or not. Nor does it say which of the rows below gives the pivot of a
column, so the loop is looked at for any choice of these rows (`reduceBy`).
-/

namespace PuzzleKit.Linear

variable {m n width : Nat} {t t' : Table Fraction m n} {pivots : List Nat} {c : Fin n}

/-- The first `width` columns are in reduced row echelon form with these pivots:
row `i` has its pivot in column `pivots[i]`. -/
structure Echelon (t : Table Fraction m n) (pivots : List Nat) (width : Nat) : Prop where
  length_le : pivots.length ≤ m
  increasing : pivots.Pairwise (· < ·)
  lt_width : ∀ p ∈ pivots, p < width
  unit : ∀ (i k : Fin m) (j : Fin n), pivots[k.val]? = some j.val →
    t.cell i j = if i = k then 1 else 0
  zero_before : ∀ (i : Fin m) (p : Nat), pivots[i.val]? = some p →
    ∀ j : Fin n, j.val < p → t.cell i j = 0
  zero_below : ∀ i : Fin m, pivots.length ≤ i.val → ∀ j : Fin n, j.val < width → t.cell i j = 0

namespace Echelon

theorem start (t : Table Fraction m n) : Echelon t [] 0 where
  length_le := Nat.zero_le m
  increasing := .nil
  lt_width := fun _ hp => nomatch hp
  unit := fun _ _ _ hj => nomatch hj
  zero_before := fun _ _ hp => nomatch hp
  zero_below := fun _ _ _ hj => absurd hj (Nat.not_lt_zero _)

/-- A column in which the rows below the pivots are zero is passed over. -/
theorem skip (h : Echelon t pivots c.val)
    (hzero : ∀ i : Fin m, pivots.length ≤ i.val → t.cell i c = 0) :
    Echelon t pivots (c.val + 1) := by
  refine { h with
    lt_width := fun p hp => Nat.lt_succ_of_lt (h.lt_width p hp)
    zero_below := fun i hi j hj => ?_ }
  rcases Nat.lt_succ_iff_lt_or_eq.mp hj with hj | hj
  · exact h.zero_below i hi j hj
  · rw [Fin.ext hj]
    exact hzero i hi

/-- The columns before the next pivot do not see the exchange of rows below the
pivots. -/
theorem cell_swapRows (h : Echelon t pivots c.val) {p source : Fin m}
    (hp : pivots.length ≤ p.val) (hsource : pivots.length ≤ source.val) (i : Fin m) {j : Fin n}
    (hj : j.val < c.val) : (t.swapRows p source).cell i j = t.cell i j := by
  rw [Table.cell, get_swapRows]
  by_cases hip : i = p
  · rw [hip, Equiv.swap_apply_left]
    exact (h.zero_below source hsource j hj).trans (h.zero_below p hp j hj).symm
  by_cases hisource : i = source
  · rw [hisource, Equiv.swap_apply_right]
    exact (h.zero_below p hp j hj).trans (h.zero_below source hsource j hj).symm
  · rw [Equiv.swap_apply_of_ne_of_ne hip hisource]
    rfl

theorem getElem?_concat_cases {k p q : Nat} (h : (pivots ++ [p])[k]? = some q) :
    pivots[k]? = some q ∨ k = pivots.length ∧ q = p := by
  rcases Nat.lt_or_ge k pivots.length with hk | hk
  · rw [List.getElem?_append_left hk] at h
    exact .inl h
  · rw [List.getElem?_append_right hk, List.getElem?_singleton] at h
    split at h
    · next hzero =>
        cases h
        exact .inr ⟨by omega, rfl⟩
    · cases h

/-- A row from below the pivots is made the row of the next one. -/
theorem pivot (h : Echelon t pivots c.val) {p source : Fin m} (hp : p.val = pivots.length)
    (hsource : pivots.length ≤ source.val) (hcleared : Cleared (t.swapRows p source) t' p c) :
    Echelon t' (pivots ++ [c.val]) (c.val + 1) := by
  have hcell : ∀ i {j : Fin n}, j.val < c.val → t'.cell i j = t.cell i j := fun i j hj =>
    (hcleared.cell_of_lt i hj).trans (h.cell_swapRows (Nat.le_of_eq hp.symm) hsource i hj)
  have hlength : (pivots ++ [c.val]).length = p.val + 1 := by simp [hp]
  -- In each case it is either about a pivot there was before, in a column that
  -- is as it was, or about the new one.
  exact {
    length_le := hlength ▸ p.isLt
    increasing := by
      refine List.pairwise_append.mpr ⟨h.increasing, List.pairwise_singleton .., ?_⟩
      intro q hq q' hq'
      rw [List.mem_singleton.mp hq']
      exact h.lt_width q hq
    lt_width := by
      intro q hq
      rcases List.mem_append.mp hq with hq | hq
      · exact Nat.lt_succ_of_lt (h.lt_width q hq)
      · rw [List.mem_singleton.mp hq]
        exact Nat.lt_succ_self _
    unit := by
      intro i k j hj
      rcases getElem?_concat_cases hj with hj | ⟨hk, hj⟩
      · rw [hcell i (h.lt_width _ (List.mem_of_getElem? hj))]
        exact h.unit i k j hj
      · rw [Fin.ext hj, Fin.ext (hk.trans hp.symm)]
        exact hcleared.cell_column i
    zero_before := by
      intro i q hq j hj
      rcases getElem?_concat_cases hq with hq | ⟨hi, hq⟩
      · rw [hcell i (Nat.lt_trans hj (h.lt_width q (List.mem_of_getElem? hq)))]
        exact h.zero_before i q hq j hj
      · rw [hq] at hj
        rw [hcell i hj]
        exact h.zero_below i (Nat.le_of_eq hi.symm) j hj
    zero_below := by
      intro i hi j hj
      rw [hlength] at hi
      rcases Nat.lt_succ_iff_lt_or_eq.mp hj with hj | hj
      · rw [hcell i hj]
        exact h.zero_below i (by omega) j hj
      · have hip : i ≠ p := fun hip => by rw [hip] at hi; omega
        rw [Fin.ext hj, hcleared.cell_column i, if_neg hip] }

end Echelon

/-! ## One column -/

/-- The row that gives the pivot of a column is one from `firstRow` on that is not
zero in the column, and there is none only if they are all zero. -/
structure ChoosesPivots (source? : Table Fraction m n → Nat → Fin n → Option (Fin m)) : Prop where
  eq_none : ∀ {t firstRow c}, source? t firstRow c = none →
    ∀ i : Fin m, firstRow ≤ i.val → (t.cell i c).isZero = true
  eq_some : ∀ {t firstRow c source}, source? t firstRow c = some source →
    firstRow ≤ source.val ∧ ¬(t.cell source c).isZero = true

theorem choosesPivots_pivotSource? : ChoosesPivots (pivotSource? (m := m) (n := n)) where
  eq_none {t firstRow c} h i hi := by
    obtain ⟨-, hhead⟩ := Option.or_eq_none_iff.mp h
    have hempty := List.filter_eq_nil_iff.mp (List.head?_eq_none_iff.mp hhead) i
      (List.mem_finRange i)
    simpa [hi] using hempty
  eq_some {t firstRow c source} h := by
    have hmem : source ∈ (List.finRange m).filter fun i : Fin m =>
        firstRow ≤ i.val && !(t.cell i c).isZero := by
      rcases Option.or_eq_some_iff.mp h with hfind | ⟨-, hhead⟩
      · exact List.mem_of_find?_eq_some hfind
      · exact List.mem_of_mem_head? hhead
    simpa using (List.mem_filter.mp hmem).2

namespace Elimination

variable {e e' : Elimination m n}
  {source? : Table Fraction m n → Nat → Fin n → Option (Fin m)}

/-- A column is passed over because the rows below the pivots are zero in it, or
there are none, or one of these rows gives the next pivot. -/
theorem stepBy_cases (hsource : ChoosesPivots source?) (h : e.stepBy source? c = .ok e') :
    (e' = e ∧ ∀ i : Fin m, e.pivotColumns.length ≤ i.val → (e.table.cell i c).isZero = true) ∨
      ∃ p source : Fin m, p.val = e.pivotColumns.length ∧
        e.pivotColumns.length ≤ source.val ∧ ¬(e.table.cell source c).isZero = true ∧
        clearColumn (e.table.swapRows p source) p c = .ok e'.table ∧
        e'.pivotColumns = e.pivotColumns ++ [c.val] := by
  unfold stepBy at h
  split at h
  · next hrows =>
      split at h
      · next hnone =>
          cases h
          exact .inl ⟨rfl, hsource.eq_none hnone⟩
      · next source hsome =>
          obtain ⟨cleared, hcleared, h⟩ := bind_eq_ok_iff.mp h
          cases h
          obtain ⟨hle, hne⟩ := hsource.eq_some hsome
          exact .inr ⟨⟨_, hrows⟩, source, rfl, hle, hne, hcleared, rfl⟩
  · next hrows =>
      -- Every row has a pivot, so there is nothing below.
      cases h
      exact .inl ⟨rfl, fun i hi => absurd (Nat.lt_of_le_of_lt hi i.isLt) hrows⟩

/-- What an elimination that started from `t` keeps, after `width` columns. -/
structure Sound (t : Table Fraction m n) (width : Nat) (e : Elimination m n) : Prop where
  normalized : Normalized e.table
  echelon : Echelon e.table e.pivotColumns width
  solutions_eq : solutions e.table = solutions t

theorem Sound.start (ht : Normalized t) : Sound t 0 ⟨t, []⟩ := ⟨ht, .start t, rfl⟩

theorem Sound.stepBy (hchoice : ChoosesPivots source?) (h : Sound t c.val e)
    (hstep : e.stepBy source? c = .ok e') : Sound t (c.val + 1) e' := by
  rcases stepBy_cases hchoice hstep with
    ⟨rfl, hzero⟩ | ⟨p, source, hp, hsource, hne, hclear, hpivots⟩
  · refine ⟨h.normalized, h.echelon.skip fun i hi => ?_, h.solutions_eq⟩
    exact (h.normalized i c).isZero_iff.mp (hzero i hi)
  · have hcell : ∀ j, (e.table.swapRows p source).cell p j = e.table.cell source j := by
      intro j
      rw [Table.cell, get_swapRows, Equiv.swap_apply_left]
      rfl
    have hcleared := clearColumn_spec (normalized_swapRows h.normalized p source)
      (hcell c ▸ fun hzero => hne ((h.normalized source c).isZero_iff.mpr hzero))
      (fun j hj => (hcell j).trans (h.echelon.zero_below source hsource j hj)) hclear
    refine ⟨hcleared.normalized, hpivots ▸ h.echelon.pivot hp hsource hcleared, ?_⟩
    rw [hcleared.solutions_eq, solutions_swapRows, h.solutions_eq]

end Elimination

/-! ## All columns -/

theorem map_val_variableColumns (n : Nat) :
    (variableColumns n).map Fin.val = List.range' 0 (variableColumns n).length := by
  rw [variableColumns, List.length_map, List.length_finRange, List.map_map,
    ← List.range_eq_range']
  exact List.map_coe_finRange_eq_range

theorem reduceBy_sound {source? : Table Fraction m n → Nat → Fin n → Option (Fin m)}
    (hsource : ChoosesPivots source?) (ht : Normalized t) {e : Elimination m n}
    (h : reduceBy source? t = .ok e) : e.Sound t (n - 1) := by
  have hsound := foldlM_preserves (P := Elimination.Sound t)
    (fun _ _ _ => Elimination.Sound.stepBy hsource) (map_val_variableColumns n)
    (Elimination.Sound.start ht) h
  rwa [Nat.zero_add, variableColumns, List.length_map, List.length_finRange] at hsound

theorem reduce_sound (ht : Normalized t) {e : Elimination m n} (h : reduce t = .ok e) :
    e.Sound t (n - 1) :=
  reduceBy_sound choosesPivots_pivotSource? ht h

theorem Elimination.outcome_eq_ok {e : Elimination m n} {r : Reduction}
    (h : e.outcome = .ok r) : e.inconsistentRow? = none ∧ r = ⟨e.pivotColumns, n - 1⟩ := by
  unfold outcome at h
  split at h
  · cases h
  · next hrow =>
      cases h
      exact ⟨hrow, rfl⟩

theorem Elimination.pivotColumns_of_outcome {e : Elimination m n} {r : Reduction}
    (h : e.outcome = .ok r) : r.pivotColumns = e.pivotColumns := by
  rw [(outcome_eq_ok h).2]

/-- The elimination of a table of normalized fractions ends with the same
solutions and with the coefficients in reduced row echelon form, also where it
finds that there is no solution. The pivots it reports otherwise are those of
that form. -/
theorem reduce_solutions_echelon {t : Table Fraction m n} {e : Elimination m n}
    (ht : Normalized t) (h : reduce t = .ok e) :
    solutions e.table = solutions t ∧ Echelon e.table e.pivotColumns (n - 1) ∧
      ∀ r, e.outcome = .ok r → r.pivotColumns = e.pivotColumns :=
  have hsound := reduce_sound ht h
  ⟨hsound.solutions_eq, hsound.echelon, fun _ => Elimination.pivotColumns_of_outcome⟩

/-- Three equations, one of them the difference of the others, in which the
first unknown does not occur and the second not in the first equation. -/
def skewed : Table Fraction 3 4 :=
  Table.mapCells (fun v => .ofWord ((Word.ofInt? .i64 v).getD 0))
    #v[#v[0, 0, 2, 2], #v[0, 3, 1, 4], #v[0, 3, 3, 6]]

def skewedReduced : Table Fraction 3 4 :=
  #v[#v[0, 1, 0, 1], #v[0, 0, 1, 1], #v[0, 0, 0, 0]]

theorem reduce_solutions_echelon_skewed :
    Normalized skewed ∧ reduce skewed = .ok ⟨skewedReduced, [1, 2]⟩ ∧
      solutions skewedReduced = solutions skewed ∧ Echelon skewedReduced [1, 2] 3 := by
  have hnormalized : Normalized skewed := by decide +kernel
  have hreduce : reduce skewed = .ok ⟨skewedReduced, [1, 2]⟩ := by decide +kernel
  obtain ⟨hsolutions, hechelon, -⟩ := reduce_solutions_echelon hnormalized hreduce
  exact ⟨hnormalized, hreduce, hsolutions, hechelon⟩

end PuzzleKit.Linear

import PuzzleKit.Proofs.Linear.Echelon

/-!
# A reduced table is left alone

An elimination that meets a table in reduced row echelon form goes through all of
its columns again and finds the pivots that are there. In the column of a pivot
only one cell is not zero from the next pivot row down, whichever row is
preferred, and that is the cell of the pivot row itself: the row is exchanged with
itself and divided by one, and the other rows have nothing to be cleared of. In a
column without a pivot there is no such cell. The rows of the pivots to come are
zero before their pivots, and the rows below all pivots are zero in every variable
column.

So nothing is computed in which a fraction could overflow, and nothing is said of
the right hand sides, which stay as they are whether the system has a solution or
not. That makes the elimination idempotent, since what it ends with is in that form
either way.
-/

namespace PuzzleKit

theorem Fraction.div_one_eq_ok {a : Fraction} (ha : a.Normalized) : a.div 1 = .ok a := by
  rw [div_eq ha .one (by decide), value_one, div_one]
  exact ofRat_eq_ok_iff.mpr ⟨ha, rfl⟩

namespace Linear

variable {m n : Nat} {t : Table Fraction m n} {row : Vector Fraction n} {pivots : List Nat}
  {p : Fin m} {c : Fin n} {source? : Table Fraction m n → Nat → Fin n → Option (Fin m)}

theorem swapRows_self (t : Table Fraction m n) (p : Fin m) : t.swapRows p p = t := by
  refine Vector.ext fun i hi => ?_
  have hrow := get_swapRows t p p ⟨i, hi⟩
  rwa [Equiv.swap_self] at hrow

theorem scaleRow_of_one (hrow : NormalizedRow row) (hone : row.get c = 1) :
    scaleRow row c = .ok row := by
  refine ofFnM_eq_ok fun j => ?_
  split
  · rfl
  · rw [hone, Fraction.div_one_eq_ok (hrow j)]

theorem clearColumn_of_unit (ht : Normalized t)
    (hcolumn : ∀ i, t.cell i c = if i = p then 1 else 0) : clearColumn t p c = .ok t := by
  have hone : (t.get p).get c = 1 := (hcolumn p).trans (if_pos rfl)
  refine bind_eq_ok_iff.mpr ⟨t.get p, scaleRow_of_one (ht p) hone, ofFnM_eq_ok fun i => ?_⟩
  by_cases hi : i = p
  · rw [if_pos hi, hi]
    rfl
  · have hzero : (t.cell i c).isZero = true := by
      rw [hcolumn i, if_neg hi]
      rfl
    rw [if_neg hi, if_pos hzero]
    rfl

namespace Elimination

variable {e : Elimination m n}

theorem stepBy_of_unit {done : List Nat} (hsource : ChoosesPivots source?) (ht : Normalized t)
    (hrow : done.length < m)
    (hcolumn : ∀ i, t.cell i c = if i = ⟨done.length, hrow⟩ then 1 else 0) :
    stepBy source? ⟨t, done⟩ c = .ok ⟨t, done ++ [c.val]⟩ := by
  rw [stepBy, dif_pos hrow]
  split
  · next hnone =>
      have hzero := hsource.eq_none hnone ⟨done.length, hrow⟩ (Nat.le_refl _)
      rw [hcolumn, if_pos rfl] at hzero
      cases hzero
  · next source hsome =>
      have hpivot : source = ⟨done.length, hrow⟩ := by
        by_contra hne
        refine (hsource.eq_some hsome).2 ?_
        rw [hcolumn, if_neg hne]
        rfl
      subst hpivot
      simp only [swapRows_self]
      exact bind_eq_ok_iff.mpr ⟨t, clearColumn_of_unit ht hcolumn, rfl⟩

theorem stepBy_of_zero (hsource : ChoosesPivots source?)
    (hzero : ∀ i : Fin m, e.pivotColumns.length ≤ i.val → e.table.cell i c = 0) :
    e.stepBy source? c = .ok e := by
  rw [stepBy]
  split
  · split
    · rfl
    · next source hsome =>
        obtain ⟨hle, hne⟩ := hsource.eq_some hsome
        rw [hzero source hle] at hne
        exact absurd rfl hne
  · rfl

/-- An elimination that goes over a reduced table: the table is as it was, and the
pivots that are not found yet are those from column `width` on. -/
structure Retraces (t : Table Fraction m n) (pivots : List Nat) (width : Nat)
    (e : Elimination m n) : Prop where
  table_eq : e.table = t
  remaining : ∃ rest, pivots = e.pivotColumns ++ rest ∧ ∀ p ∈ rest, width ≤ p

theorem Retraces.start (t : Table Fraction m n) (pivots : List Nat) : Retraces t pivots 0 ⟨t, []⟩ :=
  ⟨rfl, pivots, rfl, fun p _ => Nat.zero_le p⟩

/-- The next of the remaining pivots is in the column, and then it is the first of
them, or none of them is. -/
theorem Retraces.column_cases (h : Retraces t pivots c.val e)
    (hincreasing : pivots.Pairwise (· < ·)) :
    (∃ rest, pivots = e.pivotColumns ++ c.val :: rest ∧ ∀ p ∈ rest, c.val + 1 ≤ p) ∨
      ∃ rest, pivots = e.pivotColumns ++ rest ∧ ∀ p ∈ rest, c.val + 1 ≤ p := by
  obtain ⟨rest, hpivots, hrest⟩ := h.remaining
  cases rest with
  | nil => exact .inr ⟨[], hpivots, fun p hp => absurd hp List.not_mem_nil⟩
  | cons q rest =>
      have hlater : ∀ p ∈ rest, q + 1 ≤ p := by
        rw [hpivots] at hincreasing
        exact (List.pairwise_cons.mp (List.pairwise_append.mp hincreasing).2.1).1
      rcases Nat.eq_or_lt_of_le (hrest q List.mem_cons_self) with rfl | hlt
      · exact .inl ⟨rest, hpivots, hlater⟩
      · refine .inr ⟨q :: rest, hpivots, fun p hp => ?_⟩
        rcases List.mem_cons.mp hp with rfl | hp
        · exact hlt
        · have := hlater p hp
          omega

theorem cell_eq_zero_of_remaining {done rest : List Nat}
    (hechelon : Echelon t (done ++ rest) (n - 1)) (hc : c.val < n - 1)
    (hrest : ∀ p ∈ rest, c.val + 1 ≤ p) {i : Fin m} (hi : done.length ≤ i.val) :
    t.cell i c = 0 := by
  -- The row is that of a pivot further to the right, or below all of them.
  rcases Nat.lt_or_ge i.val (done ++ rest).length with hlt | hge
  · have hp := List.getElem?_eq_getElem hlt
    have hmem : (done ++ rest)[i.val] ∈ rest := by
      rw [List.getElem_append_right hi]
      exact List.getElem_mem _
    exact hechelon.zero_before i _ hp c (hrest _ hmem)
  · exact hechelon.zero_below i hge c hc

theorem Retraces.stepBy (hsource : ChoosesPivots source?) (ht : Normalized t)
    (hechelon : Echelon t pivots (n - 1)) (hc : c.val < n - 1) (h : Retraces t pivots c.val e) :
    ∃ e', e.stepBy source? c = .ok e' ∧ Retraces t pivots (c.val + 1) e' := by
  obtain ⟨table, done⟩ := e
  have htable : table = t := h.table_eq
  subst htable
  rcases h.column_cases hechelon.increasing with ⟨rest, rfl, hrest⟩ | ⟨rest, rfl, hrest⟩
  · have hrow : done.length < m := by
      have hle := hechelon.length_le
      rw [List.length_append, List.length_cons] at hle
      exact Nat.lt_of_lt_of_le (Nat.lt_add_of_pos_right (Nat.succ_pos _)) hle
    have hcolumn : ∀ i, table.cell i c = if i = ⟨done.length, hrow⟩ then 1 else 0 := fun i =>
      hechelon.unit i ⟨done.length, hrow⟩ c (by simp)
    exact ⟨⟨table, done ++ [c.val]⟩, stepBy_of_unit hsource ht hrow hcolumn, rfl, rest, by simp,
      hrest⟩
  · have hzero : ∀ i : Fin m, done.length ≤ i.val → table.cell i c = 0 := fun i hi =>
      cell_eq_zero_of_remaining hechelon hc hrest hi
    exact ⟨⟨table, done⟩, stepBy_of_zero hsource hzero, rfl, rest, rfl, hrest⟩

end Elimination

/-- The elimination of a table in reduced row echelon form ends with that table and
its pivots, whichever rows are preferred. -/
theorem Echelon.reduceBy_eq (hsource : ChoosesPivots source?) (ht : Normalized t)
    (h : Echelon t pivots (n - 1)) : reduceBy source? t = .ok ⟨t, pivots⟩ := by
  have hstep : ∀ e, ∀ c ∈ variableColumns n, Elimination.Retraces t pivots c.val e →
      ∃ e', e.stepBy source? c = .ok e' ∧ Elimination.Retraces t pivots (c.val + 1) e' := by
    intro e c hc he
    refine he.stepBy hsource ht h ?_
    obtain ⟨j, -, rfl⟩ := List.mem_map.mp hc
    exact j.isLt
  obtain ⟨e, he, htable, rest, hpivots, hrest⟩ :=
    exists_foldlM_eq_ok hstep (map_val_variableColumns n) (.start t pivots)
  rw [Nat.zero_add, variableColumns, List.length_map, List.length_finRange] at hrest
  -- All columns are through, so no pivot remains.
  cases rest with
  | nil =>
      rw [List.append_nil] at hpivots
      cases e
      cases htable
      cases hpivots
      exact he
  | cons p rest =>
      have hlt := h.lt_width p (hpivots ▸ List.mem_append_right _ List.mem_cons_self)
      have := hrest p List.mem_cons_self
      omega

/-- The elimination is idempotent: the table that it ends with is reduced without a
fault to the same table with the same pivots, hence with the same outcome, be it a
reduction or an inconsistent row. -/
theorem reduce_idempotent {e : Elimination m n} (ht : Normalized t) (h : reduce t = .ok e) :
    reduce e.table = .ok e := by
  have hsound := reduce_sound ht h
  exact hsound.echelon.reduceBy_eq choosesPivots_pivotSource? hsound.normalized

/-- An unknown that does not occur, one that is free, and two equations that
contradict each other below one that says nothing. -/
def clashing : Table Fraction 3 4 :=
  Table.mapCells (fun v => .ofWord ((Word.ofInt? .i64 v).getD 0))
    #v[#v[0, 0, 0, 0], #v[0, 2, 1, 1], #v[0, 4, 2, 5]]

def clashingReduced : Table Fraction 3 4 :=
  Table.mapCells
    (fun (a, b) => ⟨(Word.ofInt? .i64 a).getD 0, (Word.ofInt? .i64 b).getD 1⟩)
    #v[#v[(0, 1), (1, 1), (1, 2), (1, 2)], #v[(0, 1), (0, 1), (0, 1), (0, 1)],
      #v[(0, 1), (0, 1), (0, 1), (3, 1)]]

theorem reduce_idempotent_clashing :
    Normalized clashing ∧ reduce clashing = .ok ⟨clashingReduced, [1]⟩ ∧
      (⟨clashingReduced, [1]⟩ : Elimination 3 4).outcome = .error ⟨2⟩ ∧
      reduce clashingReduced = .ok ⟨clashingReduced, [1]⟩ := by
  have hnormalized : Normalized clashing := by decide +kernel
  have hreduce : reduce clashing = .ok ⟨clashingReduced, [1]⟩ := by decide +kernel
  have houtcome : (⟨clashingReduced, [1]⟩ : Elimination 3 4).outcome = .error ⟨2⟩ := by
    decide +kernel
  have hagain := reduce_idempotent hnormalized hreduce
  exact ⟨hnormalized, hreduce, houtcome, hagain⟩

end Linear

end PuzzleKit

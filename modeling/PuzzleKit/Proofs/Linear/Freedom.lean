import Mathlib.Data.List.Sort
import PuzzleKit.Proofs.Linear.Consistency
import PuzzleKit.Proofs.Table

/-!
# The free unknowns

What is left to choose in a system with a solution are the values of the unknowns
without a pivot. Any values will do, and they determine the rest, since a pivot row
gives its unknown as a function of the free ones. So the system has one solution
just if no unknown is free, which is to say that the pivots are all the columns in
their order. Then row `i` is about unknown `i` alone and its right hand side is the
value, and that is why the solution may be read off the last column.
-/

namespace PuzzleKit.Linear

variable {m n : Nat} {t : Table Fraction m n} {pivots : List Nat} {x y : Fin (n - 1) → ℚ}

namespace Echelon

theorem eq_of_free_eq (h : Echelon t pivots (n - 1)) (hx : x ∈ solutions t)
    (hy : y ∈ solutions t) (hfree : ∀ j, j.val ∉ pivots → x j = y j) : x = y := by
  funext j
  by_cases hj : j.val ∈ pivots
  · obtain ⟨k, hk⟩ := h.exists_row hj
    rw [(h.mem_solutions_iff.mp hx).1 k j hk, (h.mem_solutions_iff.mp hy).1 k j hk,
      freeSum_congr hfree]
  · exact hfree j hj

/-- Any values of the free unknowns belong to exactly one solution. -/
theorem existsUnique_solution (h : Echelon t pivots (n - 1))
    (hzero : ∀ i : Fin m, pivots.length ≤ i.val → rightSides t i = 0) (free : Fin (n - 1) → ℚ) :
    ∃! x, x ∈ solutions t ∧ ∀ j, j.val ∉ pivots → x j = free j := by
  obtain ⟨x, hx, hfree⟩ := h.exists_solution hzero free
  refine ⟨x, ⟨hx, hfree⟩, ?_⟩
  intro y hy
  exact h.eq_of_free_eq hy.1 hx fun j hj => (hy.2 j hj).trans (hfree j hj).symm

theorem eq_range_of_forall_mem (h : Echelon t pivots (n - 1))
    (hall : ∀ j : Fin (n - 1), j.val ∈ pivots) : pivots = List.range (n - 1) := by
  refine h.increasing.eq_of_mem_iff List.pairwise_lt_range fun p => ?_
  rw [List.mem_range]
  exact ⟨h.lt_width p, fun hp => hall ⟨p, hp⟩⟩

/-- As many pivots as unknowns are all the columns. -/
theorem eq_range_of_length_eq (h : Echelon t pivots (n - 1)) (hlength : pivots.length = n - 1) :
    pivots = List.range (n - 1) := by
  have hnodup : pivots.Nodup := h.increasing.imp Nat.ne_of_lt
  have hsubset : pivots ⊆ List.range (n - 1) := fun p hp => List.mem_range.mpr (h.lt_width p hp)
  have hperm : pivots.Perm (List.range (n - 1)) :=
    (List.subperm_of_subset hnodup hsubset).perm_of_length_le (by simp [hlength])
  exact h.increasing.eq_of_mem_iff List.pairwise_lt_range fun p => hperm.mem_iff

theorem length_eq_iff_existsUnique (h : Echelon t pivots (n - 1))
    (hzero : ∀ i : Fin m, pivots.length ≤ i.val → rightSides t i = 0) :
    pivots.length = n - 1 ↔ ∃! x, x ∈ solutions t := by
  constructor
  · intro hlength
    obtain ⟨x, hx, -⟩ := h.exists_solution hzero 0
    refine ⟨x, hx, fun y hy => h.eq_of_free_eq hy hx fun j hj => ?_⟩
    rw [h.eq_range_of_length_eq hlength] at hj
    exact absurd (List.mem_range.mpr j.isLt) hj
  · intro hunique
    -- A free unknown could be zero and could be one.
    have hall : ∀ j : Fin (n - 1), j.val ∈ pivots := by
      intro j
      by_contra hj
      obtain ⟨x, hx, hxfree⟩ := h.exists_solution hzero 0
      obtain ⟨y, hy, hyfree⟩ := h.exists_solution hzero 1
      have heq := congrFun (hunique.unique hx hy) j
      rw [hxfree j hj, hyfree j hj] at heq
      exact zero_ne_one heq
    rw [h.eq_range_of_forall_mem hall, List.length_range]

/-- Without free unknowns, the right hand sides are the solution. -/
theorem eq_rightSides (h : Echelon t (List.range (n - 1)) (n - 1)) (hx : x ∈ solutions t)
    {k : Fin m} {j : Fin (n - 1)} (hk : k.val = j.val) : x j = rightSides t k := by
  have hpivot : (List.range (n - 1))[k.val]? = some j.val := by simp [hk]
  have hsum : freeSum t (List.range (n - 1)) x k = 0 :=
    Finset.sum_eq_zero fun i hi =>
      absurd (List.mem_range.mpr i.isLt) (Finset.mem_filter.mp hi).2
  rw [(h.mem_solutions_iff.mp hx).1 k j hpivot, hsum, sub_zero]

end Echelon

/-! ## What is reported -/

variable {e : Elimination m n} {r : Reduction}

theorem Reduction.mem_freeColumns_iff {j : Nat} :
    j ∈ r.freeColumns ↔ j < r.unknowns ∧ j ∉ r.pivotColumns := by
  simp [freeColumns]

/-- The columns without a pivot are listed from the left. -/
theorem Reduction.freeColumns_increasing (r : Reduction) : r.freeColumns.Pairwise (· < ·) :=
  List.pairwise_lt_range.filter _

theorem uniqueSolution?_eq_some (h : Echelon t pivots (n - 1)) (hlength : pivots.length = n - 1)
    (hx : x ∈ solutions t) :
    ∃ values, uniqueSolution? t ⟨pivots, n - 1⟩ = some values ∧
      values.map Fraction.value = List.ofFn x := by
  have hpivots := h.eq_range_of_length_eq hlength
  have hle := h.length_le
  have hcell : ∀ row ∈ List.range (n - 1),
      t.cell? row (n - 1) = some ((t.cell? row (n - 1)).getD 0) := by
    intro row hrow
    have hrow := List.mem_range.mp hrow
    rw [t.cell?_eq_some ⟨row, by omega⟩ ⟨n - 1, by omega⟩]
    rfl
  refine ⟨_, (if_pos (decide_eq_true hlength)).trans (mapM_eq_pure hcell), ?_⟩
  refine List.ext_getElem (by simp) fun row hrow _ => ?_
  have hrow : row < n - 1 := by simpa using hrow
  have hvalue := (hpivots ▸ h).eq_rightSides hx (k := ⟨row, by omega⟩) (j := ⟨row, hrow⟩) rfl
  rw [rightSides, dif_pos (by omega)] at hvalue
  simp [hvalue, t.cell?_eq_some ⟨row, by omega⟩ ⟨n - 1, by omega⟩]

/-- The free columns of a reduction without an inconsistency are those without a
pivot. Every choice of values for them belongs to exactly one solution of the system
that was reduced. So the reduction is unique just if that system has one solution,
and then and only then the solution is read off the reduced table, in which all the
cells that are looked at lie. -/
theorem free_unknowns_determine (ht : Normalized t) (h : reduce t = .ok e)
    (hr : e.outcome = .ok r) :
    (r.unknowns = n - 1 ∧ r.freeColumns.Pairwise (· < ·) ∧
      ∀ j, j ∈ r.freeColumns ↔ j < r.unknowns ∧ j ∉ r.pivotColumns) ∧
    (∀ free : Fin (n - 1) → ℚ,
      ∃! x, x ∈ solutions t ∧ ∀ j, j.val ∈ r.freeColumns → x j = free j) ∧
    (r.isUnique = true ↔ ∃! x, x ∈ solutions t) ∧
    ((∃ values, uniqueSolution? e.table r = some values) ↔ ∃! x, x ∈ solutions t) ∧
    (∀ values, uniqueSolution? e.table r = some values →
      ∀ x ∈ solutions t, values.map Fraction.value = List.ofFn x) ∧
    (r.isUnique = true → ∀ row < r.unknowns, row < m ∧ r.unknowns < n) := by
  obtain ⟨hnormalized, hechelon, hsolutions⟩ := reduce_sound ht h
  obtain ⟨hrow, rfl⟩ := Elimination.outcome_eq_ok hr
  have hzero := Elimination.inconsistentRow?_eq_none hnormalized hrow
  have hlength := hechelon.length_eq_iff_existsUnique hzero
  have hunique : Reduction.isUnique ⟨e.pivotColumns, n - 1⟩ = true ↔
      ∃! x, x ∈ solutions e.table := by
    rw [← hlength, Reduction.isUnique, decide_eq_true_iff]
  have hread : ∀ values, uniqueSolution? e.table ⟨e.pivotColumns, n - 1⟩ = some values →
      e.pivotColumns.length = n - 1 := by
    intro values hvalues
    by_contra hne
    rw [uniqueSolution?, if_neg (by simpa [Reduction.isUnique] using hne)] at hvalues
    cases hvalues
  rw [← hsolutions]
  refine ⟨⟨rfl, Reduction.freeColumns_increasing _, fun j => Reduction.mem_freeColumns_iff⟩,
    fun free => ?_, hunique, ⟨fun hsome => ?_, fun hone => ?_⟩, fun values hvalues x hx => ?_,
    fun hone row hrow => ?_⟩
  · simpa [Reduction.mem_freeColumns_iff] using hechelon.existsUnique_solution hzero free
  · obtain ⟨values, hvalues⟩ := hsome
    exact hlength.mp (hread values hvalues)
  · obtain ⟨values, hvalues, -⟩ :=
      uniqueSolution?_eq_some hechelon (hlength.mpr hone) hone.choose_spec.1
    exact ⟨values, hvalues⟩
  · obtain ⟨values', hvalues', hvalue⟩ :=
      uniqueSolution?_eq_some hechelon (hread values hvalues) hx
    rw [hvalues] at hvalues'
    cases hvalues'
    exact hvalue
  · have hle := hechelon.length_le
    have hall := hlength.mpr (hunique.mp hone)
    dsimp only at hrow ⊢
    omega

/-- A table of the words of some integers. -/
def integers (t : Table Int m n) : Table (Word .i64) m n :=
  t.mapCells fun v => (Word.ofInt? .i64 v).getD 0

/-- Three equations in two unknowns, of which the third is the sum of the others. -/
def tallIntegers : Table (Word .i64) 3 3 := integers #v[#v[2, 4, 3], #v[3, 3, 3], #v[5, 7, 6]]

def tall : Table Fraction 3 3 := tallIntegers.mapCells Fraction.ofWord

def half : Fraction := ⟨1, ⟨2, by decide, by decide⟩⟩

def tallReduced : Table Fraction 3 3 := #v[#v[1, 0, half], #v[0, 1, half], #v[0, 0, 0]]

/-- The first unknown of `skewed` is free, and `tall` has one solution. -/
theorem free_unknowns_determine_tall :
    (Normalized skewed ∧ reduce skewed = .ok ⟨skewedReduced, [1, 2]⟩ ∧
      Elimination.outcome ⟨skewedReduced, [1, 2]⟩ = .ok ⟨[1, 2], 3⟩ ∧
      Reduction.freeColumns ⟨[1, 2], 3⟩ = [0] ∧
      (∀ v : ℚ, ∃! x, x ∈ solutions skewed ∧ ∀ j : Fin 3, j.val ∈ [0] → x j = v) ∧
      ¬∃! x, x ∈ solutions skewed) ∧
    Normalized tall ∧ reduce tall = .ok ⟨tallReduced, [0, 1]⟩ ∧
      Elimination.outcome ⟨tallReduced, [0, 1]⟩ = .ok ⟨[0, 1], 2⟩ ∧
      uniqueSolution? tallReduced ⟨[0, 1], 2⟩ = some [half, half] ∧
      (∃! x, x ∈ solutions tall) ∧
      ∀ x ∈ solutions tall, [half, half].map Fraction.value = List.ofFn x := by
  have hskewed : Normalized skewed := by decide +kernel
  have hreduce : reduce skewed = .ok ⟨skewedReduced, [1, 2]⟩ := by decide +kernel
  have houtcome : Elimination.outcome ⟨skewedReduced, [1, 2]⟩ = .ok ⟨[1, 2], 3⟩ := by
    decide +kernel
  have hfree : Reduction.freeColumns ⟨[1, 2], 3⟩ = [0] := by decide
  have htall : Normalized tall := by decide +kernel
  have hreduce' : reduce tall = .ok ⟨tallReduced, [0, 1]⟩ := by decide +kernel
  have houtcome' : Elimination.outcome ⟨tallReduced, [0, 1]⟩ = .ok ⟨[0, 1], 2⟩ := by
    decide +kernel
  have hread : uniqueSolution? tallReduced ⟨[0, 1], 2⟩ = some [half, half] := by decide +kernel
  obtain ⟨-, hchoice, hunique, -⟩ := free_unknowns_determine hskewed hreduce houtcome
  obtain ⟨-, -, -, hsome, hvalues, -⟩ := free_unknowns_determine htall hreduce' houtcome'
  rw [hfree] at hchoice
  refine ⟨⟨hskewed, hreduce, houtcome, hfree, fun v => hchoice fun _ => v, ?_⟩, htall, hreduce',
    houtcome', hread, hsome.mp ⟨_, hread⟩, hvalues _ hread⟩
  rw [← hunique]
  decide

end PuzzleKit.Linear

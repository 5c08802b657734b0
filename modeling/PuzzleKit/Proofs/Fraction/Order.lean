import Mathlib.Algebra.Order.Field.Basic
import Mathlib.Algebra.Order.Field.Rat
import Mathlib.Data.List.Sort
import PuzzleKit.Proofs.Fraction.Range

/-!
# The order of fractions is the order of their values

Two fractions are compared by their cross products, each a numerator times a
denominator, so there is room for both among the wide words. Denominators are
positive, hence the products stand in the order of the values (`compareM_eq`).

On fractions in lowest terms, which are equal where their values are, this is a total
order. Sorting such fractions is sorting their values, and since two fractions of one
value are one fraction, there is just one way to arrange them.
-/

namespace PuzzleKit.Fraction

open Word

variable {a b : Fraction} {fractions : List Fraction}

/-! ## Comparing -/

theorem exists_crossProduct (a : Fraction) (hb : b.Normalized) :
    ∃ p : Word .i128, (wide a.numerator).mul (wide b.denominator) = .ok p ∧
      p.val = a.numerator.val * b.denominator.val := by
  have hle := (abs_mul_le (abs_val_le a.numerator) hb.abs_denominator_le).trans
    (show _ ≤ (2 ^ 127 - 1 : ℤ) by decide)
  exact exists_wide .mulOverflow hle

theorem Normalized.value_lt_iff (ha : a.Normalized) (hb : b.Normalized) :
    a.value < b.value ↔
      a.numerator.val * b.denominator.val < b.numerator.val * a.denominator.val := by
  have hapos : (0 : ℚ) < a.denominator.val := Int.cast_pos.mpr ha.denominator_pos
  have hbpos : (0 : ℚ) < b.denominator.val := Int.cast_pos.mpr hb.denominator_pos
  rw [value, value, div_lt_div_iff₀ hapos hbpos]
  norm_cast

/-- Comparing never overflows, and it compares the values. -/
theorem compareM_eq (ha : a.Normalized) (hb : b.Normalized) :
    a.compareM b = .ok (compare a.value b.value) := by
  obtain ⟨left, hleft, hleftVal⟩ := exists_crossProduct a hb
  obtain ⟨right, hright, hrightVal⟩ := exists_crossProduct b ha
  have horder : compare left right = compare a.value b.value := by
    change compare left.val right.val = compare a.value b.value
    rw [hleftVal, hrightVal]
    rcases lt_trichotomy a.value b.value with hlt | heq | hgt
    · rw [compare_lt_iff_lt.mpr hlt, compare_lt_iff_lt]
      exact (ha.value_lt_iff hb).mp hlt
    · rw [compare_eq_iff_eq.mpr heq, ha.eq_of_value_eq hb heq, compare_eq_iff_eq]
    · rw [compare_gt_iff_gt.mpr hgt, compare_gt_iff_gt]
      exact (hb.value_lt_iff ha).mp hgt
  simp only [compareM, bind, Except.bind, hleft, hright, horder]
  rfl

theorem compareM_ne_gt_iff (ha : a.Normalized) (hb : b.Normalized) :
    a.compareM b ≠ .ok .gt ↔ a.value ≤ b.value := by
  rw [compareM_eq ha hb, ← compare_le_iff_le, ne_eq, Except.ok.injEq]

/-! ## Sorting -/

theorem precedes_eq (ha : a.Normalized) (hb : b.Normalized) :
    a.precedes b = decide (a.value ≤ b.value) := by
  simp only [precedes, compareM_eq ha hb, ← compare_le_iff_le]
  cases compare a.value b.value <;> rfl

/-- The values of sorted fractions are the sorted values. -/
theorem map_value_sort (h : ∀ a ∈ fractions, a.Normalized) :
    (sort fractions).map value =
      (fractions.map value).mergeSort fun x y => decide (x ≤ y) :=
  List.map_mergeSort fun a ha b hb => precedes_eq (h a ha) (h b hb)

theorem sort_perm (fractions : List Fraction) : (sort fractions).Perm fractions :=
  List.mergeSort_perm fractions precedes

theorem pairwise_sort (h : ∀ a ∈ fractions, a.Normalized) :
    (sort fractions).Pairwise fun a b => a.value ≤ b.value := by
  have hsorted := List.pairwise_mergeSort' (· ≤ ·) (fractions.map value)
  rw [← map_value_sort h] at hsorted
  exact List.pairwise_map.mp hsorted

/-- Fractions in the order of their values are in the order in which they are sorted. -/
theorem eq_sort_of_pairwise (h : ∀ a ∈ fractions, a.Normalized) {arranged : List Fraction}
    (hperm : arranged.Perm fractions) (hsorted : arranged.Pairwise fun a b => a.value ≤ b.value) :
    arranged = sort fractions := by
  refine (hperm.trans (sort_perm fractions).symm).eq_of_pairwise (fun a b ha hb hab hba => ?_)
    hsorted (pairwise_sort h)
  have ha := h a (hperm.mem_iff.mp ha)
  have hb := h b ((sort_perm fractions).mem_iff.mp hb)
  exact ha.eq_of_value_eq hb (le_antisymm hab hba)

/-- Comparing fractions in lowest terms gives the order of their values, without a
fault. It is a total order in which just the same fractions are equal, and sorting by
it yields the one arrangement of the fractions in which no value falls. -/
theorem compareM_orders_values :
    (∀ a b : Fraction, a.Normalized → b.Normalized →
      ∃ order, a.compareM b = .ok order ∧ b.compareM a = .ok order.swap ∧
        (order = .lt ↔ a.value < b.value) ∧ (order = .eq ↔ a.value = b.value) ∧
          (order = .gt ↔ b.value < a.value) ∧ (order = .eq ↔ (a == b) = true)) ∧
      (∀ a b c : Fraction, a.Normalized → b.Normalized → c.Normalized →
        a.compareM b ≠ .ok .gt → b.compareM c ≠ .ok .gt → a.compareM c ≠ .ok .gt) ∧
      ∀ fractions : List Fraction, (∀ a ∈ fractions, a.Normalized) →
        (sort fractions).Perm fractions ∧
          ((sort fractions).Pairwise fun a b => a.value ≤ b.value) ∧
          ∀ arranged : List Fraction, arranged.Perm fractions →
            (arranged.Pairwise fun a b => a.value ≤ b.value) → arranged = sort fractions := by
  refine ⟨fun a b ha hb => ?_, fun a b c ha hb hc hab hbc => ?_, fun fractions h =>
    ⟨sort_perm fractions, pairwise_sort h, fun _ => eq_sort_of_pairwise h⟩⟩
  · refine ⟨_, compareM_eq ha hb, ?_, compare_lt_iff_lt, compare_eq_iff_eq, compare_gt_iff_gt, ?_⟩
    · rw [compareM_eq hb ha, ← Std.OrientedOrd.eq_swap]
    · rw [compare_eq_iff_eq, beq_iff_eq]
      exact ⟨ha.eq_of_value_eq hb, congrArg value⟩
  · rw [compareM_ne_gt_iff ha hb] at hab
    rw [compareM_ne_gt_iff hb hc] at hbc
    rw [compareM_ne_gt_iff ha hc]
    exact hab.trans hbc

/-- The greatest word over the one below it. -/
def aboveOne : Fraction := ⟨maximum .i64, ⟨9223372036854775806, by decide, by decide⟩⟩

/-- A fraction above the last one whose cross products with it differ by one. -/
def furtherAboveOne : Fraction :=
  ⟨⟨9223372036854775806, by decide, by decide⟩, ⟨9223372036854775805, by decide, by decide⟩⟩

theorem compareM_orders_values_aboveOne :
    aboveOne.Normalized ∧ furtherAboveOne.Normalized ∧
      aboveOne.compareM furtherAboveOne = .ok .lt ∧
      furtherAboveOne.compareM aboveOne = .ok .gt ∧ aboveOne.value < furtherAboveOne.value ∧
      (∀ a ∈ [furtherAboveOne, sliver, aboveOne, least], a.Normalized) ∧
      [least, sliver, aboveOne, furtherAboveOne].Pairwise (fun a b => a.value ≤ b.value) ∧
      sort [furtherAboveOne, sliver, aboveOne, least] =
        [least, sliver, aboveOne, furtherAboveOne] := by
  obtain ⟨horders, -, hsorts⟩ := compareM_orders_values
  have habove : aboveOne.Normalized := by decide +kernel
  have hfurther : furtherAboveOne.Normalized := by decide +kernel
  have hlt : aboveOne.compareM furtherAboveOne = .ok .lt := by decide +kernel
  obtain ⟨order, hcompare, hswap, hltIff, -⟩ := horders _ _ habove hfurther
  cases hcompare.symm.trans hlt
  have hall : ∀ a ∈ [furtherAboveOne, sliver, aboveOne, least], a.Normalized := by decide +kernel
  have hperm : [least, sliver, aboveOne, furtherAboveOne].Perm
      [furtherAboveOne, sliver, aboveOne, least] := by decide +kernel
  have hpairwise : [least, sliver, aboveOne, furtherAboveOne].Pairwise
      fun a b => a.value ≤ b.value := by decide +kernel
  have hsort := (hsorts _ hall).2.2 _ hperm hpairwise
  exact ⟨habove, hfurther, hlt, hswap, hltIff.mp rfl, hall, hpairwise, hsort.symm⟩

end PuzzleKit.Fraction

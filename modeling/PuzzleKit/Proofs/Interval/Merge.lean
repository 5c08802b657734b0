import Mathlib.Data.List.Basic
import PuzzleKit.Interval
import PuzzleKit.Proofs.Integer.Exact

/-!
# The union in separated form

Merging goes through the intervals in the order of their starts with one interval
in hand. The next one is either joined to it, because no value lies between the
two, or the interval in hand is finished: what follows starts at least as late as
the next one, so there is a gap before all of it. Joining keeps the start, and
this is why the list stays in order whatever has been joined.

The gap is tested with a sum that stays at the greatest word. There it differs
from the exact sum, but no interval can start after the greatest word, so where a
gap is found the exact sum is a word, too.
-/

namespace PuzzleKit.Interval

variable {w : Width} {a b current next : Interval w} {intervals rest : List (Interval w)}
  {v x : Word w}

theorem mem_iff : v ∈ a ↔ a.exhausted = false ∧ a.first.val ≤ v.val ∧ v.val ≤ a.last.val := Iff.rfl

theorem isEmpty_eq_false_iff :
    a.isEmpty = false ↔ a.exhausted = false ∧ a.first.val ≤ a.last.val := by
  rw [isEmpty, Bool.or_eq_false_iff, decide_eq_false_iff_not]
  exact and_congr_right fun _ => Int.not_lt

theorem isEmpty_eq_false_of_mem (hv : v ∈ a) : a.isEmpty = false :=
  isEmpty_eq_false_iff.mpr ⟨hv.1, Int.le_trans hv.2.1 hv.2.2⟩

/-! ## Taking values -/

/-- Taking stops where there are no values left. -/
theorem take?_eq_none_iff : a.take? = none ↔ ∀ v, v ∉ a := by
  rw [take?]
  split
  · next hempty =>
      refine iff_of_true rfl fun v hv => ?_
      rw [isEmpty_eq_false_of_mem hv] at hempty
      cases hempty
  · next hfull =>
      have hfull := isEmpty_eq_false_iff.mp (Bool.eq_false_of_not_eq_true hfull)
      have hmem : a.first ∈ a := ⟨hfull.1, Int.le_refl _, hfull.2⟩
      refine iff_of_false ?_ fun hnone => hnone a.first hmem
      split <;> exact Option.some_ne_none _

/-- What is taken is the least value, and no other one is lost. -/
theorem take?_eq_some (h : a.take? = some (x, b)) :
    x ∈ a ∧ ∀ v, v ∈ b ↔ v ∈ a ∧ x < v := by
  rw [take?] at h
  split at h
  · cases h
  · next hfull =>
      obtain ⟨hleft, hle⟩ := isEmpty_eq_false_iff.mp (Bool.eq_false_of_not_eq_true hfull)
      split at h <;> cases h <;> refine ⟨⟨hleft, Int.le_refl _, hle⟩, fun v => ?_⟩
      · next hlt =>
          rw [Word.lt_iff] at hlt ⊢
          have hmax := a.last.le_max
          have hsucc : a.first.saturatingSucc.val = a.first.val + 1 := by
            rw [Word.saturatingSucc_val]
            omega
          simp only [mem_iff, fromTo, hsucc, hleft, true_and]
          omega
      · next hge =>
          rw [Word.lt_iff] at hge ⊢
          refine ⟨fun hv => (nomatch hv.1), fun hv => ?_⟩
          have hlast := (mem_iff.mp hv.1).2.2
          omega

/-! ## Two intervals -/

/-- There is a word between two intervals: the one after the end of the first
comes before the start of the second. -/
def Separated (a b : Interval w) : Prop := ∃ next, a.last.add 1 = .ok next ∧ next < b.first

theorem separated_iff : a.Separated b ↔ a.last.val + 1 < b.first.val := by
  constructor
  · rintro ⟨next, hnext, hlt⟩
    have hval : next.val = a.last.val + 1 := Word.fit_eq_ok_iff.mp hnext
    exact hval ▸ hlt
  · intro h
    have hmin := a.last.min_le
    have hmax := b.first.le_max
    obtain ⟨next, hnext, hval⟩ := Word.exists_fit (w := w) (v := a.last.val + 1) .addOverflow
      (by omega) (by omega)
    exact ⟨next, hnext, show next.val < b.first.val from hval ▸ h⟩

/-- No word is between the saturated sum and the exact one. -/
theorem le_saturatingSucc_iff {x y : Word w} : y ≤ x.saturatingSucc ↔ y.val ≤ x.val + 1 := by
  have hmax := y.le_max
  change y.val ≤ x.saturatingSucc.val ↔ y.val ≤ x.val + 1
  rw [Word.saturatingSucc_val]
  omega

theorem extend_first : (a.extend b).first = a.first := by
  unfold extend
  split <;> rfl

theorem extend_last_val : (a.extend b).last.val = max a.last.val b.last.val := by
  unfold extend
  split
  · next hlt => exact (max_eq_right (Int.le_of_lt hlt)).symm
  · next hge => exact (max_eq_left (Int.not_lt.mp hge)).symm

theorem extend_exhausted (h : a.exhausted = false) : (a.extend b).exhausted = false := by
  unfold extend
  split
  · rfl
  · exact h

/-- An interval that overlaps or touches another one that starts no later is
joined to it without gaining or losing a value. -/
theorem mem_extend (ha : a.isEmpty = false) (hb : b.isEmpty = false) (hfirst : a.first ≤ b.first)
    (htouch : b.first ≤ a.last.saturatingSucc) : v ∈ a.extend b ↔ v ∈ a ∨ v ∈ b := by
  obtain ⟨ha, -⟩ := isEmpty_eq_false_iff.mp ha
  obtain ⟨hb, -⟩ := isEmpty_eq_false_iff.mp hb
  have hfirst : a.first.val ≤ b.first.val := hfirst
  have htouch := le_saturatingSucc_iff.mp htouch
  simp only [mem_iff, extend_exhausted ha, ha, hb, extend_first, extend_last_val, true_and]
  omega

theorem isEmpty_extend (h : a.isEmpty = false) : (a.extend b).isEmpty = false := by
  rw [isEmpty_eq_false_iff] at h ⊢
  rw [extend_first, extend_last_val]
  exact ⟨extend_exhausted h.1, le_max_of_le_left h.2⟩

/-! ## A list in order -/

/-- The intervals come in the order of their starts, and none is empty. -/
structure Arranged (intervals : List (Interval w)) : Prop where
  sorted : intervals.Pairwise fun a b => a.first ≤ b.first
  nonempty : ∀ a ∈ intervals, a.isEmpty = false

theorem Arranged.tail (h : Arranged (a :: rest)) : Arranged rest :=
  ⟨h.sorted.of_cons, fun b hb => h.nonempty b (List.mem_cons_of_mem a hb)⟩

theorem Arranged.head_nonempty (h : Arranged (a :: rest)) : a.isEmpty = false :=
  h.nonempty a List.mem_cons_self

theorem Arranged.first_le (h : Arranged (current :: next :: rest)) :
    current.first ≤ next.first :=
  List.rel_of_pairwise_cons h.sorted List.mem_cons_self

theorem Arranged.extend (h : Arranged (current :: next :: rest)) :
    Arranged (current.extend next :: rest) where
  sorted := by
    refine List.pairwise_cons.mpr ⟨fun a ha => ?_, h.sorted.of_cons.of_cons⟩
    rw [extend_first]
    exact List.rel_of_pairwise_cons h.sorted (List.mem_cons_of_mem next ha)
  nonempty := by
    intro a ha
    rcases List.mem_cons.mp ha with rfl | ha
    · exact isEmpty_extend h.head_nonempty
    · exact h.tail.nonempty a (List.mem_cons_of_mem next ha)

/-- The next interval is joined to the one in hand, or it is next in hand and
there is a gap before it. -/
theorem joinFrom_cons_cases (current next : Interval w) (rest : List (Interval w)) :
    (next.first ≤ current.last.saturatingSucc ∧
        joinFrom current (next :: rest) = joinFrom (current.extend next) rest) ∨
      (current.Separated next ∧
        joinFrom current (next :: rest) = current :: joinFrom next rest) := by
  rw [joinFrom]
  split
  · next htouch => exact .inl ⟨htouch, rfl⟩
  · next hgap =>
      rw [le_saturatingSucc_iff, Int.not_le] at hgap
      exact .inr ⟨separated_iff.mpr hgap, rfl⟩

/-- The first interval returned starts where the one in hand does. -/
theorem exists_joinFrom_eq_cons (current : Interval w) (rest : List (Interval w)) :
    ∃ a tail, joinFrom current rest = a :: tail ∧ a.first = current.first := by
  induction rest generalizing current with
  | nil => exact ⟨current, [], rfl, rfl⟩
  | cons next rest ih =>
      rcases joinFrom_cons_cases current next rest with ⟨-, heq⟩ | ⟨-, heq⟩ <;> rw [heq]
      · obtain ⟨a, tail, heq, hfirst⟩ := ih (current.extend next)
        exact ⟨a, tail, heq, hfirst.trans extend_first⟩
      · exact ⟨current, joinFrom next rest, rfl, rfl⟩

theorem mem_joinFrom (h : Arranged (current :: rest)) :
    (∃ a ∈ joinFrom current rest, v ∈ a) ↔ ∃ a ∈ current :: rest, v ∈ a := by
  induction rest generalizing current with
  | nil => exact Iff.rfl
  | cons next rest ih =>
      rcases joinFrom_cons_cases current next rest with ⟨htouch, heq⟩ | ⟨-, heq⟩ <;> rw [heq]
      · rw [ih h.extend]
        simp only [List.exists_mem_cons_iff]
        rw [mem_extend h.head_nonempty h.tail.head_nonempty h.first_le htouch, or_assoc]
      · have hrest := ih h.tail
        simp only [List.exists_mem_cons_iff] at hrest ⊢
        rw [hrest]

theorem joinFrom_nonempty (h : Arranged (current :: rest)) :
    ∀ a ∈ joinFrom current rest, a.isEmpty = false := by
  induction rest generalizing current with
  | nil => exact h.nonempty
  | cons next rest ih =>
      rcases joinFrom_cons_cases current next rest with ⟨-, heq⟩ | ⟨-, heq⟩ <;> rw [heq]
      · exact ih h.extend
      · exact List.forall_mem_cons.mpr ⟨h.head_nonempty, ih h.tail⟩

theorem joinFrom_isChain (current : Interval w) (rest : List (Interval w)) :
    (joinFrom current rest).IsChain Separated := by
  induction rest generalizing current with
  | nil => exact .singleton current
  | cons next rest ih =>
      rcases joinFrom_cons_cases current next rest with ⟨-, heq⟩ | ⟨hgap, heq⟩ <;> rw [heq]
      · exact ih (current.extend next)
      · obtain ⟨a, tail, htail, hfirst⟩ := exists_joinFrom_eq_cons next rest
        have hchain := ih next
        rw [htail] at hchain ⊢
        refine .cons_cons ?_ hchain
        rw [separated_iff, hfirst]
        exact separated_iff.mp hgap

/-- Whatever order intervals with the same start come in. -/
theorem joinSorted_spec (h : Arranged intervals) :
    (∀ v, (∃ a ∈ joinSorted intervals, v ∈ a) ↔ ∃ a ∈ intervals, v ∈ a) ∧
      (∀ a ∈ joinSorted intervals, a.isEmpty = false) ∧
        (joinSorted intervals).IsChain Separated := by
  cases intervals with
  | nil => exact ⟨fun _ => Iff.rfl, h.nonempty, .nil⟩
  | cons current rest =>
      exact ⟨fun _ => mem_joinFrom h, joinFrom_nonempty h, joinFrom_isChain current rest⟩

theorem arranged_mergeSort (intervals : List (Interval w)) :
    Arranged ((intervals.filter fun a => !a.isEmpty).mergeSort fun a b =>
      decide (a.first ≤ b.first)) where
  sorted := by
    refine (List.pairwise_mergeSort ?_ ?_ _).imp of_decide_eq_true
    · intro a b c hab hbc
      exact decide_eq_true (Int.le_trans (of_decide_eq_true hab) (of_decide_eq_true hbc))
    · intro a b
      rw [Bool.or_eq_true, decide_eq_true_iff, decide_eq_true_iff]
      exact Int.le_total a.first.val b.first.val
  nonempty a ha := by
    have hfilter := (List.mem_filter.mp (List.mem_mergeSort.mp ha)).2
    simpa using hfilter

/-- Merging returns the values of the given intervals and no others, in
intervals that are not empty, and between each of these and the next there is a
gap. The sums it tests for gaps are exact or the greatest word, and none
overflows; nor does the sum of the end of an interval and one, if another
interval follows. -/
theorem mergeOverlapping_separated (intervals : List (Interval w)) :
    (∀ v, (∃ a ∈ mergeOverlapping intervals, v ∈ a) ↔ ∃ a ∈ intervals, v ∈ a) ∧
      (∀ a ∈ mergeOverlapping intervals, a.isEmpty = false) ∧
        (mergeOverlapping intervals).IsChain Separated ∧
          ∀ x : Word w, x.saturatingSucc.val = min (x.val + 1) w.max := by
  obtain ⟨hmem, hnonempty, hchain⟩ := joinSorted_spec (arranged_mergeSort intervals)
  refine ⟨fun v => (hmem v).trans ?_, hnonempty, hchain, Word.saturatingSucc_val⟩
  -- An interval that was dropped holds no value.
  constructor
  · rintro ⟨a, ha, hv⟩
    exact ⟨a, (List.mem_filter.mp (List.mem_mergeSort.mp ha)).1, hv⟩
  · rintro ⟨a, ha, hv⟩
    have hfull := isEmpty_eq_false_of_mem hv
    exact ⟨a, List.mem_mergeSort.mpr (List.mem_filter.mpr ⟨ha, by rw [hfull]; rfl⟩), hv⟩

/-- At both ends of the width, with an empty interval and an exhausted one between. -/
example : mergeOverlapping [fromTo (.maximum .i8) (.maximum .i8), fromTo 1 1, fromTo 1 0,
      ⟨1, .maximum .i8, true⟩, fromTo (.minimum .i8) 0] =
    [fromTo (.minimum .i8) 1, fromTo (.maximum .i8) (.maximum .i8)] := by cbv

end PuzzleKit.Interval

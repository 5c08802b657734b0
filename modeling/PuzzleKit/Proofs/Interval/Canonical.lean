import PuzzleKit.Proofs.Interval.Merge

/-!
# The union has one separated form

A list of intervals that are not empty and have a gap between each and the next is
determined by the values it holds. The first interval starts at the least of them. It ends
where a value is missing: the word after its end is in none of the others, because they all
start later still. What is left are the values after that end, held by the rest of the list.

Hence merging is a function of the values. In which order the intervals came, how the values
were spread over them, and which of two intervals with the same start a sort has put first
cannot be told from the result.
-/

namespace PuzzleKit.Interval

variable {w : Width} {a b : Interval w} {rest rest' intervals others sorted : List (Interval w)}
  {v : Word w}

/-- A value of one of the intervals. -/
def Covers (intervals : List (Interval w)) (v : Word w) : Prop := ∃ a ∈ intervals, v ∈ a

theorem covers_cons_iff : Covers (a :: rest) v ↔ v ∈ a ∨ Covers rest v :=
  List.exists_mem_cons_iff _ a rest

theorem eq_of_nonempty (ha : a.isEmpty = false) (hb : b.isEmpty = false)
    (hfirst : a.first.val = b.first.val) (hlast : a.last.val = b.last.val) : a = b := by
  obtain ⟨ha, -⟩ := isEmpty_eq_false_iff.mp ha
  obtain ⟨hb, -⟩ := isEmpty_eq_false_iff.mp hb
  cases a
  cases b
  cases Word.ext hfirst
  cases Word.ext hlast
  rw [mk.injEq]
  exact ⟨rfl, rfl, ha.trans hb.symm⟩

/-! ## Lists with gaps -/

structure Canonical (intervals : List (Interval w)) : Prop where
  nonempty : ∀ a ∈ intervals, a.isEmpty = false
  separated : intervals.IsChain Separated

theorem Canonical.tail (h : Canonical (a :: rest)) : Canonical rest :=
  ⟨fun b hb => h.nonempty b (List.mem_cons_of_mem a hb), h.separated.of_cons⟩

theorem Canonical.head_nonempty (h : Canonical (a :: rest)) : a.isEmpty = false :=
  h.nonempty a List.mem_cons_self

theorem Canonical.first_le_last (h : Canonical (a :: rest)) : a.first.val ≤ a.last.val :=
  (isEmpty_eq_false_iff.mp h.head_nonempty).2

theorem Canonical.covers_first (h : Canonical (a :: rest)) : Covers (a :: rest) a.first :=
  covers_cons_iff.mpr
    (.inl ⟨(isEmpty_eq_false_iff.mp h.head_nonempty).1, Int.le_refl _, h.first_le_last⟩)

theorem Canonical.eq_nil (h : Canonical intervals) (hnone : ∀ v, ¬Covers intervals v) :
    intervals = [] := by
  cases intervals with
  | nil => rfl
  | cons a rest => exact absurd h.covers_first (hnone a.first)

/-- The gap after the first interval is before all the others. -/
theorem Canonical.last_add_one_lt (h : Canonical (a :: rest)) (hb : b ∈ rest) :
    a.last.val + 1 < b.first.val := by
  induction rest generalizing a with
  | nil => cases hb
  | cons next rest ih =>
      have hgap := separated_iff.mp (List.isChain_cons_cons.mp h.separated).1
      rcases List.mem_cons.mp hb with rfl | hb
      · exact hgap
      · have hlast := h.tail.first_le_last
        have hrest := ih h.tail hb
        omega

theorem Canonical.first_le (h : Canonical (a :: rest)) (hv : Covers (a :: rest) v) :
    a.first.val ≤ v.val := by
  rcases covers_cons_iff.mp hv with hv | ⟨b, hb, hv⟩
  · exact (mem_iff.mp hv).2.1
  · have hlast := h.first_le_last
    have hgap := h.last_add_one_lt hb
    have hfirst := (mem_iff.mp hv).2.1
    omega

/-- The rest of the list holds the values after the end of its first interval. -/
theorem Canonical.covers_rest_iff (h : Canonical (a :: rest)) :
    Covers rest v ↔ Covers (a :: rest) v ∧ a.last.val < v.val := by
  rw [covers_cons_iff]
  constructor
  · rintro ⟨b, hb, hv⟩
    have hgap := h.last_add_one_lt hb
    have hfirst := (mem_iff.mp hv).2.1
    exact ⟨.inr ⟨b, hb, hv⟩, by omega⟩
  · rintro ⟨hv | hv, hlt⟩
    · exact absurd (mem_iff.mp hv).2.2 (Int.not_le.mpr hlt)
    · exact hv

/-- The word after the first interval is missing, so an interval of values that starts in
the first one ends there, too. -/
theorem Canonical.last_le (h : Canonical (a :: rest)) (hleft : b.exhausted = false)
    (hfirst : b.first.val ≤ a.last.val + 1) (hb : ∀ v, v ∈ b → Covers (a :: rest) v) :
    b.last.val ≤ a.last.val := by
  by_contra hlt
  have hmin := a.last.min_le
  have hmax := b.last.le_max
  have hnext := hb ⟨a.last.val + 1, by omega, by omega⟩
    (mem_iff.mpr ⟨hleft, hfirst, by simp only; omega⟩)
  obtain ⟨c, hc, hmem⟩ := h.covers_rest_iff.mpr ⟨hnext, by simp only; omega⟩
  exact absurd (mem_iff.mp hmem).2.1 (Int.not_le.mpr (h.last_add_one_lt hc))

theorem Canonical.head_eq (h : Canonical (a :: rest)) (h' : Canonical (b :: rest'))
    (hcovers : ∀ v, Covers (a :: rest) v ↔ Covers (b :: rest') v) : a = b := by
  have hfirst : a.first.val = b.first.val :=
    Int.le_antisymm (h.first_le ((hcovers _).mpr h'.covers_first))
      (h'.first_le ((hcovers _).mp h.covers_first))
  have hlast : a.last.val = b.last.val := by
    have hle := h.first_le_last
    have hle' := h'.first_le_last
    obtain ⟨hleft, -⟩ := isEmpty_eq_false_iff.mp h.head_nonempty
    obtain ⟨hleft', -⟩ := isEmpty_eq_false_iff.mp h'.head_nonempty
    refine Int.le_antisymm (h'.last_le hleft (by omega) fun v hv => ?_)
      (h.last_le hleft' (by omega) fun v hv => ?_)
    · exact (hcovers v).mp (covers_cons_iff.mpr (.inl hv))
    · exact (hcovers v).mpr (covers_cons_iff.mpr (.inl hv))
  exact eq_of_nonempty h.head_nonempty h'.head_nonempty hfirst hlast

theorem Canonical.eq_of_covers_iff (h : Canonical intervals) (h' : Canonical others)
    (hcovers : ∀ v, Covers intervals v ↔ Covers others v) : intervals = others := by
  induction intervals generalizing others with
  | nil => exact (h'.eq_nil fun v hv => by obtain ⟨_, ha, _⟩ := (hcovers v).mpr hv; cases ha).symm
  | cons a rest ih =>
      cases others with
      | nil => exact h.eq_nil fun v hv => by obtain ⟨_, ha, _⟩ := (hcovers v).mp hv; cases ha
      | cons b rest' =>
          obtain rfl := h.head_eq h' hcovers
          rw [ih h.tail h'.tail fun v => by rw [h.covers_rest_iff, h'.covers_rest_iff, hcovers]]

/-! ## Any order of equal starts -/

/-- A list that sorting by starts may return for those of the intervals that are not empty:
where starts are equal, any order will do. -/
structure ArrangementOf (intervals sorted : List (Interval w)) : Prop where
  perm : sorted.Perm (intervals.filter fun a => !a.isEmpty)
  increasing : sorted.Pairwise fun a b => a.first ≤ b.first

theorem arrangementOf_mergeSort (intervals : List (Interval w)) :
    ArrangementOf intervals ((intervals.filter fun a => !a.isEmpty).mergeSort fun a b =>
      decide (a.first ≤ b.first)) :=
  ⟨List.mergeSort_perm _ _, (arranged_mergeSort intervals).sorted⟩

theorem ArrangementOf.mem_iff (h : ArrangementOf intervals sorted) :
    a ∈ sorted ↔ a ∈ intervals ∧ a.isEmpty = false := by
  rw [h.perm.mem_iff, List.mem_filter, Bool.not_eq_true']

theorem ArrangementOf.arranged (h : ArrangementOf intervals sorted) : Arranged sorted :=
  ⟨h.increasing, fun _ ha => (h.mem_iff.mp ha).2⟩

/-- The intervals that are left out hold no value. -/
theorem ArrangementOf.covers_iff (h : ArrangementOf intervals sorted) :
    Covers sorted v ↔ Covers intervals v := by
  refine exists_congr fun a => and_congr_left fun hv => ?_
  rw [h.mem_iff, and_iff_left (isEmpty_eq_false_of_mem hv)]

theorem ArrangementOf.canonical (h : ArrangementOf intervals sorted) :
    Canonical (joinSorted sorted) :=
  have hspec := joinSorted_spec h.arranged
  ⟨hspec.2.1, hspec.2.2⟩

theorem ArrangementOf.covers_joinSorted (h : ArrangementOf intervals sorted) :
    Covers (joinSorted sorted) v ↔ Covers intervals v :=
  ((joinSorted_spec h.arranged).1 v).trans h.covers_iff

/-- Joining gives what merging gives for any list of the same values. -/
theorem ArrangementOf.joinSorted_eq (h : ArrangementOf others sorted)
    (hcovers : ∀ v, Covers intervals v ↔ Covers others v) :
    joinSorted sorted = mergeOverlapping intervals := by
  have hmerge := arrangementOf_mergeSort intervals
  exact h.canonical.eq_of_covers_iff hmerge.canonical fun v =>
    (h.covers_joinSorted.trans (hcovers v).symm).trans hmerge.covers_joinSorted.symm

/-- Two lists of intervals that hold the same values are merged into the same list. It holds just
these values, with a gap between each interval and the next, and it does not depend on the order
in which intervals with equal starts are put. Merging it again changes nothing. -/
theorem mergeOverlapping_determined (h : ∀ v, Covers intervals v ↔ Covers others v) :
    Canonical (mergeOverlapping intervals) ∧
      (∀ v, Covers (mergeOverlapping intervals) v ↔ Covers intervals v) ∧
      mergeOverlapping others = mergeOverlapping intervals ∧
      (∀ sorted, ArrangementOf others sorted → joinSorted sorted = mergeOverlapping intervals) ∧
      mergeOverlapping (mergeOverlapping intervals) = mergeOverlapping intervals ∧
      ∀ sorted, ArrangementOf (mergeOverlapping intervals) sorted →
        joinSorted sorted = mergeOverlapping intervals := by
  have hmerge := arrangementOf_mergeSort intervals
  have hmerged : ∀ v, Covers intervals v ↔ Covers (mergeOverlapping intervals) v := fun _ =>
    hmerge.covers_joinSorted.symm
  exact ⟨hmerge.canonical, fun _ => hmerge.covers_joinSorted,
    (arrangementOf_mergeSort others).joinSorted_eq h, fun _ hsorted => hsorted.joinSorted_eq h,
    (arrangementOf_mergeSort _).joinSorted_eq hmerged,
    fun _ hsorted => hsorted.joinSorted_eq hmerged⟩

/-- Up to the greatest word, with one interval that is empty, one that is exhausted, and two that
overlap. -/
def patches : List (Interval .u8) :=
  [fromTo ⟨250, by decide, by decide⟩ ⟨255, by decide, by decide⟩, fromTo 1 0,
    ⟨⟨9, by decide, by decide⟩, ⟨9, by decide, by decide⟩, true⟩,
    fromTo 0 ⟨4, by decide, by decide⟩, fromTo ⟨2, by decide, by decide⟩ ⟨7, by decide, by decide⟩]

/-- The same values, some of them twice, in intervals that touch. Two have the same start. -/
def shreds : List (Interval .u8) :=
  [fromTo ⟨2, by decide, by decide⟩ ⟨7, by decide, by decide⟩,
    fromTo ⟨2, by decide, by decide⟩ ⟨2, by decide, by decide⟩,
    fromTo ⟨255, by decide, by decide⟩ ⟨255, by decide, by decide⟩, fromTo 0 1,
    fromTo ⟨250, by decide, by decide⟩ ⟨254, by decide, by decide⟩]

/-- The shreds in the order of their starts, the longer one of the two with the same start last. -/
def arrangedShreds : List (Interval .u8) :=
  [fromTo 0 1, fromTo ⟨2, by decide, by decide⟩ ⟨2, by decide, by decide⟩,
    fromTo ⟨2, by decide, by decide⟩ ⟨7, by decide, by decide⟩,
    fromTo ⟨250, by decide, by decide⟩ ⟨254, by decide, by decide⟩,
    fromTo ⟨255, by decide, by decide⟩ ⟨255, by decide, by decide⟩]

theorem covers_patches_iff (v : Word .u8) : Covers patches v ↔ Covers shreds v := by
  have hmin : 0 ≤ v.val := v.min_le
  have hone : (1 : Word .u8).val = 1 := rfl
  have hzero : (0 : Word .u8).val = 0 := rfl
  simp only [Covers, patches, shreds, List.exists_mem_cons_iff, List.not_mem_nil, false_and,
    exists_false, or_false, false_or, Interval.mem_iff, fromTo, hone, hzero, true_and,
    Bool.true_eq_false]
  omega

theorem mergeOverlapping_determined_shreds :
    mergeOverlapping shreds = mergeOverlapping patches ∧
      joinSorted arrangedShreds = mergeOverlapping patches ∧
      mergeOverlapping patches = [fromTo 0 ⟨7, by decide, by decide⟩,
        fromTo ⟨250, by decide, by decide⟩ ⟨255, by decide, by decide⟩] := by
  obtain ⟨-, -, heq, hany, -, -⟩ := mergeOverlapping_determined covers_patches_iff
  have hjoined : joinSorted arrangedShreds = mergeOverlapping patches :=
    hany arrangedShreds ⟨by decide, by decide⟩
  exact ⟨heq, hjoined, hjoined.symm.trans (by decide)⟩

end PuzzleKit.Interval

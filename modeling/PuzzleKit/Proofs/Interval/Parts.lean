import PuzzleKit.Proofs.Interval.Merge

/-!
# The values in exactly one of two intervals

Where two intervals overlap, their union has no gap, so it is cut into three stretches by the
overlap: what comes before it, the overlap itself, and what comes after it. Each stretch is
given by its ends as integers, and such a stretch is either no interval or one (`Stretch`).
The ends next to the overlap are one less than its start and one more than its end. They are
computed only where the union goes on there, and then they are ends of values of the union,
hence words.

All of this is about bounds. An exhausted interval has no values, but its bounds still count,
so for one whose bounds meet those of another interval the answers are those from before its
values were taken. `disjointParts_symmDiff` says that there is no other exception.
-/

namespace PuzzleKit.Interval

variable {w : Width} {a b overlap : Interval w} {parts before after : List (Interval w)}
  {v : Word w} {low high low' high' : Int}

instance : Decidable (v ∈ a) :=
  inferInstanceAs (Decidable (a.exhausted = false ∧ a.first ≤ v ∧ v ≤ a.last))

/-- The number of parts that hold a value. -/
def covering (parts : List (Interval w)) (v : Word w) : Nat :=
  parts.countP fun part => decide (v ∈ part)

theorem min_word_comm (x y : Word w) : min x y = min y x :=
  Word.ext (by rw [Word.min_val, Word.min_val, Int.min_comm])

theorem max_word_comm (x y : Word w) : max x y = max y x :=
  Word.ext (by rw [Word.max_val, Word.max_val, Int.max_comm])

/-! ## The overlap -/

/-- A word lies between the bounds of both, whether or not they still hold it. -/
def Meets (a b : Interval w) : Prop :=
  max a.first.val b.first.val ≤ min a.last.val b.last.val

instance (a b : Interval w) : Decidable (a.Meets b) := Int.decLe _ _

theorem intersect?_cases (a b : Interval w) :
    (¬a.Meets b ∧ a.intersect? b = none) ∨
      a.Meets b ∧ ∃ overlap, a.intersect? b = some overlap ∧ overlap.exhausted = false ∧
        overlap.first.val = max a.first.val b.first.val ∧
        overlap.last.val = min a.last.val b.last.val := by
  have hmeets : (fromTo (max a.first b.first) (min a.last b.last)).isEmpty = false ↔
      a.Meets b := by
    rw [isEmpty_eq_false_iff, fromTo, Word.max_val, Word.min_val]
    exact and_iff_right rfl
  rw [intersect?, ← hmeets]
  split
  · next hempty => exact .inl ⟨(Bool.not_eq_false _).mpr hempty, rfl⟩
  · next hfull =>
      exact .inr ⟨Bool.eq_false_of_not_eq_true hfull, _, rfl, rfl, Word.max_val _ _,
        Word.min_val _ _⟩

theorem isSome_intersect?_iff : (a.intersect? b).isSome ↔ a.Meets b := by
  rcases intersect?_cases a b with ⟨happart, hnone⟩ | ⟨hmeets, overlap, hsome, -⟩
  · rw [hnone]
    exact iff_of_false Bool.false_ne_true happart
  · rw [hsome]
    exact iff_of_true rfl hmeets

theorem meets_of_mem (ha : v ∈ a) (hb : v ∈ b) : a.Meets b := by
  rw [mem_iff] at ha hb
  unfold Meets
  omega

theorem intersect?_comm (a b : Interval w) : a.intersect? b = b.intersect? a := by
  rw [intersect?, intersect?, max_word_comm a.first, min_word_comm a.last]

/-! ## Stretches of integers -/

/-- The words from one integer to another, as no interval or as one. -/
inductive Stretch (low high : Int) : List (Interval w) → Prop
  | none (h : high < low) : Stretch low high []
  | one (part : Interval w) (h : low ≤ high) (hfresh : part.exhausted = false)
    (hlow : part.first.val = low) (hhigh : part.last.val = high) : Stretch low high [part]

theorem Stretch.covering_eq (h : Stretch low high parts) (v : Word w) :
    covering parts v = if low ≤ v.val ∧ v.val ≤ high then 1 else 0 := by
  cases h with
  | none h => rw [if_neg (by omega)]; rfl
  | one part h hfresh hlow hhigh =>
      subst hlow hhigh
      rw [covering, List.countP_singleton]
      refine if_congr ?_ rfl rfl
      rw [decide_eq_true_iff, mem_iff, and_iff_right hfresh]

theorem Stretch.isEmpty_eq_false (h : Stretch low high parts) :
    ∀ part ∈ parts, part.isEmpty = false := by
  cases h with
  | none h => exact fun _ hpart => nomatch hpart
  | one part h hfresh hlow hhigh =>
      intro part' hpart
      rw [List.mem_singleton.mp hpart, isEmpty_eq_false_iff, hlow, hhigh]
      exact ⟨hfresh, h⟩

theorem Stretch.append (h : Stretch low high before) (h' : Stretch low' high' after)
    (hlt : high < low') : (before ++ after).Pairwise fun x y => x.last < y.first := by
  cases h with
  | none h =>
      cases h' with
      | none h' => exact .nil
      | one part' h' => exact List.pairwise_singleton _ _
  | one part h _ hlow hhigh =>
      cases h' with
      | none h' => exact List.pairwise_singleton _ _
      | one part' h' _ hlow' hhigh' =>
          refine List.pairwise_pair.mpr ?_
          rw [Word.lt_iff, hhigh, hlow']
          exact hlt

theorem exists_partBefore (overlap : Interval w) (first : Word w) :
    ∃ parts, partBefore overlap first = .ok parts ∧
      Stretch first.val (overlap.first.val - 1) parts := by
  rw [partBefore]
  split
  · next hlt =>
      rw [Word.lt_iff] at hlt
      have hmin := first.min_le
      have hmax := overlap.first.le_max
      obtain ⟨last, hlast, hval⟩ := Word.exists_fit (w := w) (v := overlap.first.val - 1)
        .subOverflow (by omega) (by omega)
      have hsub : overlap.first.sub 1 = .ok last := hlast
      rw [hsub]
      exact ⟨_, rfl, .one _ (by omega) rfl rfl hval⟩
  · next hle =>
      rw [Word.lt_iff] at hle
      exact ⟨[], rfl, .none (by omega)⟩

theorem exists_partAfter (overlap : Interval w) (last : Word w) :
    ∃ parts, partAfter overlap last = .ok parts ∧
      Stretch (overlap.last.val + 1) last.val parts := by
  rw [partAfter]
  split
  · next hlt =>
      rw [Word.lt_iff] at hlt
      have hmin := overlap.last.min_le
      have hmax := last.le_max
      obtain ⟨first, hfirst, hval⟩ := Word.exists_fit (w := w) (v := overlap.last.val + 1)
        .addOverflow (by omega) (by omega)
      have hadd : overlap.last.add 1 = .ok first := hfirst
      rw [hadd]
      exact ⟨_, rfl, .one _ (by omega) rfl hval rfl⟩
  · next hle =>
      rw [Word.lt_iff] at hle
      exact ⟨[], rfl, .none (by omega)⟩

/-! ## The parts -/

theorem disjointParts_comm (h : a.Meets b) : b.disjointParts a = a.disjointParts b := by
  obtain ⟨overlap, hsome⟩ := Option.isSome_iff_exists.mp (isSome_intersect?_iff.mpr h)
  rw [disjointParts, disjointParts, intersect?_comm b a, hsome, min_word_comm b.first,
    max_word_comm b.last]

theorem exists_disjointParts_of_overlap (h : a.intersect? b = some overlap) :
    ∃ before after, a.disjointParts b = .ok (before ++ after) ∧
      Stretch (min a.first.val b.first.val) (overlap.first.val - 1) before ∧
      Stretch (overlap.last.val + 1) (max a.last.val b.last.val) after := by
  obtain ⟨before, hbefore, hlow⟩ := exists_partBefore overlap (min a.first b.first)
  obtain ⟨after, hafter, hhigh⟩ := exists_partAfter overlap (max a.last b.last)
  rw [Word.min_val] at hlow
  rw [Word.max_val] at hhigh
  rw [disjointParts, h]
  simp only [hbefore, hafter]
  exact ⟨before, after, rfl, hlow, hhigh⟩

theorem disjointParts_of_apart (h : a.intersect? b = none) :
    a.disjointParts b = .ok [a, b] := by
  rw [disjointParts, h]

/-- The intersection holds the common values if there are any. The parts are found without a
fault. Each value of exactly one of the two is in exactly one part, and no other value is in
any; and if there are common values, then the parts are not empty, in order, and the same for
the two in the other order. -/
structure Splits (a b : Interval w) : Prop where
  mem_overlap : ∀ overlap, a.intersect? b = some overlap → ∀ v, v ∈ overlap ↔ v ∈ a ∧ v ∈ b
  isSome_overlap : (a.intersect? b).isSome ↔ ∃ v, v ∈ a ∧ v ∈ b
  parts : ∃ parts, a.disjointParts b = .ok parts ∧
    (∀ v, covering parts v = if (v ∈ a ↔ v ∈ b) then 0 else 1) ∧
    ((∃ v, v ∈ a ∧ v ∈ b) → (∀ part ∈ parts, part.isEmpty = false) ∧
      parts.Pairwise (fun x y => x.last < y.first) ∧ b.disjointParts a = .ok parts)

theorem splits_of_apart (h : ¬a.Meets b) : Splits a b := by
  have happart : ¬∃ v, v ∈ a ∧ v ∈ b := fun ⟨_, ha, hb⟩ => h (meets_of_mem ha hb)
  have hnone : a.intersect? b = none := by
    rwa [← isSome_intersect?_iff, Option.not_isSome_iff_eq_none] at h
  refine ⟨fun overlap hsome => ?_, ?_, [a, b], disjointParts_of_apart hnone, fun v => ?_, ?_⟩
  · rw [hnone] at hsome
    cases hsome
  · rw [isSome_intersect?_iff]
    exact iff_of_false h happart
  · have hnot : ¬(v ∈ a ∧ v ∈ b) := fun hv => happart ⟨v, hv⟩
    by_cases ha : v ∈ a <;> by_cases hb : v ∈ b <;> simp_all [covering]
  · intro hcommon
    exact absurd hcommon happart

theorem splits_of_not_exhausted (ha : a.exhausted = false) (hb : b.exhausted = false)
    (h : a.Meets b) : Splits a b := by
  obtain ⟨hnot, -⟩ | ⟨-, overlap, hsome, hfresh, hfirst, hlast⟩ := intersect?_cases a b
  · exact absurd h hnot
  obtain ⟨before, after, hparts, hbefore, hafter⟩ := exists_disjointParts_of_overlap hsome
  have hmem : ∀ v, v ∈ overlap ↔ v ∈ a ∧ v ∈ b := by
    intro v
    simp only [mem_iff, hfresh, ha, hb, hfirst, hlast, true_and]
    omega
  unfold Meets at h
  refine ⟨fun overlap' hsome' => ?_, ?_, before ++ after, hparts, fun v => ?_,
    fun _ => ⟨?_, ?_, ?_⟩⟩
  · cases hsome.symm.trans hsome'
    exact hmem
  · refine iff_of_true (isSome_intersect?_iff.mpr h) ⟨overlap.first, (hmem _).mp ?_⟩
    rw [mem_iff, hfirst, hlast]
    exact ⟨hfresh, le_refl _, h⟩
  · rw [covering, List.countP_append, ← covering, ← covering, hbefore.covering_eq,
      hafter.covering_eq]
    -- Outside the overlap, a value between the ends of the union is in just one of the two.
    simp only [mem_iff, ha, hb, true_and]
    split <;> split <;> split <;> omega
  · intro part hpart
    rcases List.mem_append.mp hpart with hpart | hpart
    · exact hbefore.isEmpty_eq_false part hpart
    · exact hafter.isEmpty_eq_false part hpart
  · exact hbefore.append hafter (by omega)
  · rw [disjointParts_comm h, hparts]

/-- There is an intersection, but there are no common values. -/
theorem not_splits_of_exhausted (h : a.Meets b) (hgone : a.exhausted = true ∨ b.exhausted = true) :
    ¬Splits a b := by
  intro hsplits
  obtain ⟨v, hva, hvb⟩ := hsplits.isSome_overlap.mp (isSome_intersect?_iff.mpr h)
  rcases hgone with hgone | hgone
  · cases hva.1.symm.trans hgone
  · cases hvb.1.symm.trans hgone

/-- The interval with the same bounds, before any of its values was taken. -/
def renewed (a : Interval w) : Interval w := fromTo a.first a.last

/-- The parts of two intervals are always found, so no sum or difference on the way to them
is out of range. They and the intersection are right by the values of the two unless one is
exhausted and their bounds meet; then the answers are those for the intervals before their
values were taken. -/
theorem disjointParts_symmDiff (a b : Interval w) :
    (∃ parts, a.disjointParts b = .ok parts) ∧
      (Splits a b ↔ ¬(a.Meets b ∧ (a.exhausted = true ∨ b.exhausted = true))) ∧
      a.intersect? b = a.renewed.intersect? b.renewed ∧
      (a.Meets b → a.disjointParts b = a.renewed.disjointParts b.renewed) := by
  refine ⟨?_, ?_, rfl, fun h => ?_⟩
  · rcases intersect?_cases a b with ⟨-, hnone⟩ | ⟨-, overlap, hsome, -⟩
    · exact ⟨[a, b], disjointParts_of_apart hnone⟩
    · obtain ⟨before, after, hparts, -⟩ := exists_disjointParts_of_overlap hsome
      exact ⟨before ++ after, hparts⟩
  · refine ⟨fun hsplits h => not_splits_of_exhausted h.1 h.2 hsplits, fun h => ?_⟩
    by_cases hmeets : a.Meets b
    · obtain ⟨ha, hb⟩ := not_or.mp fun hgone => h ⟨hmeets, hgone⟩
      exact splits_of_not_exhausted (Bool.eq_false_of_not_eq_true ha)
        (Bool.eq_false_of_not_eq_true hb) hmeets
    · exact splits_of_apart hmeets
  · obtain ⟨overlap, hsome⟩ := Option.isSome_iff_exists.mp (isSome_intersect?_iff.mpr h)
    have hsome' : a.renewed.intersect? b.renewed = some overlap := hsome
    rw [disjointParts, disjointParts, hsome, hsome']
    rfl

/-- The value of the one interval is gone, but it still counts as one that the two have in common,
and so it is missing from the parts. -/
theorem exhausted_interval_meets :
    (fromTo 1 1 : Interval .i8).take? = some (1, ⟨1, 1, true⟩) ∧
      (∀ v, v ∉ (⟨1, 1, true⟩ : Interval .i8)) ∧
      (⟨1, 1, true⟩ : Interval .i8).intersect? (fromTo 0 1) = some (fromTo 1 1) ∧
      (⟨1, 1, true⟩ : Interval .i8).disjointParts (fromTo 0 1) = .ok [fromTo 0 0] ∧
      (1 : Word .i8) ∈ (fromTo 0 1 : Interval .i8) ∧
      ¬Splits (⟨1, 1, true⟩ : Interval .i8) (fromTo 0 1) := by
  refine ⟨by decide, fun v hv => (nomatch hv.1), by decide, by decide, by decide, ?_⟩
  exact not_splits_of_exhausted (by decide) (.inl rfl)

/-- Against both ends of the width, where the one interval is inside the other. -/
example : (fromTo (.minimum .i8) (.maximum .i8)).disjointParts (fromTo (.minimum .i8) 0) =
    .ok [fromTo 1 (.maximum .i8)] := by cbv

end PuzzleKit.Interval

import PuzzleKit.Proofs.Integer.Multiple

/-!
# Least common multiples of lists

A partial multiple divides the multiple of all items. So as long as no item is zero a
fold fails on the way just where the last number does not fit, and what is known of the
fold is the multiple of the list, in whatever order the list is. Zero ends that: it is a
multiple of everything, so the items before it decide alone whether it is reached, and
those after it are not looked at any more.

The checked fold starts from one. Its total is never negative, so the least signed word
does not meet itself, and there is no fault. The other fold starts from the first item
and hands faults on. From the second item on it computes the same totals, step by step,
and what it refuses beyond those that do not fit is the least signed word after a zero,
since the divisor of the two does not fit although the multiple does (`lcmAll_eq_ok_iff`).
-/

namespace PuzzleKit.Word

variable {w : Width} {a b c : Word w} {items : List (Word w)}

/-- The least common multiple of the integers of a list, one for none. -/
def commonMultiple (items : List (Word w)) : ℤ := Multiset.lcm (items.map val : List ℤ)

/-- The items before the first zero. -/
def beforeZero (items : List (Word w)) : List (Word w) := items.takeWhile (· ≠ 0)

theorem commonMultiple_nil : commonMultiple ([] : List (Word w)) = 1 := rfl

theorem commonMultiple_cons (a : Word w) (items : List (Word w)) :
    commonMultiple (a :: items) = Int.lcm a.val (commonMultiple items) := by
  rw [Int.coe_lcm]
  exact Multiset.lcm_cons a.val (items.map val : List ℤ)

theorem commonMultiple_nonneg (items : List (Word w)) : 0 ≤ commonMultiple items := by
  cases items with
  | nil => exact Int.one_nonneg
  | cons a items => exact commonMultiple_cons a items ▸ Int.natCast_nonneg _

theorem commonMultiple_pos (h : 0 ∉ items) : 0 < commonMultiple items := by
  refine lt_of_le_of_ne (commonMultiple_nonneg items) (Ne.symm ?_)
  rw [commonMultiple, Multiset.lcm_ne_zero_iff, Multiset.mem_coe, List.mem_map]
  rintro ⟨a, ha, hzero⟩
  exact h (ext (b := 0) hzero ▸ ha)

theorem commonMultiple_perm {shuffled : List (Word w)} (h : shuffled.Perm items) :
    commonMultiple shuffled = commonMultiple items :=
  congrArg Multiset.lcm (Multiset.coe_eq_coe.mpr (h.map val))

theorem commonMultiple_dvd_iff {k : ℤ} :
    commonMultiple items ∣ k ↔ ∀ a ∈ items, a.val ∣ k := by
  rw [commonMultiple, Multiset.lcm_dvd]
  simp

theorem lcm_commonMultiple_cons (a b : Word w) (items : List (Word w)) :
    Int.lcm (Int.lcm a.val b.val) (commonMultiple items) =
      Int.lcm a.val (commonMultiple (b :: items)) := by
  rw [commonMultiple_cons, Int.lcm_assoc]

/-! ## The checked fold -/

theorem checkedLcmFrom_cons (a b : Word w) (items : List (Word w)) :
    checkedLcmFrom a (b :: items) = checkedLcm a b >>= fun
      | none => .ok none
      | some next => checkedLcmFrom next items := rfl

theorem checkedLcmFrom_append (a : Word w) (items rest : List (Word w)) :
    checkedLcmFrom a (items ++ rest) = checkedLcmFrom a items >>= fun
      | none => .ok none
      | some next => checkedLcmFrom next rest := by
  induction items generalizing a with
  | nil => rfl
  | cons b items ih =>
      rw [List.cons_append, checkedLcmFrom_cons, checkedLcmFrom_cons]
      cases checkedLcm a b with
      | error fault => rfl
      | ok next =>
          cases next with
          | none => rfl
          | some next => exact ih next

/-- From zero on nothing else is computed. -/
theorem checkedLcmFrom_zero (items : List (Word w)) :
    checkedLcmFrom 0 items = .ok (some 0) := by
  induction items with
  | nil => rfl
  | cons b items ih => exact ih

/-- A partial multiple divides the multiple of all items, so where it does not fit,
neither does the whole. -/
theorem checkedLcmFrom_eq (ha : 0 < a.val) (h : 0 ∉ items) :
    checkedLcmFrom a items = .ok (ofInt? w (Int.lcm a.val (commonMultiple items))) := by
  induction items generalizing a with
  | nil =>
      rw [commonMultiple_nil, Int.lcm_one_right, ← Int.abs_eq_natAbs, abs_of_pos ha, ofInt?_val]
      rfl
  | cons b items ih =>
      obtain ⟨hb, hitems⟩ := not_or.mp (List.mem_cons.not.mp h)
      have hb : b.val ≠ 0 := fun hzero => hb (ext hzero).symm
      have hpos := commonMultiple_pos hitems
      have hleast : ¬BothLeast a b := not_bothLeast (abs_le_max_of_nonneg ha.le)
      rw [checkedLcmFrom_cons, checkedLcm_eq hleast, ← lcm_commonMultiple_cons]
      cases hnext : ofInt? w (Int.lcm a.val b.val : ℤ) with
      | some next =>
          have hval := ofInt?_eq_some_iff.mp hnext
          have hnextPos : 0 < next.val := by
            rw [hval]
            exact Int.natCast_pos.mpr (Int.lcm_pos ha.ne' hb)
          rw [← hval]
          exact ih hnextPos hitems
      | none =>
          -- Nothing is known of the items to come but that their multiple is not zero.
          have hover := (ofInt?_eq_none_iff (Int.natCast_nonneg _)).mp hnext
          have hpart : 0 < Int.lcm (Int.lcm a.val b.val) (commonMultiple items) :=
            Int.lcm_pos (Int.natCast_ne_zero.mpr (Int.lcm_pos ha.ne' hb).ne') hpos.ne'
          have hle := Int.le_of_dvd (Int.natCast_pos.mpr hpart) (Int.dvd_lcm_left _ _)
          rw [(ofInt?_eq_none_iff (Int.natCast_nonneg _)).mpr (hover.trans_le hle)]
          rfl

theorem checkedLcmAll_eq (h : 0 ∉ items) :
    checkedLcmAll items = .ok (ofInt? w (commonMultiple items)) := by
  have hone : (1 : Word w).val = 1 := rfl
  rw [checkedLcmAll, checkedLcmFrom_eq (by rw [hone]; decide) h, hone, Int.lcm_one_left,
    ← Int.abs_eq_natAbs, abs_of_nonneg (commonMultiple_nonneg items)]

theorem checkedLcmAll_spec (hitems : 0 ∉ items) (h : checkedLcmAll items = .ok (some c)) :
    0 < c.val ∧ ∀ k : ℤ, c.val ∣ k ↔ ∀ b ∈ items, b.val ∣ k := by
  rw [checkedLcmAll_eq hitems, Except.ok.injEq, ofInt?_eq_some_iff] at h
  rw [h]
  exact ⟨commonMultiple_pos hitems, fun k => commonMultiple_dvd_iff⟩

theorem beforeZero_append {front : List (Word w)} (h : 0 ∉ front) (rest : List (Word w)) :
    beforeZero (front ++ 0 :: rest) = front := by
  have hfront : ∀ a ∈ front, decide (a ≠ 0) = true := by
    intro a ha
    rw [decide_eq_true_eq]
    rintro rfl
    exact h ha
  rw [beforeZero, List.takeWhile_append_of_pos hfront, List.takeWhile_cons_of_neg (by simp),
    List.append_nil]

/-- A zero hides the items after it, and not those before it. -/
theorem checkedLcmAll_of_mem_zero (h : 0 ∈ items) :
    checkedLcmAll items =
      .ok (if commonMultiple (beforeZero items) ≤ w.max then some 0 else none) := by
  obtain ⟨front, rest, rfl, hfront⟩ := List.eq_append_cons_of_mem h
  have hall := checkedLcmAll_eq hfront
  rw [checkedLcmAll] at hall ⊢
  rw [checkedLcmFrom_append, hall, beforeZero_append hfront]
  cases hc : ofInt? w (commonMultiple front) with
  | some c =>
      rw [if_pos (ofInt?_eq_some_iff.mp hc ▸ c.le_max)]
      show checkedLcmFrom c (0 :: rest) = .ok (some 0)
      rw [checkedLcmFrom_cons, checkedLcm, if_pos (.inr rfl)]
      exact checkedLcmFrom_zero rest
  | none =>
      rw [if_neg (not_le.mpr ((ofInt?_eq_none_iff (commonMultiple_nonneg front)).mp hc))]
      rfl

/-- Without a zero the answer is the multiple of the list or none, and with a zero it is
zero or none. There is never a fault. -/
theorem checkedLcmAll_exact (items : List (Word w)) :
    (∀ fault, checkedLcmAll items ≠ .error fault) ∧
    (0 ∉ items →
      (∀ l, checkedLcmAll items = .ok (some l) ↔ l.val = commonMultiple items) ∧
      (checkedLcmAll items = .ok none ↔ w.max < commonMultiple items) ∧
      ∀ shuffled, shuffled.Perm items → checkedLcmAll shuffled = checkedLcmAll items) ∧
    (0 ∈ items →
      (checkedLcmAll items = .ok (some 0) ↔ commonMultiple (beforeZero items) ≤ w.max) ∧
      (checkedLcmAll items = .ok none ↔ w.max < commonMultiple (beforeZero items))) := by
  refine ⟨fun fault => ?_, fun h => ⟨fun l => ?_, ?_, fun shuffled hperm => ?_⟩, fun h => ?_⟩
  · by_cases h : 0 ∈ items
    · rw [checkedLcmAll_of_mem_zero h]
      exact (nomatch ·)
    · rw [checkedLcmAll_eq h]
      exact (nomatch ·)
  · rw [checkedLcmAll_eq h, Except.ok.injEq, ofInt?_eq_some_iff]
  · rw [checkedLcmAll_eq h, Except.ok.injEq, ofInt?_eq_none_iff (commonMultiple_nonneg items)]
  · rw [checkedLcmAll_eq h, checkedLcmAll_eq (hperm.mem_iff.not.mpr h), commonMultiple_perm hperm]
  · rw [checkedLcmAll_of_mem_zero h]
    by_cases hle : commonMultiple (beforeZero items) ≤ w.max
    · simp [hle]
    · simp [hle, not_le.mp hle]

/-- Two items that share a factor, and one of them is negative. -/
def sharing : List (Word .i8) := [⟨6, by decide, by decide⟩, ⟨-4, by decide, by decide⟩]

theorem checkedLcmAll_exact_least :
    (0 ∉ sharing ∧ checkedLcmAll sharing = .ok (some ⟨12, by decide, by decide⟩) ∧
      checkedLcmAll sharing.reverse = checkedLcmAll sharing) ∧
    (0 ∉ [minimum .i8] ∧ checkedLcmAll [minimum .i8] = .ok none) ∧
    (0 ∈ sharing ++ [0, minimum .i8] ∧
      checkedLcmAll (sharing ++ [0, minimum .i8]) = .ok (some 0)) ∧
    (0 ∈ [minimum .i8, 0] ∧ checkedLcmAll [minimum .i8, 0] = .ok none) := by
  have hsharing : 0 ∉ sharing := by decide
  have hleast : 0 ∉ [minimum .i8] := by decide
  have hhidden : 0 ∈ sharing ++ [0, minimum .i8] := by decide
  have hlate : 0 ∈ [minimum .i8, 0] := by decide
  obtain ⟨hsome, -, hperm⟩ := (checkedLcmAll_exact sharing).2.1 hsharing
  exact ⟨⟨hsharing, (hsome _).mpr (by decide +kernel), hperm _ (List.reverse_perm sharing)⟩,
    ⟨hleast, ((checkedLcmAll_exact _).2.1 hleast).2.1.mpr (by decide +kernel)⟩,
    ⟨hhidden, ((checkedLcmAll_exact _).2.2 hhidden).1.mpr (by decide +kernel)⟩,
    ⟨hlate, ((checkedLcmAll_exact _).2.2 hlate).2.mpr (by decide +kernel)⟩⟩

/-! ## The fold that passes faults on -/

/-- From the first zero on all items have absolute values. -/
def TailFits (items : List (Word w)) : Prop :=
  ∀ b ∈ items.dropWhile (· ≠ 0), |b.val| ≤ w.max

theorem tailFits_cons_zero (items : List (Word w)) :
    TailFits (0 :: items) ↔ ∀ b ∈ items, |b.val| ≤ w.max := by
  have hzero : |(0 : Word w).val| ≤ w.max := abs_le_max_of_nonneg (le_refl 0)
  rw [TailFits, List.dropWhile_cons_of_neg (by simp), List.forall_mem_cons, and_iff_right hzero]

theorem tailFits_cons (ha : a.val ≠ 0) (items : List (Word w)) :
    TailFits (a :: items) ↔ TailFits items := by
  have hne : a ≠ 0 := fun hzero => ha (congrArg val hzero)
  rw [TailFits, List.dropWhile_cons_of_pos (by simp [hne]), TailFits]

theorem tailFits_step (ha : |a.val| ≤ w.max) (hc : c.val = Int.lcm a.val b.val) :
    TailFits (a :: b :: items) ↔
      (Int.gcd a.val b.val : ℤ) ≤ w.max ∧ TailFits (c :: items) := by
  -- The first zero is the total, or the item after it, or neither. Only in the first case
  -- is the divisor not bounded by what is known already.
  by_cases hazero : a.val = 0
  · have hczero : c = 0 := ext (by rw [hc, hazero, Int.lcm_zero_left]; rfl)
    have hgcd : (Int.gcd a.val b.val : ℤ) = |b.val| := by
      rw [hazero, Int.gcd_zero_left, Int.abs_eq_natAbs]
    rw [hgcd, ext (a := a) (b := 0) hazero, hczero, tailFits_cons_zero, tailFits_cons_zero,
      List.forall_mem_cons]
  · by_cases hbzero : b.val = 0
    · have hczero : c = 0 := ext (by rw [hc, hbzero, Int.lcm_zero_right]; rfl)
      rw [tailFits_cons hazero, ext (a := b) (b := 0) hbzero, hczero]
      exact (and_iff_right ((gcd_le_abs hazero).trans ha)).symm
    · have hcne : c.val ≠ 0 := by
        rw [hc]
        exact Int.natCast_ne_zero.mpr (Int.lcm_pos hazero hbzero).ne'
      have hgcd : (Int.gcd a.val b.val : ℤ) ≤ w.max := by
        have hle := gcd_le_lcm hazero hbzero
        have hmax := c.le_max
        omega
      rw [tailFits_cons hazero, tailFits_cons hbzero, tailFits_cons hcne, and_iff_right hgcd]

theorem checkedLcmFrom_cons_eq_ok_some_iff (ha : |a.val| ≤ w.max) :
    checkedLcmFrom a (b :: items) = .ok (some c) ↔
      ∃ next : Word w, next.val = Int.lcm a.val b.val ∧ checkedLcmFrom next items = .ok (some c) := by
  rw [checkedLcmFrom_cons, checkedLcm_eq (not_bothLeast ha)]
  cases hnext : ofInt? w (Int.lcm a.val b.val : ℤ) with
  | none =>
      refine ⟨(nomatch ·), ?_⟩
      rintro ⟨next, hval, -⟩
      rw [ofInt?_eq_some_iff.mpr hval] at hnext
      cases hnext
  | some next =>
      have hval := ofInt?_eq_some_iff.mp hnext
      refine ⟨fun h => ⟨next, hval, h⟩, ?_⟩
      rintro ⟨next', hval', h⟩
      rwa [ext (hval'.trans hval.symm)] at h

/-- Both folds compute the same multiples on the way. What one of them refuses beyond
that is an absolute value after the first zero. -/
theorem foldlM_lcm_eq_ok_iff (ha : |a.val| ≤ w.max) :
    items.foldlM lcm a = .ok c ↔
      checkedLcmFrom a items = .ok (some c) ∧ TailFits (a :: items) := by
  induction items generalizing a with
  | nil =>
      have hfits : TailFits [a] := by
        intro b hb
        rwa [List.mem_singleton.mp (List.dropWhile_subset _ hb)]
      rw [and_iff_left hfits]
      simp [checkedLcmFrom, pure, Except.pure]
  | cons b items ih =>
      rw [List.foldlM_cons, bind_eq_ok_iff, checkedLcmFrom_cons_eq_ok_some_iff ha]
      constructor
      · rintro ⟨next, hnext, hrest⟩
        obtain ⟨hval, hgcd⟩ := lcm_eq_ok_iff.mp hnext
        have hle : |next.val| ≤ w.max := abs_le_max_of_nonneg (by omega)
        obtain ⟨hchecked, hfits⟩ := (ih hle).mp hrest
        exact ⟨⟨next, hval, hchecked⟩, (tailFits_step ha hval).mpr ⟨hgcd, hfits⟩⟩
      · rintro ⟨⟨next, hval, hchecked⟩, hfits⟩
        have hle : |next.val| ≤ w.max := abs_le_max_of_nonneg (by omega)
        obtain ⟨hgcd, hfits⟩ := (tailFits_step ha hval).mp hfits
        exact ⟨next, lcm_eq_ok_iff.mpr ⟨hval, hgcd⟩, (ih hle).mpr ⟨hchecked, hfits⟩⟩

theorem lcmAll_cons_eq_ok_iff :
    lcmAll (a :: items) = .ok (some c) ↔ items.foldlM lcm a = .ok c := by
  rw [lcmAll, reduceM, bind_eq_ok_iff]
  simp

theorem lcmAll_cons_ne_none : lcmAll (a :: items) ≠ .ok none := by
  intro h
  obtain ⟨c, -, hc⟩ := bind_eq_ok_iff.mp h
  cases hc

theorem checkedLcm_one (a : Word w) : checkedLcm 1 a = .ok (ofInt? w |a.val|) := by
  have hone : (1 : Word w).val = 1 := rfl
  have hle : |(1 : Word w).val| ≤ w.max := w.one_le_max
  rw [checkedLcm_eq (not_bothLeast hle), hone, Int.lcm_one_left, Int.abs_eq_natAbs]

/-- Starting from one takes the absolute value of the first item, which is as good as
the item for the multiple of it and a second one. -/
theorem checkedLcmAll_cons_cons (ha : |a.val| ≤ w.max) :
    checkedLcmAll (a :: b :: items) = checkedLcmFrom a (b :: items) := by
  obtain ⟨size, hsize, hval⟩ := exists_abs ha
  have hle : |size.val| ≤ w.max := by rwa [hval, abs_abs]
  have hlcm : Int.lcm size.val b.val = Int.lcm a.val b.val := by
    rw [hval, Int.lcm, Int.lcm, Int.natAbs_abs]
  rw [checkedLcmAll, checkedLcmFrom_cons, checkedLcm_one, ← hval, ofInt?_val]
  show checkedLcmFrom size (b :: items) = checkedLcmFrom a (b :: items)
  rw [checkedLcmFrom_cons, checkedLcmFrom_cons, checkedLcm_eq (not_bothLeast hle),
    checkedLcm_eq (not_bothLeast ha), hlcm]

theorem checkedLcmAll_of_max_lt (ha : w.max < |a.val|) :
    checkedLcmAll (a :: items) = .ok none := by
  rw [checkedLcmAll, checkedLcmFrom_cons, checkedLcm_one,
    (ofInt?_eq_none_iff (abs_nonneg _)).mpr ha]
  rfl

/-- The least signed word has no multiple, not even with zero. -/
theorem lcm_ne_ok (ha : w.max < |a.val|) : lcm a b ≠ .ok c := by
  intro h
  obtain ⟨hval, hgcd⟩ := lcm_eq_ok_iff.mp h
  by_cases hb : b.val = 0
  · rw [hb, Int.gcd_zero_right, ← Int.abs_eq_natAbs] at hgcd
    omega
  · have hazero : a.val ≠ 0 := by
      have hone := w.one_le_max
      rw [← abs_pos]
      omega
    have hpos : (0 : ℤ) < Int.lcm a.val b.val := Int.natCast_pos.mpr (Int.lcm_pos hazero hb)
    have hle := Int.le_of_dvd hpos ((abs_dvd _ _).mpr (Int.dvd_lcm_left a.val b.val))
    have hmax := c.le_max
    omega

/-- The two folds differ only where the least signed word follows a zero. -/
theorem lcmAll_eq_ok_iff (hlen : 2 ≤ items.length) :
    lcmAll items = .ok (some c) ↔ checkedLcmAll items = .ok (some c) ∧ TailFits items := by
  match items with
  | a :: b :: items =>
      rw [lcmAll_cons_eq_ok_iff]
      by_cases ha : |a.val| ≤ w.max
      · rw [foldlM_lcm_eq_ok_iff ha, checkedLcmAll_cons_cons ha]
      · rw [checkedLcmAll_of_max_lt (not_le.mp ha), List.foldlM_cons, bind_eq_ok_iff]
        constructor
        · rintro ⟨next, hnext, -⟩
          exact absurd hnext (lcm_ne_ok (not_le.mp ha))
        · rintro ⟨h, -⟩
          cases h

/-- What one fold computes the other computes, and where the checked one has no answer
there is a fault. The other way it takes that no least signed word follows a zero. -/
theorem lcmAll_agrees (hlen : 2 ≤ items.length) :
    (∀ c, lcmAll items = .ok (some c) → checkedLcmAll items = .ok (some c)) ∧
    (checkedLcmAll items = .ok none → ∃ fault, lcmAll items = .error fault) ∧
    ∀ c, checkedLcmAll items = .ok (some c) → TailFits items → lcmAll items = .ok (some c) := by
  refine ⟨fun c h => ((lcmAll_eq_ok_iff hlen).mp h).1, fun hnone => ?_,
    fun c h hfits => (lcmAll_eq_ok_iff hlen).mpr ⟨h, hfits⟩⟩
  cases h : lcmAll items with
  | error fault => exact ⟨fault, rfl⟩
  | ok total =>
      cases total with
      | none =>
          match items with
          | a :: items => exact absurd h lcmAll_cons_ne_none
      | some c =>
          rw [((lcmAll_eq_ok_iff hlen).mp h).1] at hnone
          cases hnone

theorem lcmAll_agrees_sharing :
    2 ≤ sharing.length ∧
    lcmAll sharing = .ok (some ⟨12, by decide, by decide⟩) ∧
    checkedLcmAll sharing = .ok (some ⟨12, by decide, by decide⟩) ∧
    2 ≤ [minimum .i8, 0].length ∧
    checkedLcmAll [minimum .i8, 0] = .ok none ∧
    (∃ fault, lcmAll [minimum .i8, 0] = .error fault) ∧
    2 ≤ (sharing ++ [0, 1]).length ∧
    checkedLcmAll (sharing ++ [0, 1]) = .ok (some 0) ∧
    TailFits (sharing ++ [0, 1]) ∧
    lcmAll (sharing ++ [0, 1]) = .ok (some 0) := by
  have hlcm : lcmAll sharing = .ok (some ⟨12, by decide, by decide⟩) := by decide +kernel
  have hnone : checkedLcmAll [minimum .i8, 0] = .ok none := by decide +kernel
  have hzero : checkedLcmAll (sharing ++ [0, 1]) = .ok (some 0) := by decide +kernel
  have hfits : TailFits (sharing ++ [0, 1]) := by
    unfold TailFits
    decide
  exact ⟨by decide, hlcm, (lcmAll_agrees (by decide)).1 _ hlcm, by decide, hnone,
    (lcmAll_agrees (by decide)).2.1 hnone, by decide, hzero, hfits,
    (lcmAll_agrees (by decide)).2.2 _ hzero hfits⟩

end PuzzleKit.Word

import Mathlib.Algebra.Order.Group.Abs
import Mathlib.Algebra.Order.Group.Int
import Mathlib.Algebra.Order.Group.Unbundled.Int
import Mathlib.Algebra.Order.Ring.Int
import PuzzleKit.Integer.Checked

/-!
# Where machine integers are exact

Every operation of words computes an integer and then fits it, so what there is
to know of one is the integer and when it is in range. The lemmas here give both
at once: from a bound on the integer comes a word that the operation returns and
whose value is that integer.

A bound on an absolute value serves signed and unsigned widths alike. It leaves
out just the least signed word (`abs_le_max_iff`), which is the one that the
greatest common divisor treats in a way of its own.
-/

namespace PuzzleKit.Word

variable {w : Width} {a b : Word w} {v : Int} {fault : ArithmeticFault}

theorem ext_iff : a = b ↔ a.val = b.val := ⟨congrArg val, ext⟩

theorem lt_iff : a < b ↔ a.val < b.val := Iff.rfl

theorem min_val (a b : Word w) : (min a b).val = min a.val b.val :=
  apply_ite Word.val (a ≤ b) a b

theorem max_val (a b : Word w) : (max a b).val = max a.val b.val :=
  apply_ite Word.val (a ≤ b) b a

theorem ofInt?_eq_some_iff : ofInt? w v = some a ↔ a.val = v := by
  unfold ofInt?
  split
  · exact ⟨fun h => by cases h; rfl, fun h => congrArg some (ext h.symm)⟩
  · next hrange =>
      exact ⟨(nomatch ·), fun h => absurd ⟨h ▸ a.min_le, h ▸ a.le_max⟩ hrange⟩

theorem ofInt?_val (a : Word w) : ofInt? w a.val = some a := ofInt?_eq_some_iff.mpr rfl

theorem fit_eq_ok_iff : fit w fault v = .ok a ↔ a.val = v := by
  rw [← ofInt?_eq_some_iff, fit]
  split
  · next h => rw [h]; exact ⟨fun h => by cases h; rfl, fun h => by cases h; rfl⟩
  · next h => rw [h]; exact ⟨(nomatch ·), (nomatch ·)⟩

theorem fit_val (fault : ArithmeticFault) (a : Word w) : fit w fault a.val = .ok a :=
  fit_eq_ok_iff.mpr rfl

theorem fault_of_fit {e : ArithmeticFault} (h : fit w fault v = .error e) : e = fault := by
  rw [fit] at h
  split at h <;> cases h
  rfl

theorem exists_fit (fault : ArithmeticFault) (hmin : w.min ≤ v) (hmax : v ≤ w.max) :
    ∃ a, fit w fault v = .ok a ∧ a.val = v :=
  ⟨⟨v, hmin, hmax⟩, fit_eq_ok_iff.mpr rfl, rfl⟩

theorem exists_fit_of_nonneg (fault : ArithmeticFault) (hv : 0 ≤ v) (hmax : v ≤ w.max) :
    ∃ a, fit w fault v = .ok a ∧ a.val = v :=
  exists_fit fault (w.min_le_zero.trans hv) hmax

theorem ofInt?_eq_none_iff (hv : 0 ≤ v) : ofInt? w v = none ↔ w.max < v := by
  have hmin := w.min_le_zero
  unfold ofInt?
  split
  · next hrange => exact ⟨(nomatch ·), fun h => absurd hrange.2 (not_le.mpr h)⟩
  · next hrange => exact ⟨fun _ => by omega, fun _ => rfl⟩

theorem fit_eq_error (hv : 0 ≤ v) (hmax : w.max < v) : fit w fault v = .error fault := by
  rw [fit, (ofInt?_eq_none_iff hv).mpr hmax]

/-- The next word, held at the greatest one. -/
theorem saturatingSucc_val (a : Word w) : a.saturatingSucc.val = min (a.val + 1) w.max := by
  unfold saturatingSucc
  split
  · next b hb =>
      rw [ofInt?_eq_some_iff] at hb
      rw [hb, min_eq_left (hb ▸ b.le_max)]
  · next hnone =>
      have hgreatest : w.max ≤ a.val + 1 := by
        by_contra hlt
        have hfits : ofInt? w (a.val + 1) = some ⟨a.val + 1, by have := a.min_le; omega, by omega⟩ :=
          ofInt?_eq_some_iff.mpr rfl
        rw [hnone] at hfits
        cases hfits
      exact (min_eq_right hgreatest).symm

/-- The word so much further, held at the greatest one. -/
def offset (a : Word w) (k : Nat) : Word w :=
  ⟨min (a.val + k) w.max, le_min (by have := a.min_le; omega) (a.min_le.trans a.le_max),
    min_le_right _ _⟩

theorem offset_val {k : Nat} (h : a.val + k ≤ w.max) : (a.offset k).val = a.val + k :=
  min_eq_left h

theorem min_eq_of_signed (hw : w.signed = true) : w.min = -w.max - 1 := by
  simp only [Width.min, Width.max, hw, if_true]
  omega

theorem exists_fit_of_abs_le (fault : ArithmeticFault) (hw : w.signed = true)
    (hv : |v| ≤ w.max) : ∃ a, fit w fault v = .ok a ∧ a.val = v := by
  have hmin := min_eq_of_signed hw
  obtain ⟨hlow, hhigh⟩ := abs_le.mp hv
  exact exists_fit fault (by omega) hhigh

theorem signed_of_neg (ha : a.val < 0) : w.signed = true := by
  by_contra hunsigned
  have hmin := a.min_le
  rw [Width.min, if_neg hunsigned] at hmin
  omega

/-- A product is negative in signed widths only. -/
theorem signed_of_mul_neg (h : a.val * b.val < 0) : w.signed = true := by
  by_cases ha : a.val < 0
  · exact signed_of_neg ha
  · exact signed_of_neg (a := b) (neg_of_mul_neg_right h (not_lt.mp ha))

/-- A number that is as far from zero as a word is one, where its sign is allowed. -/
theorem min_le_of_abs_le (hsign : v < 0 → w.signed = true) (hv : |v| ≤ w.max) : w.min ≤ v := by
  by_cases hneg : v < 0
  · have hmin := min_eq_of_signed (hsign hneg)
    have hlow := (abs_le.mp hv).1
    omega
  · exact w.min_le_zero.trans (not_lt.mp hneg)

theorem abs_eq_fit (a : Word w) : a.abs = fit w .negOverflow |a.val| := by
  unfold abs
  split
  · next hneg => rw [abs_of_neg hneg, neg]
  · next hneg =>
      rw [abs_of_nonneg (not_lt.mp hneg), fit_val]

theorem exists_abs (ha : |a.val| ≤ w.max) : ∃ c, a.abs = .ok c ∧ c.val = |a.val| := by
  rw [abs_eq_fit]
  exact exists_fit_of_nonneg _ (abs_nonneg _) ha

theorem abs_le_max_of_nonneg (ha : 0 ≤ a.val) : |a.val| ≤ w.max :=
  (abs_of_nonneg ha).trans_le a.le_max

/-- The least signed word is the only one without an absolute value. -/
theorem abs_le_max_iff : |a.val| ≤ w.max ↔ ¬(w.signed = true ∧ a = minimum w) := by
  constructor
  · rintro ha ⟨hw, rfl⟩
    have hmin := min_eq_of_signed hw
    have hlow := (abs_le.mp ha).1
    simp only [minimum] at hlow
    omega
  · intro hleast
    refine abs_le.mpr ⟨?_, a.le_max⟩
    by_contra hlow
    have hone := w.one_le_max
    have hw : w.signed = true := signed_of_neg (a := a) (by omega)
    have hmin := min_eq_of_signed hw
    have hle := a.min_le
    exact hleast ⟨hw, ext (show a.val = w.min by omega)⟩

theorem exists_div (hb : b.val ≠ 0) (hmin : w.min ≤ a.val.tdiv b.val)
    (hmax : a.val.tdiv b.val ≤ w.max) : ∃ c, a.div b = .ok c ∧ c.val = a.val.tdiv b.val := by
  rw [div, if_neg hb]
  exact exists_fit _ hmin hmax

/-- A word divided by a positive divisor of it is no further from zero. -/
theorem exists_div_of_dvd (hb : 0 < b.val) (hdvd : b.val ∣ a.val) :
    ∃ c, a.div b = .ok c ∧ b.val * c.val = a.val := by
  have hquotient : a.val.tdiv b.val = a.val / b.val := Int.tdiv_eq_ediv_of_dvd hdvd
  have hlow : w.min ≤ a.val / b.val :=
    Int.le_ediv_of_mul_le hb ((mul_le_of_one_le_right w.min_le_zero hb).trans a.min_le)
  have hhigh : a.val / b.val ≤ w.max :=
    Int.ediv_le_of_le_mul hb
      (a.le_max.trans (le_mul_of_one_le_right (by have := w.one_le_max; omega) hb))
  obtain ⟨c, hc, hval⟩ := exists_div (a := a) hb.ne' (hquotient ▸ hlow) (hquotient ▸ hhigh)
  exact ⟨c, hc, by rw [hval, hquotient, Int.mul_ediv_cancel' hdvd]⟩

/-- A number between zero and a word is one. -/
theorem exists_fit_of_between (fault : ArithmeticFault) (hpos : 0 ≤ a.val → 0 ≤ v)
    (hneg : a.val ≤ 0 → v ≤ 0) (hle : v.natAbs ≤ a.val.natAbs) :
    ∃ c, fit w fault v = .ok c ∧ c.val = v := by
  have hmin := a.min_le
  have hmax := a.le_max
  have hzero := w.min_le_zero
  have hone := w.one_le_max
  exact exists_fit fault (by omega) (by omega)

/-- A remainder by a positive word is no further from zero than the word it is taken of. -/
theorem exists_rem (a : Word w) (hb : 0 < b.val) :
    ∃ r, a.rem b = .ok r ∧ r.val = a.val.tmod b.val := by
  -- Quotient and remainder toward zero have the sign of the word they are taken of.
  have hquotient : a.val ≤ 0 → a.val.tdiv b.val ≤ 0 := by
    intro ha
    have hnonneg := Int.tdiv_nonneg (neg_nonneg.mpr ha) hb.le
    rwa [Int.neg_tdiv, neg_nonneg] at hnonneg
  have hremainder : a.val ≤ 0 → a.val.tmod b.val ≤ 0 := by
    intro ha
    have hnonneg := Int.tmod_nonneg b.val (neg_nonneg.mpr ha)
    rwa [Int.neg_tmod, neg_nonneg] at hnonneg
  have hle : (a.val.tmod b.val).natAbs ≤ a.val.natAbs := by
    rw [Int.natAbs_tmod]
    exact Nat.mod_le ..
  obtain ⟨q, hq, -⟩ := exists_fit_of_between .remOverflow (fun ha => Int.tdiv_nonneg ha hb.le)
    hquotient (Int.natAbs_tdiv_le_natAbs ..)
  obtain ⟨r, hr, hval⟩ :=
    exists_fit_of_between .remOverflow (Int.tmod_nonneg b.val) hremainder hle
  refine ⟨r, ?_, hval⟩
  rw [rem, if_neg hb.ne', hq]
  exact hr

end PuzzleKit.Word

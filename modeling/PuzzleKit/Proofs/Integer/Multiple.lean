import Mathlib.Algebra.Order.Ring.Abs
import PuzzleKit.Proofs.Integer.Divisor

/-!
# Least common multiples of two words

One argument is divided by the greatest common divisor and the other is taken that
many times. The quotient is never a problem, since the divisor is positive and leaves
no remainder. The product is the multiple up to its sign, and it is here that a width
can be too small: the least signed word is a product that can be held although the
multiple, which is its absolute value, cannot.

So there are two ways to fail: the multiple does not fit, or the divisor does not. The
divisor is computed first. With zero it is the other word's absolute value, and the
operation that only reports what does not fit asks for a zero before that. For words
other than zero the divisor is no more than the multiple, so the two fail together, and
that happens to one pair, the least signed word twice. It is a fault there also for the
operation that has `none` for a multiple that does not fit.
-/

namespace PuzzleKit.Word

variable {w : Width} {a b c : Word w}

theorem gcd_comm (a b : Word w) : gcd a b = gcd b a := by
  rw [gcd_eq_fit, gcd_eq_fit, Int.gcd_comm]

theorem abs_cofactor_mul {g k x y : ℤ} (hg : 0 < g) (hgcd : g = Int.gcd x y) (hk : g * k = x) :
    |k * y| = Int.lcm x y := by
  refine Int.eq_of_mul_eq_mul_left hg.ne' ?_
  calc g * |k * y|
      = |g * (k * y)| := by rw [abs_mul g, abs_of_pos hg]
    _ = |x * y| := by rw [← mul_assoc, hk]
    _ = g * Int.lcm x y := by
        rw [hgcd, ← Int.natCast_mul, Int.gcd_mul_lcm, Int.abs_eq_natAbs, Int.natAbs_mul]

/-- Where the divisor is a word, so is the cofactor. -/
theorem exists_cofactor (hzero : a.val ≠ 0 ∨ b.val ≠ 0)
    (hgcd : (Int.gcd a.val b.val : ℤ) ≤ w.max) :
    ∃ divisor k, gcd a b = .ok divisor ∧ a.div divisor = .ok k ∧
      |k.val * b.val| = Int.lcm a.val b.val := by
  obtain ⟨divisor, hfit, hval⟩ := exists_fit_of_nonneg .negOverflow (Int.natCast_nonneg _) hgcd
  have hpos : 0 < divisor.val := by
    rw [hval]
    exact Int.natCast_pos.mpr (Int.gcd_pos_iff.mpr hzero)
  obtain ⟨k, hk, hmul⟩ := exists_div_of_dvd hpos (hval ▸ Int.gcd_dvd_left a.val b.val)
  exact ⟨divisor, k, by rw [gcd_eq_fit, hfit], hk, abs_cofactor_mul hpos hval hmul⟩

/-! ## The absolute value of a product -/

theorem mul_abs_eq_ok_iff : a.mul b >>= abs = .ok c ↔ c.val = |a.val * b.val| := by
  rw [bind_eq_ok_iff]
  constructor
  · rintro ⟨product, hproduct, habs⟩
    rw [abs_eq_fit, fit_eq_ok_iff] at habs
    rw [habs, fit_eq_ok_iff.mp hproduct]
  · intro hc
    have hle : |a.val * b.val| ≤ w.max := hc ▸ c.le_max
    obtain ⟨product, hproduct, hval⟩ := exists_fit .mulOverflow
      (min_le_of_abs_le signed_of_mul_neg hle) ((le_abs_self _).trans hle)
    exact ⟨product, hproduct, by rw [abs_eq_fit, fit_eq_ok_iff, hval, hc]⟩

theorem mul?_abs (a b : Word w) :
    (match a.mul? b with
      | none => .ok none
      | some product =>
          .ok (if product.val < 0 then (0 : Word w).sub? product else some product)) =
      (.ok (ofInt? w |a.val * b.val|) : Except ArithmeticFault (Option (Word w))) := by
  unfold mul?
  split
  · next hnone =>
      have hover : w.max < |a.val * b.val| := by
        by_contra hle
        have hrange := And.intro (min_le_of_abs_le signed_of_mul_neg (not_lt.mp hle))
          ((le_abs_self _).trans (not_lt.mp hle))
        simp [ofInt?, hrange] at hnone
      rw [(ofInt?_eq_none_iff (abs_nonneg _)).mpr hover]
  · next product hproduct =>
      rw [ofInt?_eq_some_iff] at hproduct
      rw [← hproduct]
      split
      · next hneg =>
          have hval : (0 : Word w).val - product.val = -product.val := Int.zero_sub product.val
          rw [sub?, hval, abs_of_neg hneg]
      · next hneg => rw [abs_of_nonneg (not_lt.mp hneg), ofInt?_val]

/-! ## The two operations -/

/-- The multiple is refused if it does not fit or if the divisor does not. -/
theorem lcm_eq_ok_iff :
    lcm a b = .ok c ↔ c.val = Int.lcm a.val b.val ∧ (Int.gcd a.val b.val : ℤ) ≤ w.max := by
  unfold lcm
  split
  · next hzero =>
      have hone := w.one_le_max
      have hgcd : ((0 : ℕ) : ℤ) ≤ w.max := by omega
      rw [hzero.1, hzero.2, Int.lcm_zero_left, Int.gcd_zero_left, Int.natAbs_zero,
        and_iff_left hgcd, Except.ok.injEq, ext_iff, eq_comm]
      rfl
  · next hzero =>
      by_cases hgcd : (Int.gcd a.val b.val : ℤ) ≤ w.max
      · obtain ⟨divisor, k, hdivisor, hk, habs⟩ :=
          exists_cofactor (a := b) (b := a) (by omega) (by rwa [Int.gcd_comm])
        rw [gcd_comm] at hdivisor
        rw [mul_comm, Int.lcm_comm] at habs
        rw [hdivisor, and_iff_left hgcd, ← habs, ← mul_abs_eq_ok_iff]
        simp only [bind, Except.bind, hk]
      · rw [gcd_eq_fit, fit_eq_error (Int.natCast_nonneg _) (not_le.mp hgcd)]
        exact ⟨(nomatch ·), fun h => absurd h.2 hgcd⟩

theorem gcd_le_lcm {x y : ℤ} (hx : x ≠ 0) (hy : y ≠ 0) : Int.gcd x y ≤ Int.lcm x y :=
  Nat.le_of_dvd (Int.lcm_pos hx hy)
    (Int.natCast_dvd_natCast.mp ((Int.gcd_dvd_left x y).trans (Int.dvd_lcm_left x y)))

/-- Of words other than zero the divisor fits where the multiple does. -/
theorem exists_lcm (ha : a.val ≠ 0) (hb : b.val ≠ 0) (h : (Int.lcm a.val b.val : ℤ) ≤ w.max) :
    ∃ c, lcm a b = .ok c ∧ c.val = Int.lcm a.val b.val := by
  have hmin := w.min_le_zero
  have hgcd := gcd_le_lcm ha hb
  let c : Word w := ⟨Int.lcm a.val b.val, by omega, h⟩
  exact ⟨c, lcm_eq_ok_iff.mpr ⟨rfl, by omega⟩, rfl⟩

/-- Both are the least word of a signed width. No other two words have a divisor that does
not fit although neither is zero. -/
def BothLeast (a b : Word w) : Prop := w.signed = true ∧ a = minimum w ∧ b = minimum w

theorem BothLeast.max_lt_abs (h : BothLeast a b) : w.max < |a.val| :=
  not_le.mp fun hle => abs_le_max_iff.mp hle ⟨h.1, h.2.1⟩

theorem not_bothLeast (ha : |a.val| ≤ w.max) : ¬BothLeast a b :=
  fun h => not_lt.mpr ha h.max_lt_abs

theorem BothLeast.max_lt_gcd (h : BothLeast a b) : w.max < Int.gcd a.val b.val := by
  have hover := h.max_lt_abs
  obtain ⟨-, rfl, rfl⟩ := h
  rwa [Int.gcd_self, ← Int.abs_eq_natAbs]

theorem BothLeast.max_lt_lcm (h : BothLeast a b) : w.max < Int.lcm a.val b.val := by
  have hover := h.max_lt_abs
  obtain ⟨-, rfl, rfl⟩ := h
  rwa [Int.lcm_self, ← Int.abs_eq_natAbs]

theorem gcd_le_max_of_ne_zero (ha : a.val ≠ 0) (hb : b.val ≠ 0) (h : ¬BothLeast a b) :
    (Int.gcd a.val b.val : ℤ) ≤ w.max := by
  by_cases hle : |a.val| ≤ w.max
  · exact (gcd_le_abs ha).trans hle
  · have hle' : |b.val| ≤ w.max := by
      rw [abs_le_max_iff, not_not] at hle
      exact abs_le_max_iff.mpr fun hleast => h ⟨hle.1, hle.2, hleast.2⟩
    rw [Int.gcd_comm]
    exact (gcd_le_abs hb).trans hle'

theorem checkedLcm_eq (h : ¬BothLeast a b) :
    checkedLcm a b = .ok (ofInt? w (Int.lcm a.val b.val)) := by
  unfold checkedLcm
  split
  · next hzero =>
      rw [Int.lcm_eq_zero_iff.mpr hzero]
      exact congrArg Except.ok (ofInt?_val 0).symm
  · next hzero =>
      rw [not_or] at hzero
      obtain ⟨divisor, k, hdivisor, hk, habs⟩ :=
        exists_cofactor (.inl hzero.1) (gcd_le_max_of_ne_zero hzero.1 hzero.2 h)
      rw [hdivisor, ← habs]
      simp only [bind, Except.bind, hk]
      exact mul?_abs k b

theorem BothLeast.checkedLcm_eq (h : BothLeast a b) :
    checkedLcm a b = .error .negOverflow := by
  have hzero : ¬(a.val = 0 ∨ b.val = 0) := by
    have hone := w.one_le_max
    have hover := h.max_lt_gcd
    obtain ⟨-, rfl, rfl⟩ := h
    rintro (hzero | hzero) <;> simp [hzero] at hover <;> omega
  rw [checkedLcm, if_neg hzero, gcd_eq_fit, fit_eq_error (Int.natCast_nonneg _) h.max_lt_gcd]
  rfl

/-- The checked multiple is the least common one where that fits and `none` where it
does not, with the one exception of the least signed word twice. -/
theorem checkedLcm_exact (a b : Word w) :
    (∀ l, checkedLcm a b = .ok (some l) ↔ l.val = Int.lcm a.val b.val) ∧
    (checkedLcm a b = .ok none ↔ w.max < Int.lcm a.val b.val ∧ ¬BothLeast a b) ∧
    ∀ fault, checkedLcm a b = .error fault ↔ fault = .negOverflow ∧ BothLeast a b := by
  by_cases h : BothLeast a b
  · have hover := h.max_lt_lcm
    rw [h.checkedLcm_eq]
    refine ⟨fun l => ⟨(nomatch ·), fun hl => ?_⟩, ⟨(nomatch ·), fun hnone => absurd h hnone.2⟩,
      fun fault => ?_⟩
    · have hle := l.le_max
      omega
    · rw [Except.error.injEq, and_iff_left h, eq_comm]
  · rw [checkedLcm_eq h]
    refine ⟨fun l => ?_, ?_, fun fault => ⟨(nomatch ·), fun hboth => absurd hboth.2 h⟩⟩
    · rw [Except.ok.injEq, ofInt?_eq_some_iff]
    · rw [Except.ok.injEq, ofInt?_eq_none_iff (Int.natCast_nonneg _), and_iff_left h]

/-- A multiple that does not fit is a fault here, and not `none`. -/
theorem checkedLcm_least_refused :
    checkedLcm (minimum .i8) (minimum .i8) = .error .negOverflow ∧
      Width.i8.max < Int.lcm (minimum .i8).val (minimum .i8).val :=
  ⟨BothLeast.checkedLcm_eq ⟨rfl, rfl, rfl⟩, by decide⟩

end PuzzleKit.Word

import Mathlib.Algebra.Ring.Int.Parity
import Mathlib.Data.Nat.GCD.Basic
import Mathlib.Data.Nat.Prime.Basic
import PuzzleKit.Proofs.Fraction.Obtainable

/-!
# Where a ratio has no fraction

The fraction of two words with a denominator other than zero is there unless a part of
it is too great, and that can only be because the least word has no counterpart above
zero. A part of the reduced ratio is no greater in size than the word it came from, so
it has to be that word itself, which is the least one, with its sign turned. Hence the
denominator is negative, and nothing was cancelled: the least word is a power of two,
so the other word is odd (`Overflows`).

The inverse of a fraction and the fraction that a text denotes are ratios of two words,
too, and they are refused for no other cause.
-/

namespace PuzzleKit.Fraction

open Word

variable {a : Fraction} {n d : Word .i64}

/-- The ratio in lowest terms has a part of the size of the least word, but positive. -/
def Overflows (n d : Word .i64) : Prop :=
  (n = minimum .i64 ∧ d.val < 0 ∧ Odd d.val) ∨ (d = minimum .i64 ∧ Odd n.val)

instance (n d : Word .i64) : Decidable (Overflows n d) :=
  inferInstanceAs (Decidable ((n = minimum .i64 ∧ d.val < 0 ∧ Odd d.val) ∨ _))

/-! ## The parts of a reduced ratio -/

theorem eq_minimum_iff : n = minimum .i64 ↔ -n.val = 2 ^ 63 := by
  rw [Word.ext_iff, show (minimum .i64).val = -2 ^ 63 from rfl, Int.neg_eq_comm, eq_comm]

theorem neg_val_le (n : Word .i64) : -n.val ≤ 2 ^ 63 := (neg_le_abs n.val).trans (abs_val_le n)

theorem val_lt (n : Word .i64) : n.val < 2 ^ 63 := Int.lt_of_le_sub_one n.le_max

theorem gcd_minimum_eq_one_iff (v : ℤ) : Int.gcd (minimum .i64).val v = 1 ↔ Odd v := by
  rw [show (minimum .i64).val = -2 ^ 63 from rfl, Int.neg_gcd, ← Int.natAbs_odd,
    ← Nat.coprime_two_left]
  exact Nat.coprime_pow_left_iff (by decide) 2 v.natAbs

/-- A quotient without remainder reaches a bound of the dividend only if there was
nothing to divide by. -/
theorem bound_le_iff {bound x y divisor : ℤ} (hbound : 0 < bound) (hdivisor : 0 < divisor)
    (hx : x ≤ bound) (h : x = divisor * y) : bound ≤ y ↔ x = bound ∧ divisor = 1 := by
  constructor
  · intro hy
    have hone : divisor = 1 := by
      by_contra hne
      have htwo : 2 * y ≤ divisor * y :=
        Int.mul_le_mul_of_nonneg_right (by omega) (hbound.le.trans hy)
      omega
    rw [hone, Int.one_mul] at h
    exact ⟨by omega, hone⟩
  · rintro ⟨rfl, rfl⟩
    rw [Int.one_mul] at h
    exact h.le

section Parts

variable (n) (hd : d.val ≠ 0)
include hd

theorem gcd_pos_of_ne_zero : (0 : ℤ) < Int.gcd n.val d.val :=
  Int.natCast_pos.mpr (Int.gcd_pos_of_ne_zero_right n.val hd)

/-- A word that is divided by the common divisor, with the sign of the denominator. -/
theorem bound_le_part_iff {x : Word .i64} {y : ℤ}
    (h : x.val = (Int.gcd n.val d.val * d.val.sign) * y) :
    2 ^ 63 ≤ y ↔ d.val < 0 ∧ x = minimum .i64 ∧ Int.gcd n.val d.val = 1 := by
  have hgcd := gcd_pos_of_ne_zero n hd
  rcases lt_or_gt_of_ne hd with hneg | hpos
  · rw [Int.sign_eq_neg_one_of_neg hneg, mul_neg_one, neg_mul] at h
    rw [bound_le_iff (by decide) hgcd (neg_val_le x) (neg_eq_iff_eq_neg.mpr h),
      ← eq_minimum_iff, Nat.cast_eq_one]
    exact (and_iff_right hneg).symm
  · rw [Int.sign_eq_one_of_pos hpos, Int.mul_one] at h
    rw [bound_le_iff (by decide) hgcd (val_lt x).le h]
    exact iff_of_false (fun h => (val_lt x).ne h.1) fun h => (h.1.trans hpos).false

theorem bound_le_num_iff :
    2 ^ 63 ≤ (n.val / d.val : ℚ).num ↔ n = minimum .i64 ∧ d.val < 0 ∧ Odd d.val := by
  rw [bound_le_part_iff n hd (eq_mul_num_and_eq_mul_den hd).1, and_left_comm]
  refine and_congr_right fun hleast => and_congr_right fun _ => ?_
  rw [hleast, gcd_minimum_eq_one_iff]

theorem bound_le_den_iff :
    2 ^ 63 ≤ ((n.val / d.val : ℚ).den : ℤ) ↔ d = minimum .i64 ∧ Odd n.val := by
  rw [bound_le_part_iff n hd (eq_mul_num_and_eq_mul_den hd).2, and_left_comm]
  refine and_congr_right fun hleast => ?_
  rw [hleast, Int.gcd_comm, gcd_minimum_eq_one_iff]
  exact and_iff_right (by decide)

theorem min_le_num : Width.i64.min ≤ (n.val / d.val : ℚ).num := by
  obtain ⟨hn, hden⟩ := eq_mul_num_and_eq_mul_den (n := n.val) hd
  have hcommon : (Int.gcd n.val d.val * d.val.sign : ℤ) ≠ 0 := by
    intro hzero
    rw [hzero, zero_mul] at hden
    exact hd hden
  have hle : |(n.val / d.val : ℚ).num| ≤ 2 ^ 63 := by
    calc |(n.val / d.val : ℚ).num|
        ≤ |(Int.gcd n.val d.val * d.val.sign : ℤ)| * |(n.val / d.val : ℚ).num| :=
          le_mul_of_one_le_left (abs_nonneg _) (Int.one_le_abs hcommon)
      _ = |n.val| := by rw [← abs_mul, ← hn]
      _ ≤ 2 ^ 63 := abs_val_le n
  exact neg_le_of_abs_le hle

theorem fits_ratio_iff : Fits (n.val / d.val) ↔ ¬Overflows n d := by
  rw [Overflows, ← bound_le_num_iff n hd, ← bound_le_den_iff n hd, not_or, not_le, not_le]
  exact ⟨fun h => ⟨Int.lt_of_le_sub_one h.num_le, Int.lt_of_le_sub_one h.den_le⟩,
    fun h => ⟨min_le_num n hd, Int.le_sub_one_of_lt h.1, Int.le_sub_one_of_lt h.2⟩⟩

end Parts

/-! ## Ratios that are refused -/

theorem Overflows.ne_zero (h : Overflows n d) : d.val ≠ 0 := by
  rcases h with ⟨-, hneg, -⟩ | ⟨rfl, -⟩
  · exact hneg.ne
  · decide

theorem ofRatio?_eq_none_iff : ofRatio? n d = .ok none ↔ d.val = 0 := by
  rw [ofRatio?]
  split
  · next hd => exact iff_of_true rfl hd
  · next hd =>
      refine iff_of_false (fun h => ?_) hd
      obtain ⟨c, -, h⟩ := bind_eq_ok_iff.mp h
      cases h

theorem exists_ofRatio? (hd : d.val ≠ 0) (h : ¬Overflows n d) :
    ∃ c, ofRatio? n d = .ok (some c) ∧ c.Normalized ∧ c.value = n.val / d.val := by
  obtain ⟨c, hc, hnormalized, hvalue⟩ := (computes_ofRat _).exact ((fits_ratio_iff n hd).mpr h)
  refine ⟨c, ?_, hnormalized, hvalue⟩
  rw [ofRatio?, if_neg hd, reduced_wide_eq n hd, hc]
  rfl

theorem Overflows.ofRatio?_eq (h : Overflows n d) : ofRatio? n d = .error .overflow := by
  have hfits : ¬Fits (n.val / d.val) := fun hfits => (fits_ratio_iff n h.ne_zero).mp hfits h
  rw [ofRatio?, if_neg h.ne_zero, reduced_wide_eq n h.ne_zero, (computes_ofRat _).overflow hfits]
  rfl

theorem ofRatio?_eq_error_iff {fault : FractionFault} :
    ofRatio? n d = .error fault ↔ fault = .overflow ∧ Overflows n d := by
  by_cases hover : Overflows n d
  · rw [hover.ofRatio?_eq, Except.error.injEq, eq_comm]
    exact (and_iff_left hover).symm
  · refine iff_of_false (fun h => ?_) fun h => hover h.2
    by_cases hd : d.val = 0
    · rw [ofRatio?_eq_none_iff.mpr hd] at h
      cases h
    · obtain ⟨c, hc, -⟩ := exists_ofRatio? hd hover
      rw [hc] at h
      cases h

/-! ## Inverses and texts -/

/-- The numerator is coprime to the denominator, which is therefore odd if the numerator is
a power of two. -/
theorem Normalized.overflows_inv_iff (ha : a.Normalized) :
    Overflows a.denominator a.numerator ↔ a.numerator = minimum .i64 := by
  constructor
  · rintro (⟨hleast, -⟩ | ⟨hleast, -⟩)
    · have hpos := ha.denominator_pos
      rw [hleast] at hpos
      exact absurd hpos (by decide)
    · exact hleast
  · intro hleast
    have hcoprime : Int.gcd a.numerator.val a.denominator.val = 1 := ha.coprime
    rw [hleast, gcd_minimum_eq_one_iff] at hcoprime
    exact .inr ⟨hleast, hcoprime⟩

theorem Normalized.numerator_eq_zero_iff (ha : a.Normalized) :
    a.numerator.val = 0 ↔ a.value = 0 := by
  rw [← ha.value_num, Rat.num_eq_zero]

theorem Normalized.exists_reciprocal? (ha : a.Normalized) (hzero : a.value ≠ 0)
    (hleast : a.numerator ≠ minimum .i64) :
    ∃ c, a.reciprocal? = .ok (some c) ∧ c.Normalized ∧ c.value = a.value⁻¹ := by
  have hnumerator : a.numerator.val ≠ 0 := ha.numerator_eq_zero_iff.not.mpr hzero
  rw [value, inv_div]
  exact exists_ofRatio? hnumerator (ha.overflows_inv_iff.not.mpr hleast)

theorem parsePart_ne_fault (part : List Char) (fault : FractionFault) :
    parsePart part ≠ .error (.fault fault) := by
  unfold parsePart
  split <;> rintro ⟨⟩

/-- Reading fails with a fault of arithmetic just where the two parts are read and their
ratio is refused. -/
theorem parse_eq_fault_iff {text : List Char} {fault : FractionFault} :
    parse text = .error (.fault fault) ↔
      ∃ left right n d, splitOnce (fun c => decide (c = '/')) text = some (left, right) ∧
        parsePart left = .ok n ∧ parsePart right = .ok d ∧ ofRatio? n d = .error fault := by
  constructor
  · intro h
    unfold parse at h
    split at h
    · rcases bind_eq_error_iff.mp h with h | ⟨n, -, h⟩
      · exact absurd h (parsePart_ne_fault _ _)
      · cases h
    · next left right hsplit =>
        rcases bind_eq_error_iff.mp h with h | ⟨n, hn, h⟩
        · exact absurd h (parsePart_ne_fault _ _)
        rcases bind_eq_error_iff.mp h with h | ⟨d, hd, h⟩
        · exact absurd h (parsePart_ne_fault _ _)
        refine ⟨left, right, n, d, hsplit, hn, hd, ?_⟩
        split at h
        · cases h
        · cases h
        · next hratio =>
            cases h
            exact hratio
  · rintro ⟨left, right, n, d, hsplit, hn, hd, hratio⟩
    simp only [parse, hsplit, hn, hd, hratio, bind, Except.bind]

/-- Two words have no ratio if the second is zero, and the reduced ratio if they do not
overflow. Where they do, the ratio is refused; so is the inverse of a fraction of the
least numerator, and so is a text of two words with a ratio that overflows. Apart from
this no inverse is refused, and there is none for zero alone; and no text is refused but
for its form. -/
theorem refused_iff_overflows :
    (∀ n d : Word .i64, (ofRatio? n d = .ok none ↔ d.val = 0) ∧
      (d.val ≠ 0 → ¬Overflows n d →
        ∃ c, ofRatio? n d = .ok (some c) ∧ c.Normalized ∧ c.value = n.val / d.val) ∧
      (Overflows n d → ofRatio? n d = .error .overflow)) ∧
    (∀ a : Fraction, a.Normalized → (a.reciprocal? = .ok none ↔ a.value = 0) ∧
      (a.value ≠ 0 → a.numerator ≠ minimum .i64 →
        ∃ c, a.reciprocal? = .ok (some c) ∧ c.Normalized ∧ c.value = a.value⁻¹) ∧
      (a.numerator = minimum .i64 → a.reciprocal? = .error .overflow)) ∧
    ∀ (text : List Char) (fault : FractionFault), parse text = .error (.fault fault) ↔
      fault = .overflow ∧
        ∃ left right n d, splitOnce (fun c => decide (c = '/')) text = some (left, right) ∧
          parsePart left = .ok n ∧ parsePart right = .ok d ∧ Overflows n d := by
  refine ⟨fun n d => ⟨ofRatio?_eq_none_iff, exists_ofRatio?, Overflows.ofRatio?_eq⟩,
    fun a ha => ⟨?_, ha.exists_reciprocal?, fun h => ?_⟩, fun text fault => ?_⟩
  · rw [reciprocal?, ofRatio?_eq_none_iff, ha.numerator_eq_zero_iff]
  · exact (ha.overflows_inv_iff.mpr h).ofRatio?_eq
  · simp only [parse_eq_fault_iff, ofRatio?_eq_error_iff]
    constructor
    · rintro ⟨left, right, n, d, hsplit, hn, hd, hfault, hover⟩
      exact ⟨hfault, left, right, n, d, hsplit, hn, hd, hover⟩
    · rintro ⟨hfault, left, right, n, d, hsplit, hn, hd, hover⟩
      exact ⟨left, right, n, d, hsplit, hn, hd, hfault, hover⟩

/-- The least word has a ratio to minus two and none to minus three, and an inverse is
refused only to its fraction. A text with the least word below the stroke is refused
although both of its parts are words. -/
theorem refused_iff_overflows_least :
    (¬Overflows (minimum .i64) ⟨-2, by decide, by decide⟩ ∧
      ∃ c, ofRatio? (minimum .i64) ⟨-2, by decide, by decide⟩ = .ok (some c) ∧ c.Normalized ∧
        c.value = ((minimum .i64).val : ℚ) / (-2 : ℤ)) ∧
    (Overflows (minimum .i64) ⟨-3, by decide, by decide⟩ ∧
      ofRatio? (minimum .i64) ⟨-3, by decide, by decide⟩ = .error .overflow) ∧
    (minusThreeQuarters.Normalized ∧ ∃ c, minusThreeQuarters.reciprocal? = .ok (some c) ∧
      c.Normalized ∧ c.value = minusThreeQuarters.value⁻¹) ∧
    (least.Normalized ∧ least.reciprocal? = .error .overflow) ∧
    parse " 7 / -9223372036854775808".toList = .error (.fault .overflow) := by
  obtain ⟨hratio, hreciprocal, hparse⟩ := refused_iff_overflows
  have hfits : ¬Overflows (minimum .i64) ⟨-2, by decide, by decide⟩ := by decide +kernel
  have hover : Overflows (minimum .i64) ⟨-3, by decide, by decide⟩ := by decide +kernel
  have hnormalized : minusThreeQuarters.Normalized := by decide +kernel
  have hleast : least.Normalized := by decide
  have hinverse := (hreciprocal _ hnormalized).2.1 (by decide +kernel) (by decide +kernel)
  have htext := (hparse " 7 / -9223372036854775808".toList .overflow).mpr
    ⟨rfl, " 7 ".toList, " -9223372036854775808".toList, ⟨7, by decide, by decide⟩, minimum .i64,
      by decide +kernel, by decide +kernel, by decide +kernel, by decide +kernel⟩
  exact ⟨⟨hfits, (hratio _ _).2.1 (by decide) hfits⟩, ⟨hover, (hratio _ _).2.2 hover⟩,
    ⟨hnormalized, hinverse⟩, ⟨hleast, (hreciprocal _ hleast).2.2 rfl⟩, htext⟩

/-- The ratio of the least word to minus one, the inverse of the least fraction and the text
of that ratio are all refused. -/
theorem least_over_minus_one_refused :
    ofRatio? (minimum .i64) ⟨-1, by decide, by decide⟩ = .error .overflow ∧
      (least.Normalized ∧ least.reciprocal? = .error .overflow) ∧
        parse "-9223372036854775808/-1".toList = .error (.fault .overflow) := by
  decide +kernel

end PuzzleKit.Fraction

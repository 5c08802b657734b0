import PuzzleKit.Proofs.Fraction.Exact

/-!
# Where fractions overflow

Arithmetic on fractions has a result just where the exact rational number has
two parts that fit, and is refused as an overflow of fractions everywhere else.
In particular the 128 bits in between are always enough: an operation on them
that overflowed would be refused as an arithmetic fault and not as this one.

Negating and taking the absolute value do not go through the wide numbers. They
leave the denominator alone, so it is the numerator that decides.
-/

namespace PuzzleKit.Fraction

open Word

variable {a b : Fraction} {q : ℚ} {v : ℤ}

/-- Both parts of a rational number fit 64 bits. -/
structure Fits (q : ℚ) : Prop where
  le_num : Width.i64.min ≤ q.num
  num_le : q.num ≤ Width.i64.max
  den_le : (q.den : ℤ) ≤ Width.i64.max

/-- The result is the fraction of a rational number in lowest terms if there is
one, and an overflow otherwise; no arithmetic in between is at fault. -/
structure Computes (result : Except FractionFault Fraction) (q : ℚ) : Prop where
  exact : Fits q → ∃ c, result = .ok c ∧ c.Normalized ∧ c.value = q
  overflow : ¬Fits q → result = .error .overflow
  wide : ∀ fault, result ≠ .error (.arithmetic fault)

theorem exists_narrow (hmin : Width.i64.min ≤ v) (hmax : v ≤ Width.i64.max) :
    ∃ n, narrow v = .ok n :=
  ⟨⟨v, hmin, hmax⟩, narrow_eq_ok_iff.mpr rfl⟩

theorem narrow_eq_error (h : ¬(Width.i64.min ≤ v ∧ v ≤ Width.i64.max)) :
    narrow v = .error .overflow := by
  rw [narrow, ofInt?, dif_neg h]

theorem computes_ofRat (q : ℚ) : Computes (ofRat q) q := by
  by_cases hfits : Fits q
  · obtain ⟨n, hn⟩ := exists_narrow hfits.le_num hfits.num_le
    obtain ⟨d, hd⟩ := exists_narrow (Width.i64.min_le_zero.trans (Int.natCast_nonneg q.den))
      hfits.den_le
    have hok : ofRat q = .ok ⟨n, d⟩ := bind_eq_ok_iff.mpr ⟨n, hn, bind_eq_ok_iff.mpr ⟨d, hd, rfl⟩⟩
    refine ⟨fun _ => ⟨_, hok, ofRat_eq_ok_iff.mp hok⟩, fun h => absurd hfits h, ?_⟩
    rw [hok]
    rintro fault ⟨⟩
  · have herror : ofRat q = .error .overflow := by
      by_cases hnum : Width.i64.min ≤ q.num ∧ q.num ≤ Width.i64.max
      · obtain ⟨n, hn⟩ := exists_narrow hnum.1 hnum.2
        have hden : ¬(Width.i64.min ≤ (q.den : ℤ) ∧ (q.den : ℤ) ≤ Width.i64.max) :=
          fun h => hfits ⟨hnum.1, hnum.2, h.2⟩
        rw [ofRat, hn, narrow_eq_error hden]
        rfl
      · rw [ofRat, narrow_eq_error hnum]
        rfl
    refine ⟨fun h => absurd h hfits, fun _ => herror, ?_⟩
    rw [herror]
    rintro fault ⟨⟩

/-! ## Another numerator over the same denominator -/

/-- A rational number over the denominator of a fraction. -/
structure Over (a : Fraction) (q : ℚ) (v : ℤ) : Prop where
  num_eq : q.num = v
  den_eq : (q.den : ℤ) = a.denominator.val

theorem Normalized.over_neg (ha : a.Normalized) : Over a (-a.value) (-a.numerator.val) :=
  ⟨by rw [Rat.num_neg_eq_neg_num, ha.value_num], by rw [Rat.den_neg_eq_den, ha.value_den]⟩

theorem Normalized.over_abs (ha : a.Normalized) : Over a |a.value| |a.numerator.val| :=
  ⟨by rw [Rat.num_abs_eq_abs_num, ha.value_num], by rw [Rat.den_abs_eq_den, ha.value_den]⟩

theorem Over.withNumerator_fit {fault : ArithmeticFault} (h : Over a q v) :
    a.withNumerator (fit .i64 fault v) = ofRat q := by
  rw [ofRat, h.num_eq, narrow_eq_ok_iff.mpr h.den_eq.symm, fit, narrow]
  cases ofInt? .i64 v with
  | none => rfl
  | some n => rfl

theorem Over.fits_iff (h : Over a q v) (hmin : Width.i64.min ≤ v) :
    Fits q ↔ v ≤ Width.i64.max := by
  rw [← h.num_eq] at hmin ⊢
  exact ⟨Fits.num_le, fun hmax => ⟨hmin, hmax, h.den_eq ▸ a.denominator.le_max⟩⟩

theorem neg_eq (ha : a.Normalized) : a.neg = ofRat (-a.value) :=
  ha.over_neg.withNumerator_fit

theorem fits_neg_iff (ha : a.Normalized) :
    Fits (-a.value) ↔ -a.numerator.val ≤ Width.i64.max := by
  refine ha.over_neg.fits_iff ?_
  have hmax := a.numerator.le_max
  have hmin := min_eq_of_signed (w := .i64) rfl
  omega

theorem abs_eq (ha : a.Normalized) : a.abs = ofRat |a.value| := by
  rw [Fraction.abs, Word.abs_eq_fit]
  exact ha.over_abs.withNumerator_fit

theorem fits_abs_iff (ha : a.Normalized) :
    Fits |a.value| ↔ |a.numerator.val| ≤ Width.i64.max :=
  ha.over_abs.fits_iff (Width.i64.min_le_zero.trans (abs_nonneg _))

/-- Sums, differences, products and quotients of fractions in lowest terms are
exact where the exact number fits and overflow where it does not. So are the
negative and the absolute value, which fit if their numerators are not too
great. -/
theorem arithmetic_exact (ha : a.Normalized) (hb : b.Normalized) :
    Computes (a.add b) (a.value + b.value) ∧ Computes (a.sub b) (a.value - b.value) ∧
      Computes (a.mul b) (a.value * b.value) ∧
        (b.value ≠ 0 → Computes (a.div b) (a.value / b.value)) ∧
          (Computes a.neg (-a.value) ∧
            (Fits (-a.value) ↔ -a.numerator.val ≤ Width.i64.max)) ∧
          (Computes a.abs |a.value| ∧
            (Fits |a.value| ↔ |a.numerator.val| ≤ Width.i64.max)) ∧
            FractionFault.overflow.message = "fraction overflowed i64" := by
  rw [add_eq ha hb, sub_eq ha hb, mul_eq ha hb, neg_eq ha, abs_eq ha]
  refine ⟨computes_ofRat _, computes_ofRat _, computes_ofRat _, fun hzero => ?_,
    ⟨computes_ofRat _, fits_neg_iff ha⟩, ⟨computes_ofRat _, fits_abs_iff ha⟩, rfl⟩
  rw [div_eq ha hb fun h => hzero (hb.value_eq_zero_iff.mpr h)]
  exact computes_ofRat _

/-- The least integer. -/
def least : Fraction := ofWord (minimum .i64)

/-- The least positive fraction. -/
def sliver : Fraction := ⟨1, maximum .i64⟩

theorem arithmetic_exact_least_sliver :
    least.Normalized ∧ sliver.Normalized ∧
      (∃ c, least.mul sliver = .ok c ∧ c.Normalized ∧ c.value = least.value * sliver.value) ∧
        least.add sliver = .error .overflow ∧ ¬Fits (least.value + sliver.value) ∧
          least.neg = .error .overflow ∧ ¬Fits (-least.value) := by
  have hleast : least.Normalized := by decide
  have hsliver : sliver.Normalized := by decide +kernel
  have hproduct : least.mul sliver = .ok ⟨minimum .i64, maximum .i64⟩ := by decide +kernel
  have hsum : least.add sliver = .error .overflow := by decide +kernel
  obtain ⟨hadd, -, hmul, -, ⟨hneg, hfits⟩, -, -⟩ := arithmetic_exact hleast hsliver
  have hproductFits : Fits (least.value * sliver.value) := by
    by_contra h
    rw [hmul.overflow h] at hproduct
    cases hproduct
  have hsumTooGreat : ¬Fits (least.value + sliver.value) := by
    intro h
    obtain ⟨c, hc, -⟩ := hadd.exact h
    rw [hsum] at hc
    cases hc
  have hnegTooGreat : ¬Fits (-least.value) := fun h => absurd (hfits.mp h) (by decide)
  exact ⟨hleast, hsliver, hmul.exact hproductFits, hsum, hsumTooGreat,
    hneg.overflow hnegTooGreat, hnegTooGreat⟩

end PuzzleKit.Fraction

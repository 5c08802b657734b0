import Mathlib.Algebra.Order.Ring.Abs
import Mathlib.Data.Rat.Lemmas
import Mathlib.Tactic.FieldSimp
import Mathlib.Tactic.Ring
import PuzzleKit.Fraction.Basic
import PuzzleKit.Proofs.Fallible
import PuzzleKit.Proofs.Integer.Multiple

/-!
# Fractions as rational numbers

A fraction in lowest terms over a positive denominator is a rational number that
happens to fit, and nothing else: `ofRat` is the one way in, and it can only
refuse. Each arithmetic operation is `ofRat` of the operation on rational
numbers, refusal included (`add_eq`, `sub_eq`, `mul_eq`, `div_eq`), so whoever
computes with fractions may compute with their values.

The work is to see that the wide numbers in between never stand in the way. A
numerator is at most `2 ^ 63` in size and a denominator less than that, and so
is the factor that brings a denominator to the least common one. A product of
the two kinds is at most `2 ^ 63 * (2 ^ 63 - 1)`, and there is room for the sum
of two of them. All of these are far from the least wide word, on which the
greatest common divisor is not to be relied on.
-/

namespace PuzzleKit.Fraction

open Word

variable {a b : Fraction} {q : ℚ}

/-- Lowest terms over a positive denominator. -/
structure Normalized (a : Fraction) : Prop where
  denominator_pos : 0 < a.denominator.val
  coprime : a.numerator.val.natAbs.Coprime a.denominator.val.natAbs

instance (a : Fraction) : Decidable a.Normalized :=
  decidable_of_iff
    (0 < a.denominator.val ∧ a.numerator.val.natAbs.Coprime a.denominator.val.natAbs)
    ⟨fun h => ⟨h.1, h.2⟩, fun h => ⟨h.denominator_pos, h.coprime⟩⟩

/-- The rational number that a fraction stands for. -/
def value (a : Fraction) : ℚ := a.numerator.val / a.denominator.val

/-- A part of a fraction, if it fits. -/
def narrow (v : ℤ) : Except FractionFault (Word .i64) :=
  match ofInt? .i64 v with
  | some a => .ok a
  | none => .error .overflow

/-- The fraction of a rational number, if its two parts fit. -/
def ofRat (q : ℚ) : Except FractionFault Fraction := do
  let n ← narrow q.num
  let d ← narrow q.den
  return ⟨n, d⟩

/-! ## Equal values are equal fractions -/

namespace Normalized

theorem value_num (ha : a.Normalized) : a.value.num = a.numerator.val :=
  Rat.num_div_eq_of_coprime ha.denominator_pos ha.coprime

theorem value_den (ha : a.Normalized) : (a.value.den : ℤ) = a.denominator.val :=
  Rat.den_div_eq_of_coprime ha.denominator_pos ha.coprime

theorem eq_of_value_eq (ha : a.Normalized) (hb : b.Normalized) (h : a.value = b.value) :
    a = b := by
  have hnum : a.numerator = b.numerator := Word.ext (by rw [← ha.value_num, h, hb.value_num])
  have hden : a.denominator = b.denominator :=
    Word.ext (by rw [← ha.value_den, h, hb.value_den])
  cases a
  cases b
  cases hnum
  cases hden
  rfl

theorem zero : (0 : Fraction).Normalized := by decide

theorem one : (1 : Fraction).Normalized := by decide

end Normalized

@[simp] theorem value_zero : (0 : Fraction).value = 0 := by
  rw [value, show (0 : Fraction).numerator.val = 0 from rfl, Int.cast_zero, zero_div]

@[simp] theorem value_one : (1 : Fraction).value = 1 := by
  rw [value, show (1 : Fraction).numerator.val = 1 from rfl,
    show (1 : Fraction).denominator.val = 1 from rfl, Int.cast_one, div_one]

@[simp] theorem value_ofWord (n : Word .i64) : (ofWord n).value = n.val := by
  rw [value, ofWord, show (1 : Word .i64).val = 1 from rfl, Int.cast_one, div_one]

/-- What clears the denominator is what makes an integer of the fraction. -/
theorem Normalized.denominator_dvd_iff (ha : a.Normalized) {k : ℤ} :
    a.denominator.val ∣ k ↔ ∃ v : ℤ, (v : ℚ) = k * a.value := by
  have hzero : (a.denominator.val : ℚ) ≠ 0 := Int.cast_ne_zero.mpr ha.denominator_pos.ne'
  constructor
  · intro h
    obtain ⟨c, rfl⟩ := h
    refine ⟨c * a.numerator.val, ?_⟩
    rw [value]
    push_cast
    field_simp
  · intro h
    obtain ⟨v, hv⟩ := h
    rw [value, ← mul_div_assoc, eq_div_iff hzero] at hv
    have hproduct : k * a.numerator.val = a.denominator.val * v := by
      rw [mul_comm a.denominator.val]
      exact_mod_cast hv.symm
    refine Int.dvd_of_dvd_mul_left_of_gcd_one (Dvd.intro v hproduct.symm) ?_
    rw [Int.gcd_comm]
    exact ha.coprime

theorem Normalized.value_eq_zero_iff (ha : a.Normalized) : a.value = 0 ↔ a = 0 :=
  ⟨fun h => ha.eq_of_value_eq .zero (h.trans value_zero.symm), fun h => by rw [h, value_zero]⟩

theorem Normalized.value_eq_one_iff (ha : a.Normalized) : a.value = 1 ↔ a = 1 :=
  ⟨fun h => ha.eq_of_value_eq .one (h.trans value_one.symm), fun h => by rw [h, value_one]⟩

theorem Normalized.isZero_iff (ha : a.Normalized) : a.isZero = true ↔ a = 0 := by
  rw [← ha.value_eq_zero_iff, ← Rat.num_eq_zero, ha.value_num, isZero, decide_eq_true_iff]

theorem narrow_eq_ok_iff {n : Word .i64} {v : ℤ} : narrow v = .ok n ↔ n.val = v := by
  rw [← ofInt?_eq_some_iff, narrow]
  cases ofInt? .i64 v with
  | none => exact ⟨(nomatch ·), (nomatch ·)⟩
  | some a => exact ⟨fun h => by cases h; rfl, fun h => by cases h; rfl⟩

/-- What `ofRat` accepts is in lowest terms and has the value it was made of. -/
theorem ofRat_eq_ok_iff : ofRat q = .ok a ↔ a.Normalized ∧ a.value = q := by
  constructor
  · intro h
    obtain ⟨n, hn, h⟩ := bind_eq_ok_iff.mp h
    obtain ⟨d, hd, h⟩ := bind_eq_ok_iff.mp h
    cases h
    have hn := narrow_eq_ok_iff.mp hn
    have hd := narrow_eq_ok_iff.mp hd
    refine ⟨⟨?_, ?_⟩, ?_⟩
    · rw [hd]
      exact Int.natCast_pos.mpr q.den_pos
    · rw [hn, hd]
      exact q.reduced
    · rw [value, hn, hd, Int.cast_natCast]
      exact Rat.num_div_den q
  · rintro ⟨ha, rfl⟩
    rw [ofRat, narrow_eq_ok_iff.mpr ha.value_num.symm, narrow_eq_ok_iff.mpr ha.value_den.symm]
    rfl

/-! ## Reducing -/

theorem widely_ok {α : Type} (x : α) : widely (.ok x) = .ok x := rfl

/-- A fraction in lowest terms is extended by the greatest common divisor with
the sign of the denominator. -/
theorem eq_mul_num_and_eq_mul_den {n d : ℤ} (hd : d ≠ 0) :
    n = (Int.gcd n d * d.sign) * (n / d : ℚ).num ∧
      d = (Int.gcd n d * d.sign) * (n / d : ℚ).den := by
  obtain ⟨c, hn, hd'⟩ := Rat.exists_eq_mul_div_num_and_eq_mul_div_den n hd
  have hdivisor : (Int.gcd n d * d.sign : ℤ) = c := by
    have hgcd : Int.gcd n d = c.natAbs := by
      calc Int.gcd n d
          = Int.gcd (c * (n / d : ℚ).num) (c * (n / d : ℚ).den) := by rw [← hn, ← hd']
        _ = c.natAbs * Int.gcd (n / d : ℚ).num (n / d : ℚ).den := Int.gcd_mul_left ..
        _ = c.natAbs := by
            rw [show Int.gcd (n / d : ℚ).num (n / d : ℚ).den = 1 from (n / d : ℚ).reduced,
              Nat.mul_one]
    have hsign : d.sign = c.sign := by
      rw [hd', Int.sign_mul, Int.sign_natCast_of_ne_zero (n / d : ℚ).den_nz, Int.mul_one]
    rw [hgcd, hsign, Int.mul_comm]
    exact Int.sign_mul_natAbs c
  rw [hdivisor]
  exact ⟨hn, hd'⟩

theorem narrowQuotient_eq {x divisor : Word .i128} {v : ℤ} (hx : |x.val| ≤ Width.i128.max)
    (hdivisor : divisor.val ≠ 0) (h : x.val = divisor.val * v) :
    narrowQuotient x divisor = narrow v := by
  have hquotient : x.val.tdiv divisor.val = v := Int.tdiv_eq_of_eq_mul_right hdivisor h
  have hle : |v| ≤ |x.val| := by
    rw [h, abs_mul]
    exact le_mul_of_one_le_left (abs_nonneg v) (Int.one_le_abs hdivisor)
  obtain ⟨quotient, hdiv, hval⟩ :=
    exists_fit_of_abs_le (w := .i128) .divOverflow rfl (hle.trans hx)
  have hdiv : x.div divisor = .ok quotient := by rw [Word.div, if_neg hdivisor, hquotient, hdiv]
  rw [narrowQuotient, hdiv, ← hval]
  rfl

/-- Reducing a wide quotient yields its value wherever that fits. -/
theorem reduced_eq {n d : Word .i128} (hn : |n.val| ≤ Width.i128.max)
    (hd : |d.val| ≤ Width.i128.max) (hzero : d.val ≠ 0) :
    reduced n d = ofRat (n.val / d.val) := by
  obtain ⟨common, hcommon, hgcd⟩ := exists_gcd hn hd
  obtain ⟨hnum, hden⟩ := eq_mul_num_and_eq_mul_den (n := n.val) hzero
  have hle : |common.val * d.val.sign| ≤ Width.i128.max := by
    rw [abs_mul, Int.abs_sign_of_ne_zero hzero, mul_one, hgcd, Nat.abs_cast]
    refine le_trans ?_ hd
    rw [Int.abs_eq_natAbs]
    exact Int.ofNat_le.mpr (Int.gcd_le_natAbs_right n.val hzero)
  obtain ⟨divisor, hfit, hval⟩ := exists_fit_of_abs_le (w := .i128) .mulOverflow rfl hle
  rw [hgcd] at hval
  have hdivisor : divisor.val ≠ 0 := by
    intro h
    rw [← hval, h, zero_mul] at hden
    exact hzero hden
  rw [← hval] at hnum hden
  -- Both parts are multiples of the divisor, so neither quotient is rounded and
  -- what is left to fail is the narrowing, in the order of `ofRat`.
  rw [reduced, hcommon, widely_ok]
  simp only [bind, Except.bind, hfit, widely_ok, narrowQuotient_eq hn hdivisor hnum,
    narrowQuotient_eq hd hdivisor hden, ofRat]

/-! ## The operations -/

theorem abs_val_le (n : Word .i64) : |n.val| ≤ 2 ^ 63 :=
  abs_le.mpr ⟨n.min_le, n.le_max.trans (by decide)⟩

theorem Normalized.abs_denominator_le (ha : a.Normalized) :
    |a.denominator.val| ≤ 2 ^ 63 - 1 := by
  rw [abs_of_pos ha.denominator_pos]
  exact a.denominator.le_max

theorem abs_mul_le {x y boundX boundY : ℤ} (hx : |x| ≤ boundX) (hy : |y| ≤ boundY) :
    |x * y| ≤ boundX * boundY := by
  rw [abs_mul]
  exact mul_le_mul hx hy (abs_nonneg y) ((abs_nonneg x).trans hx)

theorem exists_wide {v : ℤ} (fault : ArithmeticFault) (hv : |v| ≤ 2 ^ 127 - 1) :
    ∃ c : Word .i128, fit .i128 fault v = .ok c ∧ c.val = v :=
  exists_fit_of_abs_le fault rfl hv

/-- What a numerator is over a multiple of its denominator. -/
theorem exists_part (ha : a.Normalized) {d : Word .i128} {k : ℤ}
    (hd : d.val = a.denominator.val * k) (hdpos : 0 < d.val) (hk : |k| ≤ 2 ^ 63 - 1) :
    ∃ n : Word .i128, (do (wide a.numerator).mul (← d.div (wide a.denominator))) = .ok n ∧
      |n.val| ≤ 2 ^ 63 * (2 ^ 63 - 1) ∧ (n.val / d.val : ℚ) = a.value := by
  obtain ⟨c, hc, hmul⟩ :=
    exists_div_of_dvd (b := wide a.denominator) ha.denominator_pos ⟨k, hd⟩
  have hval : c.val = k :=
    Int.eq_of_mul_eq_mul_left ha.denominator_pos.ne' (hmul.trans hd)
  have hle := abs_mul_le (abs_val_le a.numerator) (hval ▸ hk)
  obtain ⟨n, hn, hnval⟩ := exists_wide .mulOverflow (hle.trans (by decide))
  refine ⟨n, bind_eq_ok_iff.mpr ⟨c, hc, hn⟩, hnval ▸ hle, ?_⟩
  have hkzero : (k : ℚ) ≠ 0 := by
    rintro hk
    rw [hd, Int.cast_eq_zero.mp hk, mul_zero] at hdpos
    exact lt_irrefl 0 hdpos
  rw [hnval, hval, hd, value, Int.cast_mul, Int.cast_mul, mul_div_mul_right _ _ hkzero]

theorem exists_cofactor {x y : ℤ} (hx : 0 < x) (hy : 0 < y) :
    ∃ k : ℤ, (Int.lcm x y : ℤ) = x * k ∧ |k| ≤ |y| := by
  obtain ⟨k, hk⟩ := Int.dvd_lcm_left x y
  refine ⟨k, hk, Int.le_of_dvd (abs_pos.mpr hy.ne') ?_⟩
  rw [abs_dvd_abs]
  refine Int.dvd_of_mul_dvd_mul_left hx.ne' ?_
  rw [← hk]
  exact Int.coe_lcm_dvd (Int.dvd_mul_right x y) (Int.dvd_mul_left x y)

/-- The two parts of a sum or a difference, and the denominator that they are
over. -/
structure Extended (a b : Fraction) (left right d : Word .i128) : Prop where
  sumParts_eq : ∀ combine, sumParts combine a b = do return (← combine left right, d)
  denominator_pos : 0 < d.val
  left_le : |left.val| ≤ 2 ^ 63 * (2 ^ 63 - 1)
  right_le : |right.val| ≤ 2 ^ 63 * (2 ^ 63 - 1)
  left_value : (left.val / d.val : ℚ) = a.value
  right_value : (right.val / d.val : ℚ) = b.value

theorem exists_extended (ha : a.Normalized) (hb : b.Normalized) :
    ∃ left right d, Extended a b left right d := by
  have hapos := ha.denominator_pos
  have hbpos := hb.denominator_pos
  obtain ⟨k, hk, hkle⟩ := exists_cofactor hapos hbpos
  obtain ⟨l, hl, hlle⟩ := exists_cofactor hbpos hapos
  rw [Int.lcm_comm] at hl
  have hle : (Int.lcm a.denominator.val b.denominator.val : ℤ) ≤ Width.i128.max := by
    rw [hk]
    exact (le_abs_self _).trans
      ((abs_mul_le (abs_val_le _) (hkle.trans hb.abs_denominator_le)).trans (by decide))
  obtain ⟨d, hd, hdval⟩ := exists_lcm (a := wide a.denominator) (b := wide b.denominator)
    hapos.ne' hbpos.ne' hle
  have hdpos : 0 < d.val := by
    rw [hdval]
    exact Int.natCast_pos.mpr (Int.lcm_pos hapos.ne' hbpos.ne')
  obtain ⟨left, hleft, hleftLe, hleftVal⟩ :=
    exists_part ha (hdval.trans hk) hdpos (hkle.trans hb.abs_denominator_le)
  obtain ⟨right, hright, hrightLe, hrightVal⟩ :=
    exists_part hb (hdval.trans hl) hdpos (hlle.trans ha.abs_denominator_le)
  refine ⟨left, right, d, fun combine => ?_, hdpos, hleftLe, hrightLe, hleftVal, hrightVal⟩
  obtain ⟨c, hc, hleft⟩ := bind_eq_ok_iff.mp hleft
  obtain ⟨c', hc', hright⟩ := bind_eq_ok_iff.mp hright
  simp only [sumParts, bind, Except.bind, hd, hc, hleft, hc', hright]

/-- Adding and subtracting are one computation, up to the way in which the two
parts are combined. -/
theorem reduced_sumParts {combine : Word .i128 → Word .i128 → Except ArithmeticFault (Word .i128)}
    {op : ℤ → ℤ → ℤ} {opRat : ℚ → ℚ → ℚ} {fault : ArithmeticFault}
    (hcombine : ∀ x y, combine x y = fit .i128 fault (op x.val y.val))
    (hop : ∀ x y, |op x y| ≤ |x| + |y|)
    (hopRat : ∀ (x y : ℤ) (d : ℚ), (op x y : ℚ) / d = opRat (x / d) (y / d))
    (ha : a.Normalized) (hb : b.Normalized) :
    (do
      let (n, d) ← widely (sumParts combine a b)
      reduced n d) = ofRat (opRat a.value b.value) := by
  obtain ⟨left, right, d, h⟩ := exists_extended ha hb
  have hle : |op left.val right.val| ≤ Width.i128.max :=
    ((hop _ _).trans (add_le_add h.left_le h.right_le)).trans (by decide)
  have hdle : |d.val| ≤ Width.i128.max := by
    rw [abs_of_pos h.denominator_pos]
    exact d.le_max
  obtain ⟨n, hn, hval⟩ := exists_wide fault hle
  rw [h.sumParts_eq, hcombine, hn, ← h.left_value, ← h.right_value, ← hopRat, ← hval]
  exact reduced_eq (hval ▸ hle) hdle h.denominator_pos.ne'

theorem add_eq (ha : a.Normalized) (hb : b.Normalized) : a.add b = ofRat (a.value + b.value) :=
  reduced_sumParts (fun _ _ => rfl) abs_add_le
    (fun x y d => by rw [Int.cast_add, add_div]) ha hb

theorem sub_eq (ha : a.Normalized) (hb : b.Normalized) : a.sub b = ofRat (a.value - b.value) :=
  reduced_sumParts (fun _ _ => rfl) abs_sub
    (fun x y d => by rw [Int.cast_sub, sub_div]) ha hb

/-- Multiplying and dividing are one computation, a quotient of two products. -/
theorem reduced_products {x y z t : Word .i64} (hzero : z.val * t.val ≠ 0) :
    (do
      let n ← widely ((wide x).mul (wide y))
      let d ← widely ((wide z).mul (wide t))
      reduced n d) = ofRat ((x.val * y.val) / (z.val * t.val)) := by
  have hwide : ∀ u v : Word .i64, ∃ c, (wide u).mul (wide v) = .ok c ∧
      c.val = u.val * v.val ∧ |c.val| ≤ Width.i128.max := by
    intro u v
    have hle := (abs_mul_le (abs_val_le u) (abs_val_le v)).trans
      (show _ ≤ Width.i128.max by decide)
    obtain ⟨c, hc, hval⟩ := exists_wide .mulOverflow hle
    exact ⟨c, hc, hval, hval ▸ hle⟩
  obtain ⟨n, hn, hnVal, hnLe⟩ := hwide x y
  obtain ⟨d, hd, hdVal, hdLe⟩ := hwide z t
  rw [hn, hd, ← Int.cast_mul, ← Int.cast_mul, ← hnVal, ← hdVal]
  exact reduced_eq hnLe hdLe (hdVal ▸ hzero)

theorem mul_eq (ha : a.Normalized) (hb : b.Normalized) : a.mul b = ofRat (a.value * b.value) := by
  rw [value, value, div_mul_div_comm]
  exact reduced_products (mul_ne_zero ha.denominator_pos.ne' hb.denominator_pos.ne')

theorem div_eq (ha : a.Normalized) (hb : b.Normalized) (hzero : b ≠ 0) :
    a.div b = ofRat (a.value / b.value) := by
  have hisZero : ¬b.isZero = true := fun h => hzero (hb.isZero_iff.mp h)
  have hnumerator : b.numerator.val ≠ 0 := fun h => hisZero (decide_eq_true h)
  rw [div, if_neg hisZero, value, value, div_div_div_eq]
  exact reduced_products (mul_ne_zero ha.denominator_pos.ne' hnumerator)

end PuzzleKit.Fraction

import Mathlib.Algebra.GCDMonoid.Multiset
import Mathlib.Algebra.GCDMonoid.Nat
import Mathlib.NumberTheory.Padics.PadicVal.Basic
import PuzzleKit.Integer.Divisor
import PuzzleKit.Proofs.Fallible
import PuzzleKit.Proofs.Integer.Exact

/-!
# Greatest common divisors

The divisor of two words is computed in three ways: by an absolute value where one
of them is zero, by counting twos where one is the least signed word, and as usual.
All three compute the same number, since the least word is a power of two in size and
of such a number the count of twos is everything there is to know. So the divisor is
one number that is fitted once (`gcd_eq_fit`), and it is refused only where it would
be the size of the least word.

A list is reduced from its first item. One step makes the total non-negative, and from
there on it is the divisor of the items seen so far. A list of one item takes no step:
that item comes out as it is, with its sign.
-/

namespace PuzzleKit.Word

variable {w : Width} {a b : Word w} {items : List (Word w)}

/-! ## Powers of two -/

theorem twos_eq_padicValNat (n : ℕ) : twos n = padicValNat 2 n := by
  fun_induction twos n with
  | case1 => simp
  | case2 n hzero heven ih =>
      have hdvd : 2 ∣ n := Nat.dvd_of_mod_eq_zero heven
      have hpos : padicValNat 2 n ≠ 0 := (dvd_iff_padicValNat_ne_zero hzero).mp hdvd
      rw [ih, padicValNat.div hdvd]
      omega
  | case3 n hzero hodd =>
      exact (padicValNat.eq_zero_of_not_dvd fun hdvd => hodd (Nat.mod_eq_zero_of_dvd hdvd)).symm

theorem gcd_two_pow (m : ℕ) {n : ℕ} (hn : n ≠ 0) :
    Nat.gcd (2 ^ m) n = 2 ^ min (twos (2 ^ m)) (twos n) := by
  simp only [twos_eq_padicValNat, padicValNat.prime_pow]
  apply Nat.dvd_antisymm
  · obtain ⟨k, hk, hgcd⟩ := (Nat.dvd_prime_pow Nat.prime_two).mp (Nat.gcd_dvd_left (2 ^ m) n)
    have hdvd : 2 ^ k ∣ n := hgcd ▸ Nat.gcd_dvd_right (2 ^ m) n
    rw [hgcd]
    exact Nat.pow_dvd_pow 2 (le_min hk ((padicValNat_dvd_iff_le hn).mp hdvd))
  · exact Nat.dvd_gcd (Nat.pow_dvd_pow 2 (min_le_left _ _))
      ((padicValNat_dvd_iff_le hn).mpr (min_le_right _ _))

theorem natAbs_minimum (hw : w.signed = true) :
    (minimum w).val.natAbs = 2 ^ (w.bits - 1) := by
  simp [minimum, Width.min, hw]

/-! ## Two words -/

/-- The divisor is one number, however it is computed. -/
theorem gcd_eq_fit (a b : Word w) : gcd a b = fit w .negOverflow (Int.gcd a.val b.val) := by
  unfold gcd
  split
  · next hzero => rw [abs_eq_fit, hzero, Int.gcd_zero_left, Int.abs_eq_natAbs]
  · next ha =>
      split
      · next hzero => rw [abs_eq_fit, hzero, Int.gcd_zero_right, Int.abs_eq_natAbs]
      · next hb =>
          have ha' : a.val.natAbs ≠ 0 := Int.natAbs_ne_zero.mpr ha
          have hb' : b.val.natAbs ≠ 0 := Int.natAbs_ne_zero.mpr hb
          split
          -- One of the two is a power of two; the other may be the same one.
          · next hleast =>
              obtain ⟨hw, rfl | rfl⟩ := hleast
              · rw [Int.gcd, natAbs_minimum hw, gcd_two_pow _ hb']
                rfl
              · rw [Int.gcd, natAbs_minimum hw, Nat.gcd_comm, gcd_two_pow _ ha', min_comm]
                rfl
          · rfl

theorem gcd_le_abs (ha : a.val ≠ 0) : (Int.gcd a.val b.val : ℤ) ≤ |a.val| := by
  rw [Int.abs_eq_natAbs]
  exact Int.ofNat_le.mpr (Int.gcd_le_natAbs_left b.val ha)

theorem gcd_le_max (ha : |a.val| ≤ w.max) (hb : |b.val| ≤ w.max) :
    (Int.gcd a.val b.val : ℤ) ≤ w.max := by
  by_cases hzero : a.val = 0
  · rwa [hzero, Int.gcd_zero_left, ← Int.abs_eq_natAbs]
  · exact (gcd_le_abs hzero).trans ha

theorem exists_gcd (ha : |a.val| ≤ w.max) (hb : |b.val| ≤ w.max) :
    ∃ c, gcd a b = .ok c ∧ c.val = Int.gcd a.val b.val := by
  rw [gcd_eq_fit]
  exact exists_fit_of_nonneg _ (Int.natCast_nonneg _) (gcd_le_max ha hb)

/-! ## Lists -/

/-- The greatest common divisor of the integers of a list, zero for none. -/
def commonDivisor (items : List (Word w)) : ℤ := Multiset.gcd (items.map val : List ℤ)

theorem commonDivisor_cons (a : Word w) (items : List (Word w)) :
    commonDivisor (a :: items) = Int.gcd a.val (commonDivisor items) := by
  rw [Int.coe_gcd]
  exact Multiset.gcd_cons a.val (items.map val : List ℤ)

theorem commonDivisor_singleton (a : Word w) : commonDivisor [a] = |a.val| := by
  rw [commonDivisor_cons, Int.abs_eq_natAbs]
  exact congrArg Nat.cast (Int.gcd_zero_right a.val)

theorem commonDivisor_cons_cons (a b : Word w) (items : List (Word w)) :
    commonDivisor (a :: b :: items) = Int.gcd (Int.gcd a.val b.val) (commonDivisor items) := by
  rw [commonDivisor_cons, commonDivisor_cons, Int.gcd_assoc]

theorem commonDivisor_nonneg (items : List (Word w)) : 0 ≤ commonDivisor items := by
  cases items with
  | nil => exact le_refl 0
  | cons a items => exact commonDivisor_cons a items ▸ Int.natCast_nonneg _

theorem commonDivisor_perm {shuffled : List (Word w)} (h : shuffled.Perm items) :
    commonDivisor shuffled = commonDivisor items :=
  congrArg Multiset.gcd (Multiset.coe_eq_coe.mpr (h.map val))

theorem dvd_commonDivisor_iff {k : ℤ} :
    k ∣ commonDivisor items ↔ ∀ a ∈ items, k ∣ a.val := by
  rw [commonDivisor, Multiset.dvd_gcd]
  simp

theorem exists_foldlM_gcd (ha : 0 ≤ a.val) (hitems : ∀ b ∈ items, |b.val| ≤ w.max) :
    ∃ g, items.foldlM gcd a = .ok g ∧ g.val = commonDivisor (a :: items) := by
  induction items generalizing a with
  | nil => exact ⟨a, rfl, by rw [commonDivisor_singleton, abs_of_nonneg ha]⟩
  | cons b items ih =>
      obtain ⟨c, hc, hval⟩ := exists_gcd (abs_le_max_of_nonneg ha) (hitems b List.mem_cons_self)
      obtain ⟨g, hg, hgval⟩ := ih (a := c) (by omega)
        fun d hd => hitems d (List.mem_cons_of_mem b hd)
      refine ⟨g, ?_, ?_⟩
      · rw [List.foldlM_cons]
        exact bind_eq_ok_iff.mpr ⟨c, hc, hg⟩
      · rw [hgval, commonDivisor_cons, hval, commonDivisor_cons_cons]

theorem exists_gcdAll (hitems : ∀ a ∈ items, |a.val| ≤ w.max) (hlen : 2 ≤ items.length) :
    ∃ g, gcdAll items = .ok (some g) ∧ g.val = commonDivisor items := by
  match items with
  | a :: b :: items =>
      obtain ⟨c, hc, hval⟩ := exists_gcd (hitems a (by simp)) (hitems b (by simp))
      have hrest : ∀ d ∈ items, |d.val| ≤ w.max := fun d hd => hitems d (by simp [hd])
      obtain ⟨g, hg, hgval⟩ := exists_foldlM_gcd (a := c) (by omega) hrest
      refine ⟨g, ?_, ?_⟩
      · refine bind_eq_ok_iff.mpr ⟨g, ?_, rfl⟩
        rw [List.foldlM_cons]
        exact bind_eq_ok_iff.mpr ⟨c, hc, hg⟩
      · rw [hgval, commonDivisor_cons, hval, commonDivisor_cons_cons]

/-- The divisor of a list divides every item and is divided by whatever does, in every
order of the items. It is not negative, except that a lone item keeps its sign. -/
theorem gcdAll_greatest (hne : items ≠ []) (hleast : w.signed = true → minimum w ∉ items) :
    ∃ g, gcdAll items = .ok (some g) ∧
      (∀ a ∈ items, g.val ∣ a.val) ∧
      (∀ k : ℤ, (∀ a ∈ items, k ∣ a.val) → k ∣ g.val) ∧
      (2 ≤ items.length → 0 ≤ g.val) ∧ (∀ a, items = [a] → g = a) ∧
      ∀ shuffled, shuffled.Perm items → gcdAll shuffled = .ok (some g) := by
  have hitems : ∀ a ∈ items, |a.val| ≤ w.max := by
    intro a ha
    rw [abs_le_max_iff]
    rintro ⟨hw, rfl⟩
    exact hleast hw ha
  match items with
  | [a] =>
      refine ⟨a, rfl, by simp, by simp, fun hlen => by simp at hlen, ?_, ?_⟩
      · intro b hb
        exact List.head_eq_of_cons_eq hb
      · intro shuffled hperm
        rw [List.perm_singleton.mp hperm]
        rfl
  | a :: b :: items =>
      obtain ⟨g, hg, hval⟩ := exists_gcdAll hitems (by simp)
      refine ⟨g, hg, ?_, ?_, fun _ => hval ▸ commonDivisor_nonneg _, fun _ h => by simp at h, ?_⟩
      · rw [hval]
        exact dvd_commonDivisor_iff.mp (dvd_refl _)
      · rw [hval]
        exact fun k => dvd_commonDivisor_iff.mpr
      · intro shuffled hperm
        have hshuffled : ∀ c ∈ shuffled, |c.val| ≤ w.max := fun c hc =>
          hitems c (hperm.mem_iff.mp hc)
        obtain ⟨g', hg', hval'⟩ := exists_gcdAll hshuffled (by simp [hperm.length_eq])
        rw [hg', ext (hval'.trans ((commonDivisor_perm hperm).trans hval.symm))]

/-- A list with both signs and a zero. -/
def mixedSigns : List (Word .i8) :=
  [⟨-12, by decide, by decide⟩, 0, ⟨18, by decide, by decide⟩, ⟨-30, by decide, by decide⟩]

theorem gcdAll_greatest_mixedSigns :
    mixedSigns ≠ [] ∧ (Width.i8.signed = true → minimum .i8 ∉ mixedSigns) ∧
      ∃ g, gcdAll mixedSigns = .ok (some g) ∧
        (∀ a ∈ mixedSigns, g.val ∣ a.val) ∧
        (∀ k : ℤ, (∀ a ∈ mixedSigns, k ∣ a.val) → k ∣ g.val) ∧
        0 ≤ g.val ∧ gcdAll mixedSigns.reverse = .ok (some g) := by
  have hne : mixedSigns ≠ [] := by decide
  have hleast : Width.i8.signed = true → minimum .i8 ∉ mixedSigns := by decide
  obtain ⟨g, hg, hdvd, hgreatest, hnonneg, -, hperm⟩ := gcdAll_greatest hne hleast
  exact ⟨hne, hleast, g, hg, hdvd, hgreatest, hnonneg (by decide),
    hperm _ (List.reverse_perm mixedSigns)⟩

def minusSix : Word .i8 := ⟨-6, by decide, by decide⟩

/-- A lone negative item comes out negative, although the divisor of it and itself does not. -/
theorem gcdAll_lone_negative :
    minimum .i8 ∉ [minusSix] ∧
      gcdAll [minusSix] = .ok (some minusSix) ∧ minusSix.val < 0 ∧
      gcdAll [minusSix, minusSix] = .ok (some ⟨6, by decide, by decide⟩) := by
  decide +kernel

end PuzzleKit.Word

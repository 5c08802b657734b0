import PuzzleKit.Fraction.Text
import PuzzleKit.Proofs.Fraction.Range

/-!
# Every fraction is in lowest terms

Nothing in the type of a fraction keeps it in lowest terms. It is the operations
that do, all of them: some go through the reduction of a wide quotient, and the
others put a fraction together from a denominator that was there before, or from
a one. So a fraction that was come by through any operations has the one
numerator and the one denominator of its value, and comparing the two parts is
comparing values.

Each operation that is accepted is `ofRat` of the number it should be, as long as
what it is given is in lowest terms. Hence the induction on how a fraction was
obtained.
-/

namespace PuzzleKit.Fraction

variable {a b c : Fraction} {n d : Word .i64}

/-! ## Fractions of integers -/

theorem normalized_ofWord (n : Word .i64) : (ofWord n).Normalized :=
  ⟨Int.zero_lt_one, Nat.coprime_one_right _⟩

theorem reduced_wide_eq (n : Word .i64) (hd : d.val ≠ 0) :
    reduced (wide n) (wide d) = ofRat (n.val / d.val) := by
  have hle : ∀ x : Word .i64, |(wide x).val| ≤ Width.i128.max :=
    fun x => (abs_val_le x).trans (by decide)
  exact reduced_eq (hle n) (hle d) hd

theorem ofRatio?_eq_ok_some (h : ofRatio? n d = .ok (some a)) :
    d.val ≠ 0 ∧ a.Normalized ∧ a.value = n.val / d.val := by
  unfold ofRatio? at h
  split at h
  · cases h
  · next hd =>
      obtain ⟨f, hf, h⟩ := bind_eq_ok_iff.mp h
      cases h
      rw [reduced_wide_eq n hd] at hf
      exact ⟨hd, ofRat_eq_ok_iff.mp hf⟩

theorem ofRatio_eq_ok (h : ofRatio n d = .ok a) : ofRatio? n d = .ok (some a) := by
  obtain ⟨result, hresult, h⟩ := bind_eq_ok_iff.mp h
  cases result with
  | none => cases h
  | some f =>
      cases h
      exact hresult

/-- A text without a stroke is an integer, any other the fraction of two. -/
theorem parse_eq_ok {text : List Char} (h : parse text = .ok a) :
    (∃ n, a = ofWord n) ∨ ∃ n d, ofRatio? n d = .ok (some a) := by
  unfold parse at h
  split at h
  · obtain ⟨n, -, h⟩ := bind_eq_ok_iff.mp h
    cases h
    exact .inl ⟨n, rfl⟩
  · obtain ⟨n, -, h⟩ := bind_eq_ok_iff.mp h
    obtain ⟨d, -, h⟩ := bind_eq_ok_iff.mp h
    split at h
    · next hratio =>
        cases h
        exact .inr ⟨n, d, hratio⟩
    · cases h
    · cases h

/-! ## Sequences of operations -/

/-- A fraction that some operations come to, none of which was refused. Updating
a fraction by a sum or a difference is adding or subtracting. -/
inductive Obtainable : Fraction → Prop
  | zero : Obtainable 0
  | one : Obtainable 1
  | default : Obtainable default
  | ofWord (n : Word .i64) : Obtainable (ofWord n)
  | ofRatio {n d : Word .i64} {c : Fraction} (h : ofRatio n d = .ok c) : Obtainable c
  | ofRatio? {n d : Word .i64} {c : Fraction} (h : ofRatio? n d = .ok (some c)) : Obtainable c
  | parse {text : List Char} {c : Fraction} (h : parse text = .ok c) : Obtainable c
  | add {a b c : Fraction} (ha : Obtainable a) (hb : Obtainable b) (h : a.add b = .ok c) :
      Obtainable c
  | sub {a b c : Fraction} (ha : Obtainable a) (hb : Obtainable b) (h : a.sub b = .ok c) :
      Obtainable c
  | mul {a b c : Fraction} (ha : Obtainable a) (hb : Obtainable b) (h : a.mul b = .ok c) :
      Obtainable c
  | div {a b c : Fraction} (ha : Obtainable a) (hb : Obtainable b) (h : a.div b = .ok c) :
      Obtainable c
  | neg {a c : Fraction} (ha : Obtainable a) (h : a.neg = .ok c) : Obtainable c
  | abs {a c : Fraction} (ha : Obtainable a) (h : a.abs = .ok c) : Obtainable c
  | reciprocal? {a c : Fraction} (ha : Obtainable a) (h : a.reciprocal? = .ok (some c)) :
      Obtainable c

/-- What an operation returns is in lowest terms if it is `ofRat` of a number. -/
theorem normalized_of_eq_ofRat {result : Except FractionFault Fraction} {q : ℚ}
    (heq : result = ofRat q) (h : result = .ok c) : c.Normalized :=
  (ofRat_eq_ok_iff.mp (heq.symm.trans h)).1

theorem normalized_div (ha : a.Normalized) (hb : b.Normalized) (h : a.div b = .ok c) :
    c.Normalized := by
  have hzero : b ≠ 0 := by
    rintro rfl
    cases h
  exact normalized_of_eq_ofRat (div_eq ha hb hzero) h

theorem normalized_parse {text : List Char} (h : parse text = .ok c) : c.Normalized := by
  rcases parse_eq_ok h with ⟨n, rfl⟩ | ⟨n, d, hratio⟩
  · exact normalized_ofWord n
  · exact (ofRatio?_eq_ok_some hratio).2.1

theorem Obtainable.normalized (h : Obtainable a) : a.Normalized := by
  induction h with
  | zero => exact .zero
  | one => exact .one
  | default => exact .zero
  | ofWord n => exact normalized_ofWord n
  | ofRatio h => exact (ofRatio?_eq_ok_some (ofRatio_eq_ok h)).2.1
  | ofRatio? h => exact (ofRatio?_eq_ok_some h).2.1
  | parse h => exact normalized_parse h
  | add _ _ h ha hb => exact normalized_of_eq_ofRat (add_eq ha hb) h
  | sub _ _ h ha hb => exact normalized_of_eq_ofRat (sub_eq ha hb) h
  | mul _ _ h ha hb => exact normalized_of_eq_ofRat (mul_eq ha hb) h
  | div _ _ h ha hb => exact normalized_div ha hb h
  | neg _ h ha => exact normalized_of_eq_ofRat (neg_eq ha) h
  | abs _ h ha => exact normalized_of_eq_ofRat (abs_eq ha) h
  | reciprocal? _ h _ => exact (ofRatio?_eq_ok_some h).2.1

/-- A fraction that operations come to has a positive denominator without a
common divisor with the numerator, and it equals another such fraction just if
both stand for the same number. -/
theorem obtainable_lowest_terms (ha : Obtainable a) :
    (0 < a.denominator.val ∧ Int.gcd a.numerator.val a.denominator.val = 1) ∧
      ∀ b, Obtainable b → ((a == b) = true ↔ a.value = b.value) := by
  have hnormalized := ha.normalized
  refine ⟨⟨hnormalized.denominator_pos, hnormalized.coprime⟩, fun b hb => ?_⟩
  rw [beq_iff_eq]
  constructor
  · intro h
    rw [h]
  · exact hnormalized.eq_of_value_eq hb.normalized

def quarter : Fraction := ⟨1, ⟨4, by decide, by decide⟩⟩

def minusThreeQuarters : Fraction := ⟨⟨-3, by decide, by decide⟩, ⟨4, by decide, by decide⟩⟩

/-- Six over minus eight is two eighths, read from a text, less one. -/
theorem obtainable_lowest_terms_minusThreeQuarters :
    ∃ a c, ofRatio ⟨6, by decide, by decide⟩ ⟨-8, by decide, by decide⟩ = .ok a ∧
      parse " 2/ 8".toList = .ok quarter ∧ quarter.sub 1 = .ok c ∧
        Obtainable a ∧ Obtainable c ∧
          (0 < a.denominator.val ∧ Int.gcd a.numerator.val a.denominator.val = 1) ∧
            (a == c) = true ∧ a.value = c.value := by
  have hratio : ofRatio ⟨6, by decide, by decide⟩ ⟨-8, by decide, by decide⟩ =
      .ok minusThreeQuarters := by decide +kernel
  have hparse : parse " 2/ 8".toList = .ok quarter := by decide +kernel
  have hsub : quarter.sub 1 = .ok minusThreeQuarters := by decide +kernel
  have ha : Obtainable minusThreeQuarters := .ofRatio hratio
  have hc : Obtainable minusThreeQuarters := .sub (.parse hparse) .one hsub
  obtain ⟨hterms, hvalue⟩ := obtainable_lowest_terms ha
  exact ⟨_, _, hratio, hparse, hsub, ha, hc, hterms, BEq.rfl, (hvalue _ hc).mp BEq.rfl⟩

end PuzzleKit.Fraction

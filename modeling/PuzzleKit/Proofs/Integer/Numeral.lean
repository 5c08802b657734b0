import PuzzleKit.Integer.Numeral
import PuzzleKit.Proofs.Integer.Exact

/-!
# Reading numerals

The reader keeps a word and not just a number, so it can stop at a digit in the
middle. It never stops at a number that is in range, though. With each digit the
number moves away from zero, so whatever is read on the way lies between zero and
the number in the end, and a width has all numbers between two of its own. That is
the induction behind `readDigits_eq_ok_iff`: a sequence of digits is read to the
number it denotes, or that number is no word.

What is written is read back in every width. An unsigned one has no minus to read,
and none is written there either.
-/

namespace PuzzleKit

namespace Numeral

/-- A number with or without a minus. -/
def signedValue (negative : Bool) (n : Nat) : Int := if negative then -n else n

theorem le_ofDigitChars (k : Nat) (ds : List Char) : k ≤ Nat.ofDigitChars 10 ds k := by
  induction ds generalizing k with
  | nil => exact Nat.le_refl k
  | cons c ds ih =>
      rw [Nat.ofDigitChars_cons]
      have := ih (10 * k + (c.toNat - '0'.toNat))
      omega

theorem value_digits (n : Nat) : value (digits n) = n := Nat.ofDigitChars_ten_toDigits

theorem digits_ne_nil (n : Nat) : digits n ≠ [] := Nat.toDigits_ne_nil

theorem isDigit_of_mem_digits {n : Nat} {c : Char} (h : c ∈ digits n) : isDigit c = true :=
  Nat.isDigit_of_mem_toDigits (by decide) (by decide) h

/-- A digit is no sign. -/
theorem signAndDigits_eq_self (signed : Bool) {ds : List Char}
    (h : ∀ c ∈ ds, isDigit c = true) : signAndDigits signed ds = (false, ds) := by
  unfold signAndDigits
  split
  · exact absurd (h '+' (by simp)) (by decide)
  · exact absurd (h '-' (by simp)) (by decide)
  · rfl

theorem not_isBlank_of_isDigit {c : Char} (h : isDigit c = true) : ¬Text.isBlank c = true := by
  have hrange : 48 ≤ c.toNat ∧ c.toNat ≤ 57 := Char.isDigit_iff_toNat.mp h
  simp [Text.isBlank, Text.isWithin, Text.blankRanges]
  omega

/-- Decimal digits, at least one. -/
structure IsDigits (ds : List Char) : Prop where
  ne_nil : ds ≠ []
  isDigit : ∀ c ∈ ds, isDigit c = true

/-- The number that a numeral denotes: digits, and at most one sign before them. Where
there are no negative numbers there is no minus either. -/
inductive Denotes (signed : Bool) : List Char → Int → Prop
  | plain {ds : List Char} (h : IsDigits ds) : Denotes signed ds (value ds)
  | plus {ds : List Char} (h : IsDigits ds) : Denotes signed ('+' :: ds) (value ds)
  | minus {ds : List Char} (hs : signed = true) (h : IsDigits ds) :
    Denotes signed ('-' :: ds) (-value ds)

theorem Denotes.not_isBlank {signed : Bool} {cs : List Char} {v : Int} (h : Denotes signed cs v) :
    ∀ c ∈ cs, ¬Text.isBlank c = true := by
  have hdigits : ∀ ds, IsDigits ds → ∀ c ∈ ds, ¬Text.isBlank c = true := fun ds hds c hc =>
    not_isBlank_of_isDigit (hds.isDigit c hc)
  cases h with
  | plain hds => exact hdigits _ hds
  | plus hds => exact List.forall_mem_cons.mpr ⟨by decide, hdigits _ hds⟩
  | minus _ hds => exact List.forall_mem_cons.mpr ⟨by decide, hdigits _ hds⟩

/-- The characters of a numeral. -/
theorem mem_ofInt {v : Int} {c : Char} (h : c ∈ ofInt v) : c = '-' ∨ isDigit c = true := by
  unfold ofInt at h
  split at h
  · rcases List.mem_cons.mp h with h | h
    · exact .inl h
    · exact .inr (isDigit_of_mem_digits h)
  · exact .inr (isDigit_of_mem_digits h)

end Numeral

namespace Word

variable {w : Width} {a b : Word w} {negative : Bool}

open Numeral

/-- A width has every number between zero and one of its own. -/
theorem ofInt?_signedValue_isSome {k n : Nat} (hle : k ≤ n) (hb : b.val = signedValue negative n) :
    (ofInt? w (signedValue negative k)).isSome := by
  have hmin := w.min_le_zero
  have hmax := w.one_le_max
  have hbmin := b.min_le
  have hbmax := b.le_max
  have hrange : w.min ≤ signedValue negative k ∧ signedValue negative k ≤ w.max := by
    rw [hb] at hbmin hbmax
    cases negative <;> simp only [signedValue, Bool.false_eq_true, if_true, if_false] at * <;> omega
  simp [ofInt?, hrange]

theorem readDigits_eq_ok_iff {ds : List Char} {k : Nat} (ha : a.val = signedValue negative k) :
    readDigits negative a ds = .ok b ↔
      (∀ c ∈ ds, isDigit c = true) ∧ b.val = signedValue negative (Nat.ofDigitChars 10 ds k) := by
  induction ds generalizing a k with
  | nil =>
      rw [readDigits, Except.ok.injEq, Word.ext_iff, ha, Nat.ofDigitChars_nil]
      exact ⟨fun h => ⟨by simp, h.symm⟩, fun h => h.2.symm⟩
  | cons c ds ih =>
      rw [readDigits, Nat.ofDigitChars_cons]
      by_cases hc : isDigit c = true
      · have hnext : (if negative then 10 * a.val - (digitValue c : Int)
            else 10 * a.val + (digitValue c : Int)) =
              signedValue negative (10 * k + (c.toNat - '0'.toNat)) := by
          rw [ha]
          unfold signedValue digitValue
          split <;> omega
        simp only [hc, Bool.not_true, Bool.false_eq_true, if_false, hnext, List.forall_mem_cons,
          true_and]
        cases hword : ofInt? w (signedValue negative (10 * k + (c.toNat - '0'.toNat))) with
        | some next =>
            exact ih (ofInt?_eq_some_iff.mp hword)
        | none =>
            constructor
            · intro h
              cases h
            · intro h
              have hsome := ofInt?_signedValue_isSome (le_ofDigitChars _ ds) h.2
              rw [hword] at hsome
              cases hsome
      · simp [hc]

/-- A text is the numeral of a word if it is digits after an optional sign and the
number they denote is that word. -/
theorem parse_eq_ok_iff {cs : List Char} :
    parse w cs = .ok a ↔
      ∃ negative ds, signAndDigits w.signed cs = (negative, ds) ∧ ds ≠ [] ∧
        (∀ c ∈ ds, isDigit c = true) ∧ a.val = signedValue negative (value ds) := by
  have hzero : ∀ negative, (0 : Word w).val = signedValue negative 0 := by
    intro negative
    cases negative <;> rfl
  unfold parse
  split
  · next hempty =>
      rw [List.isEmpty_iff.mp hempty]
      simp [signAndDigits]
  · obtain ⟨negative, ds⟩ := signAndDigits w.signed cs
    dsimp only
    split
    · next hempty => simp [List.isEmpty_iff.mp hempty]
    · next hempty =>
        rw [List.isEmpty_iff] at hempty
        rw [readDigits_eq_ok_iff (hzero negative)]
        constructor
        · intro h
          exact ⟨negative, ds, rfl, hempty, h⟩
        · intro h
          obtain ⟨_, _, hpair, -, h⟩ := h
          cases hpair
          exact h

/-- The words that are read are those that numerals denote. -/
theorem parse_eq_ok_iff_denotes {cs : List Char} :
    parse w cs = .ok a ↔ Denotes w.signed cs a.val := by
  rw [parse_eq_ok_iff]
  constructor
  · rintro ⟨negative, ds, hsplit, hne, hdigits, hval⟩
    rw [hval]
    unfold signAndDigits at hsplit
    split at hsplit
    · cases hsplit
      exact .plus ⟨hne, hdigits⟩
    · next ds' =>
        split at hsplit
        · next hsigned =>
            cases hsplit
            exact .minus hsigned ⟨hne, hdigits⟩
        · cases hsplit
          exact .plain ⟨hne, hdigits⟩
    · cases hsplit
      exact .plain ⟨hne, hdigits⟩
  · intro h
    generalize a.val = v at h ⊢
    cases h with
    | plain hds =>
        exact ⟨false, _, signAndDigits_eq_self _ hds.isDigit, hds.ne_nil, hds.isDigit, rfl⟩
    | plus hds => exact ⟨false, _, rfl, hds.ne_nil, hds.isDigit, rfl⟩
    | minus hsigned hds => exact ⟨true, _, if_pos hsigned, hds.ne_nil, hds.isDigit, rfl⟩

/-- Digits that are not read to the end denote a number out of range. -/
theorem error_of_readDigits {ds : List Char} {e : NumeralError}
    (hdigits : ∀ c ∈ ds, isDigit c = true) (h : readDigits negative a ds = .error e) :
    e = if negative then .tooSmall else .tooLarge := by
  induction ds generalizing a with
  | nil => cases h
  | cons c ds ih =>
      obtain ⟨hc, hdigits⟩ := List.forall_mem_cons.mp hdigits
      rw [readDigits] at h
      simp only [hc, Bool.not_true, Bool.false_eq_true, if_false] at h
      split at h
      · exact ih hdigits h
      · cases h
        rfl

/-- The digits of a number are read, unless it is too large. -/
theorem parse_digits (w : Width) (n : Nat) :
    ((n : Int) ≤ w.max → ∃ a, parse w (digits n) = .ok a ∧ a.val = n) ∧
      (w.max < n → parse w (digits n) = .error .tooLarge) := by
  have hdigits : ∀ c ∈ digits n, isDigit c = true := fun c => isDigit_of_mem_digits
  have hparse : ∀ a : Word w, parse w (digits n) = .ok a ↔ a.val = n := by
    intro a
    rw [parse_eq_ok_iff, signAndDigits_eq_self _ hdigits]
    constructor
    · intro h
      obtain ⟨_, _, hsplit, -, -, hval⟩ := h
      cases hsplit
      rw [hval, value_digits]
      rfl
    · intro hval
      refine ⟨false, _, rfl, digits_ne_nil n, hdigits, ?_⟩
      rw [value_digits]
      exact hval
  constructor
  · intro hle
    refine ⟨⟨n, ?_, hle⟩, (hparse _).mpr rfl, rfl⟩
    have := w.min_le_zero
    omega
  · intro hlt
    cases h : parse w (digits n) with
    | ok a => exact absurd a.le_max (not_le.mpr ((hparse a).mp h ▸ hlt))
    | error e =>
        rw [parse, signAndDigits_eq_self _ hdigits] at h
        simp only [List.isEmpty_iff, digits_ne_nil, if_false] at h
        rw [error_of_readDigits hdigits h]
        rfl

/-- What is written is read back. -/
theorem parse_ofInt (a : Word w) : parse w (ofInt a.val) = .ok a := by
  have hdigits : ∀ c ∈ digits a.val.natAbs, isDigit c = true := fun c => isDigit_of_mem_digits
  have hvalue := value_digits a.val.natAbs
  rw [parse_eq_ok_iff, ofInt]
  split
  · next hneg =>
      have hsigned : w.signed = true := signed_of_neg hneg
      refine ⟨true, _, ?_, digits_ne_nil _, hdigits, ?_⟩
      · simp [signAndDigits, hsigned]
      · rw [hvalue, signedValue, if_pos rfl]
        omega
  · next hneg =>
      refine ⟨false, _, signAndDigits_eq_self _ hdigits, digits_ne_nil _, hdigits, ?_⟩
      rw [hvalue, signedValue, if_neg Bool.false_ne_true]
      omega

end Word

end PuzzleKit

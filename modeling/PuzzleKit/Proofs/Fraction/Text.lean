import PuzzleKit.Proofs.Fraction.Obtainable
import PuzzleKit.Proofs.Integer.Numeral
import PuzzleKit.Proofs.Sequence.Split
import PuzzleKit.Proofs.Text.Blank

/-!
# Writing fractions and reading them

A fraction is written as two numerals with a stroke between them, and neither a
numeral nor a blank has a stroke in it. So the stroke that was written is where the
text is split again, whatever blanks have come to stand around the numerals. What
is left is to reduce a fraction that is in lowest terms, and it is the fraction of
its own value.
-/

namespace PuzzleKit.Fraction

variable {a : Fraction} {left right text : List Char}

theorem not_isBlank_of_mem_ofInt {v : Int} {c : Char} (h : c ∈ Numeral.ofInt v) :
    ¬Text.isBlank c = true := by
  rcases Numeral.mem_ofInt h with rfl | hdigit
  · decide
  · exact Numeral.not_isBlank_of_isDigit hdigit

theorem ne_stroke_of_mem_ofInt {v : Int} {c : Char} (h : c ∈ Numeral.ofInt v) : c ≠ '/' := by
  rcases Numeral.mem_ofInt h with rfl | hdigit
  · decide
  · rintro rfl
    exact absurd hdigit (by decide)

theorem ne_stroke_of_padded {v : Int} {c : Char} (h : Text.Padded (Numeral.ofInt v) text)
    (hc : c ∈ text) : c ≠ '/' := by
  obtain ⟨before, after, hbefore, hafter, rfl⟩ := h
  intro hstroke
  simp only [List.mem_append] at hc
  rcases hc with (hc | hc) | hc
  · exact absurd (hbefore c hc) (by rw [hstroke]; decide)
  · exact ne_stroke_of_mem_ofInt hc hstroke
  · exact absurd (hafter c hc) (by rw [hstroke]; decide)

theorem parsePart_of_padded {n : Word .i64} (h : Text.Padded (Numeral.ofInt n.val) text) :
    parsePart text = .ok n := by
  have htrim := Text.trim_eq_of_padded h fun c => not_isBlank_of_mem_ofInt
  rw [parsePart, htrim, Word.parse_ofInt]

/-- Reducing the parts of a fraction in lowest terms changes nothing. -/
theorem Normalized.ofRatio?_eq (ha : a.Normalized) :
    ofRatio? a.numerator a.denominator = .ok (some a) := by
  have hzero := ha.denominator_pos.ne'
  have hvalue : ofRat (a.numerator.val / a.denominator.val) = .ok a :=
    ofRat_eq_ok_iff.mpr ⟨ha, rfl⟩
  rw [ofRatio?, if_neg hzero, reduced_wide_eq _ hzero, hvalue]
  rfl

/-- The text of an integer may leave out the denominator. -/
theorem parse_of_padded_word {n : Word .i64} (h : Text.Padded (Numeral.ofInt n.val) text) :
    parse text = .ok (ofWord n) := by
  have hstroke : ∀ c ∈ text, ¬decide (c = '/') = true := by
    intro c hc
    simpa using ne_stroke_of_padded h hc
  simp only [parse, splitOnce_eq_none hstroke, parsePart_of_padded h]
  rfl

theorem parse_of_padded_parts (ha : a.Normalized)
    (hleft : Text.Padded (Numeral.ofInt a.numerator.val) left)
    (hright : Text.Padded (Numeral.ofInt a.denominator.val) right) :
    parse (left ++ '/' :: right) = .ok a := by
  have hstroke : ∀ c ∈ left, ¬decide (c = '/') = true := by
    intro c hc
    simpa using ne_stroke_of_padded hleft hc
  have hsplit : splitOnce (fun c => decide (c = '/')) (left ++ '/' :: right) =
      some (left, right) := splitOnce_append_cons hstroke (by decide) right
  simp only [parse, hsplit, parsePart_of_padded hleft, parsePart_of_padded hright, bind,
    Except.bind, ha.ofRatio?_eq]

/-- A fraction in lowest terms is read from its text, and also where blanks are put
around the numerator and around the denominator. An integer is read from its numeral,
with blanks around it or without. -/
theorem parse_toText_padded (ha : a.Normalized) :
    parse a.toText.toList = .ok a ∧
      (∀ left right, Text.Padded (Numeral.ofInt a.numerator.val) left →
        Text.Padded (Numeral.ofInt a.denominator.val) right →
          parse (left ++ '/' :: right) = .ok a) ∧
      ∀ (n : Word .i64) (text : List Char), Text.Padded n.toText.toList text →
        parse text = .ok (ofWord n) := by
  refine ⟨?_, fun left right => parse_of_padded_parts ha, fun n text h => ?_⟩
  · rw [toText, String.toList_ofList]
    exact parse_of_padded_parts ha (.refl _) (.refl _)
  · rw [Word.toText, String.toList_ofList] at h
    exact parse_of_padded_word h

/-- The least numerator over the greatest denominator. -/
def extreme : Fraction := ⟨Word.minimum .i64, Word.maximum .i64⟩

theorem parse_toText_padded_extreme :
    extreme.Normalized ∧ parse extreme.toText.toList = .ok extreme ∧
      parse (" -9223372036854775808\t".toList ++ '/' ::
        "\u3000\u30009223372036854775807\n".toList) = .ok extreme ∧
      parse "\u00a0-9223372036854775808 ".toList = .ok (ofWord (Word.minimum .i64)) := by
  have hextreme : extreme.Normalized := by decide +kernel
  obtain ⟨htext, hparts, hword⟩ := parse_toText_padded hextreme
  have hblank : ∀ before : List Char, before.all Text.isBlank = true →
      ∀ c ∈ before, Text.isBlank c = true := fun _ => List.all_eq_true.mp
  refine ⟨hextreme, htext, ?_, ?_⟩
  · exact hparts _ _
      ⟨[' '], ['\t'], hblank _ (by decide), hblank _ (by decide), by decide +kernel⟩
      ⟨['\u3000', '\u3000'], ['\n'], hblank _ (by decide), hblank _ (by decide), by decide +kernel⟩
  · exact hword _ _
      ⟨['\u00a0'], [' '], hblank _ (by decide), hblank _ (by decide), by decide +kernel⟩

end PuzzleKit.Fraction

import PuzzleKit.Text.Blank

/-!
# Blanks around a text

Trimming takes the blanks at the two ends and nothing else, so what is left begins and
ends with no blank, and a text that does is what is left of it with blanks around.
-/

namespace PuzzleKit.Text

variable {text padded : List Char}

/-- A text with blanks before and after it, or none. -/
def Padded (text padded : List Char) : Prop :=
  ∃ before after : List Char, (∀ c ∈ before, isBlank c = true) ∧
    (∀ c ∈ after, isBlank c = true) ∧ padded = before ++ text ++ after

theorem Padded.refl (text : List Char) : Padded text text := ⟨[], [], by simp, by simp, by simp⟩

theorem trimStart_eq_self (h : ∀ c ∈ text, ¬isBlank c = true) : trimStart text = text := by
  cases text with
  | nil => rfl
  | cons c text => exact List.dropWhile_cons_of_neg (h c (by simp))

theorem trimStart_append {before : List Char} (h : ∀ c ∈ before, isBlank c = true)
    (text : List Char) : trimStart (before ++ text) = trimStart text :=
  List.dropWhile_append_of_pos h

theorem exists_eq_append_trimStart (text : List Char) :
    ∃ before : List Char, (∀ c ∈ before, isBlank c = true) ∧ text = before ++ trimStart text :=
  ⟨text.takeWhile isBlank, List.all_eq_true.mp List.all_takeWhile,
    (List.takeWhile_append_dropWhile (p := isBlank)).symm⟩

/-- Trimming takes nothing but blanks. -/
theorem padded_trim (text : List Char) : Padded (trim text) text := by
  obtain ⟨before, hbefore, htext⟩ := exists_eq_append_trimStart text
  obtain ⟨after, hafter, hrest⟩ := exists_eq_append_trimStart (trimStart text).reverse
  refine ⟨before, after.reverse, hbefore, fun c hc => hafter c (List.mem_reverse.mp hc), ?_⟩
  have hback : trimStart text = trim text ++ after.reverse := by
    rw [trim, ← List.reverse_append, ← hrest, List.reverse_reverse]
  rw [List.append_assoc, ← hback]
  exact htext

theorem trim_eq_of_padded (h : Padded text padded) (htext : ∀ c ∈ text, ¬isBlank c = true) :
    trim padded = text := by
  obtain ⟨before, after, hbefore, hafter, rfl⟩ := h
  rw [trim, List.append_assoc, trimStart_append hbefore]
  cases text with
  | nil =>
      rw [List.nil_append, ← List.append_nil after, trimStart_append hafter]
      rfl
  | cons c text =>
      have hstart : trimStart (c :: text ++ after) = c :: text ++ after :=
        List.dropWhile_cons_of_neg (htext c (by simp))
      have hend : trimStart (c :: text).reverse = (c :: text).reverse :=
        trimStart_eq_self fun c hc => htext c (List.mem_reverse.mp hc)
      rw [hstart, List.reverse_append, trimStart_append (by simpa using hafter), hend,
        List.reverse_reverse]

end PuzzleKit.Text

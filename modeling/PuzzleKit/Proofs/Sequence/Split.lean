import PuzzleKit.Sequence.Split

/-!
# Splitting and joining

The groups between separators are those of the library's `List.splitOnP`, so what
is known of that function is known here: joining the groups with the separator
they were split at gives back the sequence, and splitting a joined sequence gives
back the groups, if no group holds the separator.
-/

namespace PuzzleKit

variable {α : Type}

theorem splitWhere_eq_splitOnP (separator : α → Bool) (items : List α) :
    splitWhere separator items = items.splitOnP separator := by
  induction items with
  | nil => rfl
  | cons a items ih =>
      rw [splitWhere, List.splitOnP_cons_eq_if_modifyHead, ih]
      split
      · rfl
      · cases hgroups : items.splitOnP separator with
        | nil => exact absurd hgroups (List.splitOnP_ne_nil _ _)
        | cons group groups => rfl

theorem splitOnce_eq_none {separator : α → Bool} {items : List α}
    (h : ∀ a ∈ items, ¬separator a = true) : splitOnce separator items = none := by
  induction items with
  | nil => rfl
  | cons a items ih =>
      rw [splitOnce, if_neg (h a (by simp)), ih fun b hb => h b (by simp [hb])]
      rfl

theorem splitOnce_append_cons {separator : α → Bool} {before : List α} {a : α}
    (h : ∀ b ∈ before, ¬separator b = true) (ha : separator a = true) (after : List α) :
    splitOnce separator (before ++ a :: after) = some (before, after) := by
  induction before with
  | nil => simp [splitOnce, ha]
  | cons b before ih =>
      rw [List.cons_append, splitOnce, if_neg (h b (by simp)), ih fun c hc => h c (by simp [hc])]
      rfl

variable [DecidableEq α] {element : α} {groups : List (List α)}

theorem splitAtElement_eq_splitOn (element : α) (items : List α) :
    splitAtElement element items = items.splitOn element := by
  rw [splitAtElement, splitWhere_eq_splitOnP]
  rfl

theorem splitAtElement_ne_nil (element : α) (items : List α) :
    splitAtElement element items ≠ [] := by
  rw [splitAtElement_eq_splitOn]
  exact List.splitOn_ne_nil element items

/-- A separator at the end has an empty group after it. -/
theorem splitAtElement_concat (element : α) (items : List α) :
    splitAtElement element (items ++ [element]) = splitAtElement element items ++ [[]] := by
  rw [splitAtElement_eq_splitOn, splitAtElement_eq_splitOn, List.splitOn_append_cons_self,
    List.splitOn_nil]

theorem intercalate_splitAtElement (element : α) (items : List α) :
    [element].intercalate (splitAtElement element items) = items := by
  rw [splitAtElement_eq_splitOn]
  exact List.intercalate_splitOn element

theorem splitAtElement_intercalate (hgroups : ∀ group ∈ groups, element ∉ group)
    (hne : groups ≠ []) : splitAtElement element ([element].intercalate groups) = groups := by
  rw [splitAtElement_eq_splitOn]
  exact List.splitOn_intercalate element hgroups hne

omit [DecidableEq α] in
theorem intercalate_cons (element : α) (first : List α) (groups : List (List α)) :
    [element].intercalate (first :: groups) = first ++ groups.flatMap (element :: ·) := by
  induction groups generalizing first with
  | nil => simp
  | cons next groups ih =>
      rw [List.intercalate_cons_cons, ih, List.flatMap_cons, List.append_assoc]
      rfl

omit [DecidableEq α] in
theorem intercalate_concat (hne : groups ≠ []) (last : List α) :
    [element].intercalate (groups ++ [last]) =
      [element].intercalate groups ++ element :: last := by
  cases groups with
  | nil => exact absurd rfl hne
  | cons first groups =>
      rw [List.cons_append, intercalate_cons, intercalate_cons, List.flatMap_append,
        List.append_assoc, List.flatMap_singleton]

omit [DecidableEq α] in
theorem subset_intercalate (element : α) {group : List α} (h : group ∈ groups) :
    group ⊆ [element].intercalate groups := by
  cases groups with
  | nil => cases h
  | cons first groups =>
      rw [intercalate_cons]
      rcases List.mem_cons.mp h with rfl | h
      · exact List.subset_append_left _ _
      · intro a ha
        exact List.mem_append_right _ (List.mem_flatMap.mpr ⟨group, h, List.mem_cons_of_mem _ ha⟩)

end PuzzleKit

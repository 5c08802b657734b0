import PuzzleKit.Proofs.Sequence.Split

/-!
# Groups and separators make up the sequence

Splitting drops the separators and nothing else. There is one more group than there are
separators, no group holds one, and with the separators put back between the groups
(`interleave`) the sequence is there again. Which separators these were is lost where
they differ; where all are the same element, the groups alone give back the sequence by
joining them, and any groups without that element are what a split of the joined
sequence finds.

The inductions are over the items. An item is put in front of what the rest was split
into, so it either closes an empty group or goes into the first one, and that one is
always there (`exists_splitWhere_eq_cons`).
-/

namespace PuzzleKit

variable {α : Type} {separator : α → Bool} {items group : List α} {groups : List (List α)} {a : α}

/-- Groups with an item between each two of them. No item is left out: those that have no
place between two groups come at the end. -/
def interleave : List (List α) → List α → List α
  | [], between => between
  | group :: groups, [] => group ++ interleave groups []
  | group :: groups, a :: between => group ++ a :: interleave groups between

theorem exists_splitWhere_eq_cons (separator : α → Bool) (items : List α) :
    ∃ group groups, splitWhere separator items = group :: groups := by
  rw [splitWhere_eq_splitOnP]
  exact List.exists_cons_of_ne_nil (List.splitOnP_ne_nil _ _)

theorem splitWhere_cons_of_pos (ha : separator a = true) :
    splitWhere separator (a :: items) = [] :: splitWhere separator items := if_pos ha

theorem splitWhere_cons_of_neg (ha : ¬separator a = true)
    (hrest : splitWhere separator items = group :: groups) :
    splitWhere separator (a :: items) = (a :: group) :: groups := by
  rw [splitWhere, if_neg ha, hrest]
  rfl

/-- A separator more is a group more. -/
theorem length_splitWhere (separator : α → Bool) (items : List α) :
    (splitWhere separator items).length = items.countP separator + 1 := by
  induction items with
  | nil => rfl
  | cons a items ih =>
      by_cases ha : separator a = true
      · rw [splitWhere_cons_of_pos ha, List.countP_cons_of_pos ha, List.length_cons, ih]
      · obtain ⟨group, groups, hrest⟩ := exists_splitWhere_eq_cons separator items
        rw [splitWhere_cons_of_neg ha hrest, List.countP_cons_of_neg ha, ← ih, hrest]
        rfl

theorem not_separator_of_mem_splitWhere (hgroup : group ∈ splitWhere separator items)
    (ha : a ∈ group) : ¬separator a = true := by
  induction items generalizing group with
  | nil =>
      cases List.mem_singleton.mp hgroup
      cases ha
  | cons b items ih =>
      by_cases hb : separator b = true
      · rw [splitWhere_cons_of_pos hb] at hgroup
        rcases List.mem_cons.mp hgroup with rfl | hgroup
        · cases ha
        · exact ih hgroup ha
      · obtain ⟨first, groups, hrest⟩ := exists_splitWhere_eq_cons separator items
        rw [splitWhere_cons_of_neg hb hrest] at hgroup
        rw [hrest] at ih
        rcases List.mem_cons.mp hgroup with rfl | hgroup
        · rcases List.mem_cons.mp ha with rfl | ha
          · exact hb
          · exact ih List.mem_cons_self ha
        · exact ih (List.mem_cons_of_mem first hgroup) ha

/-- What stands first in the first group stands first in the sequence. -/
theorem interleave_cons_cons (a : α) (group : List α) (groups : List (List α))
    (between : List α) :
    interleave ((a :: group) :: groups) between = a :: interleave (group :: groups) between := by
  cases between <;> rfl

/-- The groups with the separators between them are the sequence. -/
theorem interleave_splitWhere (separator : α → Bool) (items : List α) :
    interleave (splitWhere separator items) (items.filter separator) = items := by
  induction items with
  | nil => rfl
  | cons a items ih =>
      by_cases ha : separator a = true
      · rw [splitWhere_cons_of_pos ha, List.filter_cons_of_pos ha, interleave, ih]
        rfl
      · obtain ⟨group, groups, hrest⟩ := exists_splitWhere_eq_cons separator items
        rw [splitWhere_cons_of_neg ha hrest, List.filter_cons_of_neg ha, interleave_cons_cons,
          ← hrest, ih]

/-- Splitting takes a sequence apart into groups and separators, and nothing is lost.
Joining is the inverse of splitting at an element, from either side. -/
theorem splitWhere_inverse (separator : α → Bool) (items : List α) :
    ((splitWhere separator items).length = items.countP separator + 1 ∧
      (∀ group ∈ splitWhere separator items, ∀ a ∈ group, ¬separator a = true) ∧
      interleave (splitWhere separator items) (items.filter separator) = items) ∧
    ∀ [DecidableEq α] (element : α),
      [element].intercalate (splitAtElement element items) = items ∧
      ∀ groups : List (List α), groups ≠ [] → (∀ group ∈ groups, element ∉ group) →
        splitAtElement element ([element].intercalate groups) = groups := by
  refine ⟨⟨length_splitWhere separator items, ?_, interleave_splitWhere separator items⟩, ?_⟩
  · intro group hgroup a ha
    exact not_separator_of_mem_splitWhere hgroup ha
  · intro _ element
    refine ⟨intercalate_splitAtElement element items, fun groups hne hgroups => ?_⟩
    exact splitAtElement_intercalate hgroups hne

/-- Commas at both ends and next to each other, with the empty groups they make. -/
theorem splitWhere_inverse_commas :
    interleave [[], ['a'], [], ['b', 'c'], []] [',', ',', ',', ','] = ",a,,bc,".toList ∧
      (∀ group ∈ [[], ['a'], [], ['b', 'c'], []], ',' ∉ group) ∧
      splitAtElement ',' ",a,,bc,".toList = [[], ['a'], [], ['b', 'c'], []] := by
  have hsplit : splitWhere (· = ',') ",a,,bc,".toList = [[], ['a'], [], ['b', 'c'], []] := by
    decide
  have hgroups : ∀ group ∈ [[], ['a'], [], ['b', 'c'], []], ',' ∉ group := by decide
  obtain ⟨⟨-, -, hinterleave⟩, hjoin⟩ := splitWhere_inverse (· = ',') ",a,,bc,".toList
  obtain ⟨-, hback⟩ := hjoin ','
  refine ⟨?_, hgroups, hback _ (by decide) hgroups⟩
  rw [hsplit] at hinterleave
  exact hinterleave

end PuzzleKit

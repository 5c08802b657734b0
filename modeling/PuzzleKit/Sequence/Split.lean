/-!
# Splitting sequences at separators

A separator ends the group before it and begins the group after it, so a
sequence with `n` separators has exactly `n + 1` groups and some of them may
be empty: the groups at either end, and the group between two adjacent
separators. The separators themselves are dropped.
-/

namespace PuzzleKit

/-- Put an item in front of the first group. -/
def consGroup {α : Type} (a : α) : List (List α) → List (List α)
  | [] => [[a]]
  | group :: groups => (a :: group) :: groups

/-- The groups of items between the separators, in order. -/
def splitWhere {α : Type} (separator : α → Bool) : List α → List (List α)
  | [] => [[]]
  | a :: items =>
    if separator a then [] :: splitWhere separator items
    else consGroup a (splitWhere separator items)

/-- The groups between the items equal to one element. -/
def splitAtElement {α : Type} [DecidableEq α] (element : α) (items : List α) : List (List α) :=
  splitWhere (fun a => decide (a = element)) items

/-- The items before the first separator and those after it, if there is one. -/
def splitOnce {α : Type} (separator : α → Bool) : List α → Option (List α × List α)
  | [] => none
  | a :: items =>
    if separator a then some ([], items)
    else (splitOnce separator items).map fun (before, after) => (a :: before, after)

end PuzzleKit

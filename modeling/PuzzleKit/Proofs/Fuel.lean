/-!
# Runs on fuel

A run that need not end takes fuel. What is promised of such a run has two
halves: there is an amount from which on it always ends, and whatever amount it
is given, what it ends with is right. Neither half says anything without the
other.
-/

namespace PuzzleKit

variable {α : Type}

/-- The run ends with any fuel from some amount on, and it only ever ends with
what `P` holds of. -/
structure Ends (run : Nat → Option α) (P : α → Prop) : Prop where
  isSome : ∃ bound, ∀ fuel, bound ≤ fuel → (run fuel).isSome
  sound : ∀ fuel a, run fuel = some a → P a

end PuzzleKit

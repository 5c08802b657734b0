import PuzzleKit.Search.Exploration

/-!
# Kinds of search

The rules of the searches that are offered: for the best state at a target,
for the best state of every identity, for a flood that takes the first state
of every identity, and for step counts, where a state is an identity with the
number of steps taken to it and fewer steps are better.
-/

namespace PuzzleKit.Search

variable {S Id : Type}

namespace Rules

/-- The best state at a target, and the best ones on the way there. -/
def best (identity : S → Id) (compare : S → S → Ordering) (target : Id)
    (traversal : Traversal) : Rules S Id :=
  ⟨identity, .improving compare, some target, traversal⟩

/-- The best state of every identity that can be reached. -/
def all (identity : S → Id) (compare : S → S → Ordering) (traversal : Traversal) : Rules S Id :=
  ⟨identity, .improving compare, none, traversal⟩

/-- The first state of every identity that can be reached. -/
def flood (identity : S → Id) (traversal : Traversal) : Rules S Id :=
  ⟨identity, .firstSeen, none, traversal⟩

/-- Every state that can be reached. -/
def floodStates (traversal : Traversal) : Rules S S := flood id traversal

end Rules

/-- An identity, and the number of steps taken to it. -/
structure Stepped (Id : Type) where
  id : Id
  steps : Nat
deriving DecidableEq

/-- Fewer steps are better, whatever they lead to. -/
def Stepped.compare (a b : Stepped Id) : Ordering := Ord.compare a.steps b.steps

/-- The out-neighbours of an identity in order, each one step further. -/
def Stepped.successors (neighbors : Id → List Id) (s : Stepped Id) : List (Stepped Id) :=
  (neighbors s.id).map fun id => ⟨id, s.steps + 1⟩

namespace Rules

/-- The fewest steps to a target, and to what lies on the way there. -/
def bestSteps (target : Id) (traversal : Traversal) : Rules (Stepped Id) Id :=
  best Stepped.id Stepped.compare target traversal

/-- The fewest steps to every identity that can be reached. -/
def allSteps (traversal : Traversal) : Rules (Stepped Id) Id :=
  all Stepped.id Stepped.compare traversal

end Rules

variable [DecidableEq Id] [Hashable Id]

def Expansion.ofNeighbors {M : Type} (neighbors : Id → List Id) :
    Expansion (Stepped Id) Id M :=
  .ofSuccessors (Stepped.successors neighbors)

end PuzzleKit.Search

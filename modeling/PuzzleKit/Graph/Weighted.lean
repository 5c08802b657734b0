import PuzzleKit.Recursion
import PuzzleKit.Search.Rules

/-!
# Weighted graphs

A directed graph gives each node its edges in order, an edge being the next
node and the weight of going there. A search over it looks at arrivals: nodes
together with the cost of the walk that led there. Weights may be negative, so
a search need not end; it can be held to a number of expansions that still
offer anything.

Counting weighted walks is the recursion over the same graph: the walks from a
node with a number of steps left are those from its successors with one step
less, each times the weight of the edge.
-/

namespace PuzzleKit

/-- The edges of each node, in order. -/
structure WeightedGraph (N : Type) where
  edges : N → List (N × Int)

/-- A node, and the cost of a walk to it. -/
structure Arrival (N : Type) where
  cost : Int
  node : N
deriving DecidableEq, Hashable

/-- Arrivals are ordered by cost, then by node. -/
instance {N : Type} [Ord N] : Ord (Arrival N) :=
  ⟨fun a b => (compare a.cost b.cost).then (compare a.node b.node)⟩

namespace Arrival

/-- The part of a node's name before the first point. -/
def group (a : Arrival String) : String := String.ofList (a.node.toList.takeWhile (· != '.'))

/-- The name of the node with the residue of the cost. -/
def residue (m : Int) (a : Arrival String) : String :=
  a.node ++ ":" ++ toString (a.cost % m)

/-- Ways to identify arrivals, by name. -/
def identity? (m : Int) : String → Option (Arrival String → String)
  | "node" => some Arrival.node
  | "group" => some group
  | "mod" => some (residue m)
  | _ => none

/-- Ways to compare arrivals, by name; the last three are the same whatever
they compare. -/
def order? : String → Option (Arrival String → Arrival String → Ordering)
  | "cost" => some fun a b => compare a.cost b.cost
  | "cost_desc" => some fun a b => compare b.cost a.cost
  | "node" => some fun a b => compare a.node b.node
  | "equal" => some fun _ _ => .eq
  | "less" => some fun _ _ => .lt
  | "greater" => some fun _ _ => .gt
  | _ => none

end Arrival

namespace WeightedGraph

open Search

variable {N : Type}

/-- The nodes one edge further, in order. -/
def neighbors (g : WeightedGraph N) (n : N) : List N := (g.edges n).map Prod.fst

def steppedSuccessors (g : WeightedGraph N) : Stepped N → List (Stepped N) :=
  Stepped.successors g.neighbors

/-- The arrivals one edge further, in order. -/
def successors (g : WeightedGraph N) (a : Arrival N) : List (Arrival N) :=
  (g.edges a.node).map fun (next, weight) => ⟨a.cost + weight, next⟩

end WeightedGraph

namespace Search

/-- The expansion that offers the successors of a state, but nothing once
`limit` states have been expanded. Its memory is the number of those. -/
def Expansion.limited {S Id : Type} [DecidableEq Id] [Hashable Id] (limit : Nat)
    (successors : S → List S) : Expansion S Id Nat :=
  fun s expanded _ => .ofList (expanded + 1) (if expanded < limit then successors s else [])

end Search

/-- The values of the recursion are counted modulo this prime. -/
def countModulus : Int := 1000000007

/-- A node, and the number of steps still allowed. -/
structure WalkState (N : Type) where
  node : N
  stepsLeft : Nat
deriving DecidableEq, Hashable

namespace WeightedGraph

open Recursion

variable {N : Type}

/-- Add up, edge by edge, the walks over the edges of a node. -/
def sumOverEdges (stepsLeft : Nat) : Int → List (N × Int) → Query (WalkState N) Int
  | total, [] => .answer total
  | total, (next, weight) :: edges =>
    .ask ⟨next, stepsLeft⟩ fun walks =>
      sumOverEdges stepsLeft ((total + walks * (weight % countModulus)) % countModulus) edges

/-- The walks to a target: one from the target itself, none from elsewhere
without steps left, or else those over each edge. -/
def countWalks [DecidableEq N] (g : WeightedGraph N) (target : N) (s : WalkState N) :
    Query (WalkState N) Int :=
  if s.node = target then .answer 1
  else
    match s.stepsLeft with
    | 0 => .answer 0
    | stepsLeft + 1 => sumOverEdges stepsLeft 0 (g.edges s.node)

/-- The recursion that counts walks, up to an identity of states. -/
def walkRule [DecidableEq N] {Id : Type} (g : WeightedGraph N) (target : N)
    (identity : WalkState N → Id) : Rule (WalkState N) Id Int :=
  ⟨identity, g.countWalks target⟩

/-- The greatest number of steps left in some states. -/
def mostSteps (starts : List (WalkState N)) : Nat :=
  starts.foldl (fun most s => Nat.max most s.stepsLeft) 0

/-- The numbers of walks from some states, counted one after the other with
one memory. Each question leaves one step less, so they nest no deeper than
there are steps. -/
def countAll [DecidableEq N] {Id : Type} [DecidableEq Id] [Hashable Id] (g : WeightedGraph N)
    (target : N) (identity : WalkState N → Id) (starts : List (WalkState N)) :
    Option (List (Evaluation (WalkState N) Id Int)) :=
  evaluateAll (g.walkRule target identity) (mostSteps starts + 1) starts Memory.empty

end WeightedGraph

end PuzzleKit

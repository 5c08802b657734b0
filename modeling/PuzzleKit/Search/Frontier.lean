import Std.Data.HashMap

/-!
# The frontier of a search

A frontier is what a search has found so far: the states waiting for their
expansion, the state kept for each identity, and the best state that reached
the target. States enter it by being offered. An offer is answered at once and
takes effect at once, so a later offer of the same expansion already meets it.

Which offers are admitted depends on the search. Either the first state of
each identity is kept and every later one refused, or states compare and a
better one takes the place of the one kept. In the second case the target is
never kept or queued: a state that reaches it competes only for being the best.
-/

namespace PuzzleKit.Search

/-- The order in which waiting states are taken. -/
inductive Traversal
  | breadthFirst
  | depthFirst
deriving DecidableEq

def Traversal.name : Traversal → String
  | .breadthFirst => "BreadthFirst"
  | .depthFirst => "DepthFirst"

def Traversal.ofName? : String → Option Traversal
  | "bfs" => some .breadthFirst
  | "dfs" => some .depthFirst
  | "default" => some .breadthFirst
  | _ => none

/-- The queue with one more state, where the next to be taken is its head. -/
def Traversal.enqueue {S : Type} : Traversal → S → List S → List S
  | .breadthFirst, s, queue => queue ++ [s]
  | .depthFirst, s, queue => s :: queue

/-- What decides over an offered state; in a comparison, less is better. -/
inductive Admission (S : Type)
  | firstSeen
  | improving (compare : S → S → Ordering)

structure Frontier (S Id : Type) [DecidableEq Id] [Hashable Id] where
  /-- The waiting states, the next one first. -/
  queue : List S
  /-- The state kept for each identity. -/
  seen : Std.HashMap Id S
  /-- The best state that reached the target. -/
  best : Option S

/-- What a search is about, apart from how its states are expanded. -/
structure Rules (S Id : Type) where
  identity : S → Id
  admission : Admission S
  target : Option Id
  traversal : Traversal

/-- Whether `s` is better than the state it competes with, if there is one. -/
def improves {S : Type} (compare : S → S → Ordering) (s : S) : Option S → Bool
  | none => true
  | some rival => compare s rival == .lt

namespace Frontier

variable {S Id : Type} [DecidableEq Id] [Hashable Id]

/-- The frontier before anything is expanded. -/
def start (rules : Rules S Id) (s : S) : Frontier S Id where
  queue := [s]
  seen := Std.HashMap.emptyWithCapacity.insert (rules.identity s) s
  best := none

/-- The state kept for an identity. -/
def known (f : Frontier S Id) (id : Id) : Option S := f.seen[id]?

/-- The states kept, in the order of their identities. -/
def entries [Ord Id] (f : Frontier S Id) : List (Id × S) :=
  f.seen.toList.mergeSort fun a b => compare a.1 b.1 != .gt

/-- Keep a state for its identity, and let it wait for its expansion. -/
def keep (rules : Rules S Id) (f : Frontier S Id) (s : S) : Frontier S Id :=
  { f with
    queue := rules.traversal.enqueue s f.queue
    seen := f.seen.insert (rules.identity s) s }

/-- Offer a state; whether it was admitted. -/
def offer (rules : Rules S Id) (f : Frontier S Id) (s : S) : Bool × Frontier S Id :=
  match rules.admission with
  | .firstSeen =>
    if f.seen.contains (rules.identity s) then (false, f) else (true, f.keep rules s)
  | .improving compare =>
    if rules.target = some (rules.identity s) then
      if improves compare s f.best then (true, { f with best := some s }) else (false, f)
    else
      if improves compare s (f.known (rules.identity s)) then (true, f.keep rules s)
      else (false, f)

/-- Whether a waiting state is not worth its expansion: it cannot beat the
best one, or its identity is now kept by a better one. -/
def isStale (rules : Rules S Id) (f : Frontier S Id) (s : S) : Bool :=
  match rules.admission with
  | .firstSeen => false
  | .improving compare =>
    (f.best.any fun best => compare best s != .gt) ||
      ((f.known (rules.identity s)).any fun kept => compare kept s == .lt)

end Frontier

end PuzzleKit.Search

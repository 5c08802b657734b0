import PuzzleKit.Log
import PuzzleKit.Search.Frontier

/-!
# Exploring a state space

An exploration takes the waiting states one after another and expands those
that are still worth it. An expansion is a dialogue: it offers a state, is told
whether the state was admitted and what the frontier looks like now, and goes
on from there. It may keep a memory of its own from one expansion to the next.
So nothing is assumed of an expansion, and one that offers a fixed list of
successors is the special case in which the theory of reachability applies.

A search need not end, hence it runs on fuel, one unit for each waiting state
it takes. What a run has done is recorded in full, since the order of
expansions and the fate of each offer is what the search promises.
-/

namespace PuzzleKit.Search

variable {S Id M : Type} [DecidableEq Id] [Hashable Id]

/-- What remains of the expansion of a state: it is over and leaves a memory,
or it offers a state and goes on with the answer. -/
inductive Dialogue (S Id M : Type) [DecidableEq Id] [Hashable Id]
  | done (memory : M)
  | offer (state : S) (next : Bool → Frontier S Id → Dialogue S Id M)

/-- Offer the states of a list in turn, whatever the answers. -/
def Dialogue.ofList (memory : M) : List S → Dialogue S Id M
  | [] => .done memory
  | s :: states => .offer s fun _ _ => ofList memory states

/-- How a state is expanded, given the memory and the frontier. -/
abbrev Expansion (S Id M : Type) [DecidableEq Id] [Hashable Id] :=
  S → M → Frontier S Id → Dialogue S Id M

/-- The expansion that offers the successors of a state in order. -/
def Expansion.ofSuccessors (successors : S → List S) : Expansion S Id M :=
  fun s memory _ => .ofList memory (successors s)

/-- One offer, with what the frontier knew right after it: the state kept for
the identity of the offered one, and the best state at the target. -/
structure Offer (S : Type) where
  state : S
  admitted : Bool
  kept : Option S
  best : Option S

/-- An expanded state with the offers it made. -/
structure Visit (S : Type) where
  state : S
  offers : List (Offer S)

/-- Carry out a dialogue with a frontier. -/
def Dialogue.run (rules : Rules S Id) :
    Dialogue S Id M → Frontier S Id → List (Offer S) × Frontier S Id × M
  | .done memory, f => ([], f, memory)
  | .offer s next, f =>
    let (admitted, f) := f.offer rules s
    let (offers, rest) := (next admitted f).run rules f
    (⟨s, admitted, f.known (rules.identity s), f.best⟩ :: offers, rest)

/-- A search under way, or over if nothing waits. -/
structure Exploration (S Id M : Type) [DecidableEq Id] [Hashable Id] where
  frontier : Frontier S Id
  memory : M
  /-- The expansions so far, the latest first. -/
  history : List (Visit S)

namespace Exploration

def start (rules : Rules S Id) (memory : M) (s : S) : Exploration S Id M :=
  ⟨Frontier.start rules s, memory, []⟩

/-- Deal with the next waiting state; `none` if there is none. -/
def step? (rules : Rules S Id) (expand : Expansion S Id M) (e : Exploration S Id M) :
    Option (Exploration S Id M) :=
  match e.frontier.queue with
  | [] => none
  | s :: queue =>
    let f := { e.frontier with queue }
    if f.isStale rules s then some { e with frontier := f }
    else
      let (offers, f, memory) := (expand s e.memory f).run rules f
      some ⟨f, memory, ⟨s, offers⟩ :: e.history⟩

/-- Go on until nothing waits; `none` if the fuel runs out first. -/
def run (rules : Rules S Id) (expand : Expansion S Id M) :
    Nat → Exploration S Id M → Option (Exploration S Id M)
  | 0, _ => none
  | fuel + 1, e =>
    match e.step? rules expand with
    | none => some e
    | some next => next.run rules expand fuel

/-- The expansions in the order in which they were made. -/
def visits (e : Exploration S Id M) : List (Visit S) := e.history.reverse

/-- The expanded states in order. -/
def visited (e : Exploration S Id M) : List S := e.visits.map Visit.state

/-- The report on a search, which names the order it was made in. -/
def logEntry (e : Exploration S Id M) (traversal : Traversal) : LogEntry :=
  let expanded := e.history.length
  let identities := e.frontier.seen.size
  ⟨.debug,
    s!"{traversal.name} search expanded {expanded} states over {identities} identities"⟩

end Exploration

/-- Search from a state until nothing waits. -/
def explore (fuel : Nat) (rules : Rules S Id) (expand : Expansion S Id M) (memory : M) (s : S) :
    Option (Exploration S Id M) :=
  (Exploration.start rules memory s).run rules expand fuel

end PuzzleKit.Search

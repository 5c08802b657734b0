import Std.Data.HashMap
import PuzzleKit.Log

/-!
# Memoised recursion

The value of a state is computed from the values of other states, which are
asked for one at a time, so that later questions may depend on earlier
answers. A value that was asked for is kept under the identity of its state
and never computed again; the state that an evaluation starts from is always
computed, neither looked up nor kept. What is kept outlives the evaluation and
serves the next one.

A recursion need not end, hence it runs on fuel, which bounds how deep the
questions nest.
-/

namespace PuzzleKit.Recursion

/-- What remains of the computation of a value: the answer, or a question
after which it goes on. -/
inductive Query (S O : Type)
  | answer (value : O)
  | ask (state : S) (next : O → Query S O)

/-- A recursive function on states, up to identity. -/
structure Rule (S Id O : Type) where
  identity : S → Id
  query : S → Query S O

/-- The beginning of the computation of a state, with the number of values
kept at that moment. -/
structure Call (S : Type) where
  state : S
  kept : Nat

/-- The values kept so far, and a record of the computations. -/
structure Memory (S Id O : Type) [DecidableEq Id] [Hashable Id] where
  values : Std.HashMap Id O
  /-- The computations begun so far, the latest first. -/
  history : List (Call S)

variable {S Id O : Type} [DecidableEq Id] [Hashable Id]

namespace Memory

def empty : Memory S Id O := ⟨Std.HashMap.emptyWithCapacity, []⟩

/-- Record the beginning of a computation. -/
def begin (m : Memory S Id O) (s : S) : Memory S Id O :=
  { m with history := ⟨s, m.values.size⟩ :: m.history }

/-- The computations in the order in which they began. -/
def calls (m : Memory S Id O) : List (Call S) := m.history.reverse

/-- The number of values kept. -/
def size (m : Memory S Id O) : Nat := m.values.size

def logEntry (m : Memory S Id O) : LogEntry :=
  ⟨.debug, s!"memoized search cached {m.size} values"⟩

end Memory

/-- Carry out a computation, given what answers its questions. -/
def Query.resolve (answer : S → Memory S Id O → Option (O × Memory S Id O)) :
    Query S O → Memory S Id O → Option (O × Memory S Id O)
  | .answer value, m => some (value, m)
  | .ask s next, m => do
    let (value, m) ← answer s m
    (next value).resolve answer m

/-- Compute the value of a state, with questions nested less than `fuel` deep. -/
def evaluate (rule : Rule S Id O) : Nat → S → Memory S Id O → Option (O × Memory S Id O)
  | 0, _, _ => none
  | fuel + 1, s, m =>
    (rule.query s).resolve (fun s m =>
      match m.values[rule.identity s]? with
      | some value => some (value, m)
      | none => do
        let (value, m) ← evaluate rule fuel s m
        return (value, { m with values := m.values.insert (rule.identity s) value }))
      (m.begin s)

/-- An evaluation: its value, the memory it left, and the computations that it
made itself. -/
structure Evaluation (S Id O : Type) [DecidableEq Id] [Hashable Id] where
  value : O
  memory : Memory S Id O
  calls : List (Call S)

/-- Compute the values of several states in turn with one memory. -/
def evaluateAll (rule : Rule S Id O) (fuel : Nat) :
    List S → Memory S Id O → Option (List (Evaluation S Id O))
  | [], _ => some []
  | s :: states, m => do
    let (value, after) ← evaluate rule fuel s m
    let rest ← evaluateAll rule fuel states after
    return ⟨value, after, after.calls.drop m.calls.length⟩ :: rest

/-- Compute the value of one state from scratch. -/
def evaluateFresh (rule : Rule S Id O) (fuel : Nat) (s : S) : Option (O × Memory S Id O) :=
  evaluate rule fuel s Memory.empty

end PuzzleKit.Recursion

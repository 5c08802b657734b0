import PuzzleKit.Integer.Checked

/-!
# Inclusive intervals

An interval holds the words from its first to its last, and is empty if the
last is less than the first. Its values can be taken one after the other. One
that has lost its last value is empty, too, but it still has two bounds that
enclose something, because there may be no word after the last; it is marked as
exhausted instead. Size, intersection and parts go by the bounds alone.

Merging a list of intervals sorts it and then joins each interval to the one
before it wherever no value lies between them; that test adds one to the end of
an interval, and stays at the greatest word where there is no next one.
-/

namespace PuzzleKit

structure Interval (w : Width) where
  first : Word w
  last : Word w
  exhausted : Bool
deriving DecidableEq

namespace Interval

variable {w : Width}

/-- The interval with the given bounds, before any of its values is taken. -/
def fromTo (first last : Word w) : Interval w := ⟨first, last, false⟩

def isEmpty (a : Interval w) : Bool := a.exhausted || a.last < a.first

instance : Membership (Word w) (Interval w) :=
  ⟨fun a v => a.exhausted = false ∧ a.first ≤ v ∧ v ≤ a.last⟩

/-- The least value, and the interval after it has been taken. -/
def take? (a : Interval w) : Option (Word w × Interval w) :=
  if a.isEmpty then none
  else if a.first < a.last then some (a.first, fromTo a.first.saturatingSucc a.last)
  else some (a.first, ⟨a.first, a.last, true⟩)

/-- The number of words between the bounds; it may be one more than the width
can hold. -/
def size (a : Interval w) : Except ArithmeticFault (Word w) :=
  if a.last < a.first then .ok 0
  else do
    let difference ← a.last.sub a.first
    difference.add 1

/-- The words between the bounds of both, if there are any. -/
def intersect? (a b : Interval w) : Option (Interval w) :=
  let overlap : Interval w := fromTo (max a.first b.first) (min a.last b.last)
  if overlap.isEmpty then none else some overlap

/-- The part of the union that comes before the overlap. -/
def partBefore (overlap : Interval w) (first : Word w) :
    Except ArithmeticFault (List (Interval w)) :=
  if first < overlap.first then do return [fromTo first (← overlap.first.sub 1)] else .ok []

/-- The part of the union that comes after the overlap. -/
def partAfter (overlap : Interval w) (last : Word w) :
    Except ArithmeticFault (List (Interval w)) :=
  if overlap.last < last then do return [fromTo (← overlap.last.add 1) last] else .ok []

/-- The values in exactly one of two intervals that hold all between their
bounds. Intervals that do not overlap are returned as they are, empty ones too;
of those that do, the parts before and after the overlap are returned where they
are not empty. -/
def disjointParts (a b : Interval w) : Except ArithmeticFault (List (Interval w)) :=
  match a.intersect? b with
  | none => .ok [a, b]
  | some overlap => do
    let before ← partBefore overlap (min a.first b.first)
    let after ← partAfter overlap (max a.last b.last)
    return before ++ after

/-- An interval with its end moved to that of another one, if that is later. -/
def extend (a b : Interval w) : Interval w := if a.last < b.last then fromTo a.first b.last else a

/-- Extend `current` by each following interval that overlaps or touches it,
where the intervals come in the order of their starts. -/
def joinFrom (current : Interval w) : List (Interval w) → List (Interval w)
  | [] => [current]
  | next :: rest =>
    if next.first ≤ current.last.saturatingSucc then joinFrom (current.extend next) rest
    else current :: joinFrom next rest

/-- Join neighbours in a list that is sorted by start. -/
def joinSorted : List (Interval w) → List (Interval w)
  | [] => []
  | a :: rest => joinFrom a rest

/-- The union, as intervals in increasing order with a gap between each two. -/
def mergeOverlapping (intervals : List (Interval w)) : List (Interval w) :=
  joinSorted <|
    (intervals.filter fun a => !a.isEmpty).mergeSort fun a b => decide (a.first ≤ b.first)

end Interval

end PuzzleKit

import PuzzleKit.Integer.Checked

/-!
# Inspecting sequences

Questions that read a sequence only as far as they must: a pair is recognised
by asking for a third item, and a predicate over items and positions stops at
the first item that fails it.
-/

namespace PuzzleKit

/-- A sequence that had to hold exactly two items held `found`, where more
than two counts as three. -/
structure PairError where
  found : Nat
deriving DecidableEq

def PairError.message (e : PairError) : String :=
  s!"expected exactly 2 elements, found {e.found}"

/-- Two items, and no third. Three items are asked for, so what is left
unread of the sequence is `items.drop 3`. -/
def toPair {α : Type} : List α → Except PairError (α × α)
  | [] => .error ⟨0⟩
  | [_] => .error ⟨1⟩
  | [a, b] => .ok (a, b)
  | _ :: _ :: _ :: _ => .error ⟨3⟩

/-- Whether a predicate, which may have effects, holds of every item and its
position. Nothing is asked after the first failure. -/
def allIndexedFrom {m : Type → Type} [Monad m] {α : Type} (predicate : Nat → α → m Bool)
    (index : Nat) : List α → m Bool
  | [] => pure true
  | a :: items => do
    if ← predicate index a then allIndexedFrom predicate (index + 1) items else pure false

def allIndexed {m : Type → Type} [Monad m] {α : Type} (predicate : Nat → α → m Bool)
    (items : List α) : m Bool :=
  allIndexedFrom predicate 0 items

/-- The whole sequence, `times` times over, where an item takes eight bytes. The
result has to fit a list. -/
def repeatItems {α : Type} (items : List α) (times : Word .u64) :
    Except ArithmeticFault (List α) := do
  let _ ← Word.listSize 8 items.length times.val.toNat
  return if items.isEmpty then [] else (List.replicate times.val.toNat items).flatten

end PuzzleKit

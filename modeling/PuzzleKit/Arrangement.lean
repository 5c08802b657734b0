/-!
# Arrangements by plain changes

All orders of a sequence, each made from the one before it by exchanging two
neighbours. Every position of the sequence is a key with a direction of
travel. A key is mobile if its neighbour in that direction is smaller; each
change moves the greatest mobile key one place, and the keys greater than it
turn around. Items are arranged by position, so equal items do not make fewer
arrangements, and an empty sequence has one.
-/

namespace PuzzleKit

/-- A position of the sequence, on its way to the right or the left. -/
structure Traveller where
  key : Nat
  rightward : Bool
deriving DecidableEq

namespace Traveller

/-- The identity arrangement, in which all keys travel left. -/
def initial (n : Nat) : List Traveller := (List.range n).map fun key => ⟨key, false⟩

/-- The position that the traveller at `i` is about to move to. -/
def target? (row : List Traveller) (i : Nat) : Option Nat := do
  let t ← row[i]?
  if t.rightward then some (i + 1)
  else if i = 0 then none
  else some (i - 1)

/-- Whether the traveller at `i` has a smaller neighbour ahead. -/
def isMobile (row : List Traveller) (i : Nat) : Bool :=
  match row[i]?, (target? row i).bind (row[·]?) with
  | some t, some ahead => ahead.key < t.key
  | _, _ => false

/-- Whether the key at `i` is less than the one at `j`, for two positions of
the row. -/
def keyLess (row : List Traveller) (i j : Nat) : Bool :=
  match row[i]?, row[j]? with
  | some t, some u => t.key < u.key
  | _, _ => false

/-- Of two positions the one with the greater key; the later one of equals. -/
def greater (row : List Traveller) (best : Option Nat) (i : Nat) : Option Nat :=
  match best with
  | none => some i
  | some b => if keyLess row i b then some b else some i

/-- The position of the greatest mobile key. -/
def greatestMobile? (row : List Traveller) : Option Nat :=
  ((List.range row.length).filter (isMobile row)).foldl (greater row) none

/-- Turn around, if the key is greater than `key`. -/
def turnIfAbove (key : Nat) (t : Traveller) : Traveller :=
  if key < t.key then { t with rightward := !t.rightward } else t

/-- The next arrangement, if there is one. -/
def change? (row : List Traveller) : Option (List Traveller) := do
  let i ← greatestMobile? row
  let j ← target? row i
  let mover ← row[i]?
  let passed ← row[j]?
  return ((row.set i passed).set j mover).map (turnIfAbove mover.key)

end Traveller

/-- The arrangements of a sequence that are still to come. -/
structure Arrangements (α : Type) where
  items : List α
  row : Option (List Traveller)

namespace Arrangements

variable {α : Type}

def ofList (items : List α) : Arrangements α := ⟨items, some (Traveller.initial items.length)⟩

/-- The items in the order of an arrangement. -/
def arranged (items : List α) (row : List Traveller) : List α :=
  row.filterMap fun t => items[t.key]?

/-- The next arrangement, and what comes after it. -/
def next? (a : Arrangements α) : Option (List α × Arrangements α) := do
  let row ← a.row
  return (arranged a.items row, { a with row := Traveller.change? row })

/-- The next `n` arrangements, or all if fewer are left. -/
def take (a : Arrangements α) : Nat → List (List α) × Arrangements α
  | 0 => ([], a)
  | n + 1 =>
    match a.next? with
    | none => ([], a)
    | some (row, rest) =>
      let (rows, rest) := rest.take n
      (row :: rows, rest)

/-- Leave out the next `n` arrangements. -/
def drop (a : Arrangements α) : Nat → Arrangements α
  | 0 => a
  | n + 1 =>
    match a.next? with
    | none => a
    | some (_, rest) => rest.drop n

/-- The arrangement after the next `n`. -/
def nth? (a : Arrangements α) (n : Nat) : Option (List α) × Arrangements α :=
  let a := a.drop n
  match a.next? with
  | none => (none, a)
  | some (row, rest) => (some row, rest)

/-- The product of `1 … n`. -/
def factorial : Nat → Nat
  | 0 => 1
  | n + 1 => (n + 1) * factorial n

/-- Combine the next `n` arrangements from the left. -/
def foldNext {β : Type} (f : β → List α → β) (acc : β) (a : Arrangements α) : Nat → β
  | 0 => acc
  | n + 1 =>
    match a.next? with
    | none => acc
    | some (row, rest) => foldNext f (f acc row) rest n

/-- Combine all arrangements that are left; a sequence of `n` items has no
more than `n!` of them. -/
def foldRest {β : Type} (f : β → List α → β) (acc : β) (a : Arrangements α) : β :=
  foldNext f acc a (factorial a.items.length)

/-- The number of arrangements left. -/
def count (a : Arrangements α) : Nat := a.foldRest (fun n _ => n + 1) 0

/-- The last arrangement left. -/
def last? (a : Arrangements α) : Option (List α) := a.foldRest (fun _ row => some row) none

end Arrangements

end PuzzleKit

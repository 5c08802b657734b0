import PuzzleKit.Integer.Checked
import PuzzleKit.Log
import PuzzleKit.Partition.Forest

/-!
# Partitions

A partition of the elements `0 … n - 1` into sets, which grow together by
unions. Indices come from outside and are checked: an index that names no
element is a fault, except that the union of an index with itself is nothing
to do and is answered before either index is looked at.
-/

namespace PuzzleKit

/-- Why an operation on a partition is refused. -/
inductive PartitionFault
  | noElementToFind
  | noElementToCompare
  | noElementToUnite (index : Nat)
  | dataLength (found expected : Nat)
  | arithmetic (fault : ArithmeticFault)
deriving DecidableEq

def PartitionFault.message : PartitionFault → String
  | .noElementToFind => "assertion failed: x.index() < self.len()"
  | .noElementToCompare => "The index is out of bounds"
  | .noElementToUnite index => s!"called \x60Result::unwrap()\x60 on an \x60Err\x60 value: {index}"
  | .dataLength found expected =>
    "assertion \x60left == right\x60 failed: resolved data must match the set size\n" ++
      s!"  left: {found}\n right: {expected}"
  | .arithmetic fault => fault.message

structure Partition (n : Nat) where
  forest : Forest n
  setCount : Nat

namespace Partition

variable {n : Nat}

/-- Every element in a set of its own. -/
def discrete (n : Nat) : Partition n := ⟨Forest.discrete n, n⟩

/-- Every one of so many elements in a set of its own, if they can be held. -/
def ofSize (n : Nat) : Except PartitionFault (Partition n) := do
  let _ ← (Word.listSize 8 1 n).mapError .arithmetic
  return discrete n

/-- The element of an index, or a fault. -/
def element (n index : Nat) (fault : PartitionFault) : Except PartitionFault (Fin n) :=
  if h : index < n then .ok ⟨index, h⟩ else .error fault

/-- The representative of the set of an element. -/
def representative (p : Partition n) (i : Fin n) : Fin n × Partition n :=
  let (r, forest) := p.forest.find i
  (r, { p with forest })

/-- The representative of the set of the element with an index. -/
def find (p : Partition n) (index : Nat) : Except PartitionFault (Fin n × Partition n) := do
  let i ← element n index .noElementToFind
  return p.representative i

/-- Whether two elements are in one set. -/
def sameSet (p : Partition n) (a b : Nat) : Except PartitionFault Bool := do
  let i ← element n a .noElementToCompare
  let j ← element n b .noElementToCompare
  return p.forest.root i = p.forest.root j

/-- Unite the sets of two elements; whether they were two. -/
def unite (p : Partition n) (i j : Fin n) : Bool × Partition n :=
  let f := (p.forest.compress i).compress j
  if h : f.root i = f.root j then (false, { p with forest := f })
  else (true, ⟨f.link (f.root i) (f.root j) (f.parent_root i) h, p.setCount - 1⟩)

/-- Unite the sets of the elements with two indices; whether they were two. -/
def union (p : Partition n) (a b : Nat) : Except PartitionFault (Bool × Partition n) :=
  if a = b then .ok (false, p)
  else do
    let i ← element n a (.noElementToUnite a)
    let j ← element n b (.noElementToUnite b)
    return p.unite i j

/-- Put an item into the group with a key, opening the group at the end if
there is none yet. An item that is in the group already is not repeated. -/
def insertInGroup {α : Type} [DecidableEq α] (key : Fin n) (item : α) :
    List (Fin n × List α) → List (Fin n × List α)
  | [] => [(key, [item])]
  | (k, items) :: groups =>
    if k = key then (k, if items.contains item then items else items ++ [item]) :: groups
    else (k, items) :: insertInGroup key item groups

/-- The items of the elements grouped by set, the sets in the order of their
lowest elements. -/
def groups {α : Type} [DecidableEq α] (p : Partition n) (data : Vector α n) :
    List (Fin n × List α) × Partition n :=
  (List.finRange n).foldl (fun (groups, p) i =>
    let (r, p) := p.representative i
    (insertInGroup r data[i] groups, p)) ([], p)

/-- Collect data into its sets, where the item at each position belongs to the
element of that number. Each set is a list without repetitions. -/
def resolve {α : Type} [DecidableEq α] (p : Partition n) (data : List α) :
    Except PartitionFault (List (List α) × Partition n) :=
  if h : data.length = n then
    let (groups, p) := p.groups ⟨data.toArray, by simp [h]⟩
    .ok (groups.map Prod.snd, p)
  else .error (.dataLength data.length n)

/-- The number of elements of each set, with its representative. -/
def resolveSizes (p : Partition n) : List (Fin n × Nat) × Partition n :=
  let (groups, p) := p.groups (Vector.ofFn id)
  (groups.map fun (r, elements) => (r, elements.length), p)

end Partition

end PuzzleKit

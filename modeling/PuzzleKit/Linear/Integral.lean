import PuzzleKit.Integer.Divisor
import PuzzleKit.Linear.Reduction

/-!
# Systems of integers

A table of integers is reduced as fractions, and each row of the result is
multiplied by the least common multiple of its denominators, which makes it
integral again. A system without solution leaves the table alone.
-/

namespace PuzzleKit.Linear

/-- A row that has no integral multiple in the range of the words. -/
inductive ScaleFault
  | overflow
deriving DecidableEq

def ScaleFault.message : ScaleFault → String
  | .overflow => "row scale overflowed i64"

variable {m n : Nat}

/-- The least common multiple of the denominators of a row. -/
def rowScale (row : Vector Fraction n) : Except ScaleFault (Word .i64) :=
  match Word.checkedLcmAll (row.toList.map Fraction.denominator) with
  | .ok (some scale) => .ok scale
  | _ => .error .overflow

/-- A fraction times a multiple of its denominator. -/
def scaleCell (scale : Word .i64) (a : Fraction) : Except ScaleFault (Word .i64) :=
  match scale.div a.denominator with
  | .error _ => .error .overflow
  | .ok cofactor =>
    match a.numerator.mul? cofactor with
    | some product => .ok product
    | none => .error .overflow

/-- The least positive integral multiple of a row. -/
def integralRow (row : Vector Fraction n) : Except ScaleFault (Vector (Word .i64) n) := do
  let scale ← rowScale row
  Vector.ofFnM fun j => scaleCell scale (row.get j)

/-- What the reduction of a table of integers leaves: the table, which takes its
integral form only if the system has a solution, and the outcome. -/
def Elimination.conclude (e : Elimination m n) (t : Table (Word .i64) m n) :
    Except ScaleFault (Table (Word .i64) m n × Except Inconsistency Reduction) :=
  match e.outcome with
  | .error inconsistency => return (t, .error inconsistency)
  | .ok reduction => do
    let table ← Vector.ofFnM fun i => integralRow (e.table.get i)
    return (table, .ok reduction)

/-- The elimination of a table of integers. -/
def reduceInteger (t : Table (Word .i64) m n) : Except FractionFault (Elimination m n) :=
  reduce (t.mapCells Fraction.ofWord)

end PuzzleKit.Linear

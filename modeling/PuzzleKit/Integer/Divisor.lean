import PuzzleKit.Integer.Checked

/-!
# Divisors and multiples of machine integers

The greatest common divisor and the least common multiple are never negative,
and in a signed width that is where they can fail: the divisor of the least
word and zero, or of the least word and itself, would be one more than the
greatest word. The folds over a list come in two kinds, those that pass a
fault on and those that answer `none` for a multiple that does not fit.
-/

namespace PuzzleKit.Word

variable {w : Width}

/-- The number of times two divides a positive number. -/
def twos (n : Nat) : Nat :=
  if h : n = 0 then 0
  else if n % 2 = 0 then twos (n / 2) + 1 else 0
termination_by n
decreasing_by omega

/-- The greatest common divisor. With a zero it is the absolute value of the
other argument; with the least signed word it is the greatest power of two
that divides both; the fault arises where that is no word of the width. -/
def gcd (a b : Word w) : Except ArithmeticFault (Word w) :=
  if a.val = 0 then b.abs
  else if b.val = 0 then a.abs
  else if w.signed ∧ (a = minimum w ∨ b = minimum w) then
    fit w .negOverflow (Nat.pow 2 (Nat.min (twos a.val.natAbs) (twos b.val.natAbs)) : Int)
  else fit w .negOverflow (Nat.gcd a.val.natAbs b.val.natAbs : Int)

/-- The least common multiple: zero for two zeros, else the absolute value of
one argument times the cofactor of the other. -/
def lcm (a b : Word w) : Except ArithmeticFault (Word w) :=
  if a.val = 0 ∧ b.val = 0 then .ok 0
  else do
    let divisor ← gcd a b
    let cofactor ← b.div divisor
    let product ← a.mul cofactor
    product.abs

/-- The least common multiple, or `none` if it does not fit. -/
def checkedLcm (a b : Word w) : Except ArithmeticFault (Option (Word w)) :=
  if a.val = 0 ∨ b.val = 0 then .ok (some 0)
  else do
    let divisor ← gcd a b
    let cofactor ← a.div divisor
    match cofactor.mul? b with
    | none => .ok none
    | some product => .ok (if product.val < 0 then (0 : Word w).sub? product else some product)

/-- Combine the items from the left, the first being the start; `none` if
there is none. -/
def reduceM (f : Word w → Word w → Except ArithmeticFault (Word w)) :
    List (Word w) → Except ArithmeticFault (Option (Word w))
  | [] => .ok none
  | a :: items => do
    let total ← items.foldlM f a
    .ok (some total)

/-- The greatest common divisor of a list, `none` if the list is empty. A
single item is returned as it is. -/
def gcdAll (items : List (Word w)) : Except ArithmeticFault (Option (Word w)) := reduceM gcd items

/-- The least common multiple of a list, `none` if the list is empty. A
single item is returned as it is. -/
def lcmAll (items : List (Word w)) : Except ArithmeticFault (Option (Word w)) := reduceM lcm items

/-- Continue a fold of checked multiples from `acc`, stopping at the first
that does not fit. -/
def checkedLcmFrom (acc : Word w) : List (Word w) → Except ArithmeticFault (Option (Word w))
  | [] => .ok (some acc)
  | a :: items => do
    match ← checkedLcm acc a with
    | none => .ok none
    | some next => checkedLcmFrom next items

/-- The least common multiple of a list, starting from 1, or `none` as soon
as one does not fit. -/
def checkedLcmAll (items : List (Word w)) : Except ArithmeticFault (Option (Word w)) :=
  checkedLcmFrom 1 items

/-- The product of a list, or `none` as soon as a partial product does not
fit. -/
def checkedProduct (items : List (Word w)) : Option (Word w) := items.foldlM mul? 1

end PuzzleKit.Word

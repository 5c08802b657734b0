import PuzzleKit.Integer.Word

/-!
# Checked arithmetic

Every operation computes the exact integer and then asks whether it fits. The
faults say which operation failed, because the first one to fail is what a
caller reports; an expression of several operations is therefore written as a
sequence, in the order in which its parts are evaluated.
-/

namespace PuzzleKit

/-- Why an arithmetic operation has no result. The last is the fault of a number
of items that no list can hold. -/
inductive ArithmeticFault
  | addOverflow
  | subOverflow
  | mulOverflow
  | negOverflow
  | divOverflow
  | divByZero
  | remOverflow
  | remByZero
  | capacityOverflow
deriving DecidableEq

def ArithmeticFault.message : ArithmeticFault → String
  | .addOverflow => "attempt to add with overflow"
  | .subOverflow => "attempt to subtract with overflow"
  | .mulOverflow => "attempt to multiply with overflow"
  | .negOverflow => "attempt to negate with overflow"
  | .divOverflow => "attempt to divide with overflow"
  | .divByZero => "attempt to divide by zero"
  | .remOverflow => "attempt to calculate the remainder with overflow"
  | .remByZero => "attempt to calculate the remainder with a divisor of zero"
  | .capacityOverflow => "capacity overflow"

namespace Word

variable {w : Width}

/-- The word of an exact result, or the fault of the operation it came from. -/
def fit (w : Width) (fault : ArithmeticFault) (v : Int) : Except ArithmeticFault (Word w) :=
  match ofInt? w v with
  | some a => .ok a
  | none => .error fault

def add (a b : Word w) : Except ArithmeticFault (Word w) := fit w .addOverflow (a.val + b.val)

def sub (a b : Word w) : Except ArithmeticFault (Word w) := fit w .subOverflow (a.val - b.val)

def mul (a b : Word w) : Except ArithmeticFault (Word w) := fit w .mulOverflow (a.val * b.val)

def neg (a : Word w) : Except ArithmeticFault (Word w) := fit w .negOverflow (-a.val)

/-- The absolute value; the least signed word has none. -/
def abs (a : Word w) : Except ArithmeticFault (Word w) := if a.val < 0 then a.neg else .ok a

/-- Division toward zero. -/
def div (a b : Word w) : Except ArithmeticFault (Word w) :=
  if b.val = 0 then .error .divByZero else fit w .divOverflow (a.val.tdiv b.val)

/-- The remainder of division toward zero. It is refused wherever the
quotient is, so also for the least word and -1, although it would be 0. -/
def rem (a b : Word w) : Except ArithmeticFault (Word w) :=
  if b.val = 0 then .error .remByZero
  else do
    let _ ← fit w .remOverflow (a.val.tdiv b.val)
    fit w .remOverflow (a.val.tmod b.val)

/-- The number of items that a list of so many groups of the given size has,
where an item takes some number of bytes. The bytes of a list are counted by a
signed word. -/
def listSize (itemBytes groupSize groups : Nat) : Except ArithmeticFault (Word .u64) := do
  let size ← fit .u64 .mulOverflow (groupSize * groups)
  let _ ← fit .i64 .capacityOverflow (size.val * itemBytes)
  return size

/-- The product, if it fits. -/
def mul? (a b : Word w) : Option (Word w) := ofInt? w (a.val * b.val)

/-- The difference, if it fits. -/
def sub? (a b : Word w) : Option (Word w) := ofInt? w (a.val - b.val)

/-- The next word, or the greatest word itself. -/
def saturatingSucc (a : Word w) : Word w :=
  match ofInt? w (a.val + 1) with
  | some b => b
  | none => maximum w

end Word

end PuzzleKit

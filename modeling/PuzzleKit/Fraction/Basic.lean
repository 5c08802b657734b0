import PuzzleKit.Integer.Divisor

/-!
# Fractions

Rational numbers over 64 bits, in lowest terms and with a positive
denominator. Arithmetic works on intermediate values of 128 bits and fails
only where the reduced result does not fit; since everything a fraction is
built by ends in `reduced`, equal values are equal fractions.
-/

namespace PuzzleKit

structure Fraction where
  numerator : Word .i64
  denominator : Word .i64
deriving DecidableEq

/-- Why an operation on fractions has no result. -/
inductive FractionFault
  | overflow
  | zeroDenominator
  | zeroDivisor
  | arithmetic (fault : ArithmeticFault)
deriving DecidableEq

def FractionFault.message : FractionFault → String
  | .overflow => "fraction overflowed i64"
  | .zeroDenominator => "fraction denominator must not be zero"
  | .zeroDivisor => "attempt to divide a fraction by zero"
  | .arithmetic fault => fault.message

namespace Fraction

/-- A fault of wide arithmetic, as a fault of fractions. -/
def widely {α : Type} (result : Except ArithmeticFault α) : Except FractionFault α :=
  result.mapError .arithmetic

theorem i128_min_le_i64_min : Width.i128.min ≤ Width.i64.min := by decide

theorem i64_max_le_i128_max : Width.i64.max ≤ Width.i128.max := by decide

/-- A 64-bit word among the 128-bit ones. -/
def wide (a : Word .i64) : Word .i128 :=
  ⟨a.val, Int.le_trans i128_min_le_i64_min a.min_le,
    Int.le_trans a.le_max i64_max_le_i128_max⟩

/-- A quotient that has to fit 64 bits. -/
def narrowQuotient (a divisor : Word .i128) : Except FractionFault (Word .i64) := do
  let quotient ← widely (a.div divisor)
  match quotient.cast? .i64 with
  | some q => .ok q
  | none => .error .overflow

/-- The fraction of a wide numerator and a wide denominator that is not zero.
Both are divided by their greatest common divisor, which takes the sign of the
denominator; the numerator is the first to be narrowed. -/
def reduced (numerator denominator : Word .i128) : Except FractionFault Fraction := do
  let common ← widely (Word.gcd numerator denominator)
  let divisor ← widely (Word.fit .i128 .mulOverflow (common.val * denominator.val.sign))
  let n ← narrowQuotient numerator divisor
  let d ← narrowQuotient denominator divisor
  return ⟨n, d⟩

/-- The fraction of a numerator and a denominator, `none` if the denominator
is zero. -/
def ofRatio? (numerator denominator : Word .i64) : Except FractionFault (Option Fraction) :=
  if denominator.val = 0 then .ok none
  else do return some (← reduced (wide numerator) (wide denominator))

/-- The fraction of a numerator and a denominator that must not be zero. -/
def ofRatio (numerator denominator : Word .i64) : Except FractionFault Fraction := do
  match ← ofRatio? numerator denominator with
  | some f => .ok f
  | none => .error .zeroDenominator

def ofWord (n : Word .i64) : Fraction := ⟨n, 1⟩

instance : Zero Fraction := ⟨⟨0, 1⟩⟩

instance : One Fraction := ⟨⟨1, 1⟩⟩

instance : Inhabited Fraction := ⟨0⟩

def isZero (a : Fraction) : Bool := a.numerator.val = 0

def isInteger (a : Fraction) : Bool := a.denominator.val = 1

/-- The two numerators over the least common denominator, and that
denominator. -/
def sumParts (combine : Word .i128 → Word .i128 → Except ArithmeticFault (Word .i128))
    (a b : Fraction) : Except ArithmeticFault (Word .i128 × Word .i128) := do
  let denominator ← Word.lcm (wide a.denominator) (wide b.denominator)
  let left ← (wide a.numerator).mul (← denominator.div (wide a.denominator))
  let right ← (wide b.numerator).mul (← denominator.div (wide b.denominator))
  return (← combine left right, denominator)

def add (a b : Fraction) : Except FractionFault Fraction := do
  let (n, d) ← widely (sumParts Word.add a b)
  reduced n d

def sub (a b : Fraction) : Except FractionFault Fraction := do
  let (n, d) ← widely (sumParts Word.sub a b)
  reduced n d

def mul (a b : Fraction) : Except FractionFault Fraction := do
  let n ← widely ((wide a.numerator).mul (wide b.numerator))
  let d ← widely ((wide a.denominator).mul (wide b.denominator))
  reduced n d

def div (a b : Fraction) : Except FractionFault Fraction :=
  if b.isZero then .error .zeroDivisor
  else do
    let n ← widely ((wide a.numerator).mul (wide b.denominator))
    let d ← widely ((wide a.denominator).mul (wide b.numerator))
    reduced n d

/-- A numerator that may have overflowed, over the denominator of `a`. -/
def withNumerator (a : Fraction) (n : Except ArithmeticFault (Word .i64)) :
    Except FractionFault Fraction :=
  match n with
  | .ok n => .ok ⟨n, a.denominator⟩
  | .error _ => .error .overflow

def neg (a : Fraction) : Except FractionFault Fraction := a.withNumerator a.numerator.neg

def abs (a : Fraction) : Except FractionFault Fraction := a.withNumerator a.numerator.abs

/-- The multiplicative inverse, `none` for zero. -/
def reciprocal? (a : Fraction) : Except FractionFault (Option Fraction) :=
  ofRatio? a.denominator a.numerator

/-- The order of the values. Denominators are positive, so multiplying
crosswise keeps the order. -/
def compareM (a b : Fraction) : Except ArithmeticFault Ordering := do
  let left ← (wide a.numerator).mul (wide b.denominator)
  let right ← (wide b.numerator).mul (wide a.denominator)
  return compare left right

/-- Whether `a` may stand before `b` in increasing order. -/
def precedes (a b : Fraction) : Bool :=
  match a.compareM b with
  | .ok order => order != .gt
  | .error _ => true

/-- Fractions in increasing order. -/
def sort (fractions : List Fraction) : List Fraction := fractions.mergeSort precedes

/-- The nearest floating point number to the quotient of the nearest floating
point numbers to its two parts. -/
def toFloat (a : Fraction) : Float :=
  Float.ofInt a.numerator.val / Float.ofInt a.denominator.val

end Fraction

end PuzzleKit

import PuzzleKit.Integer.Checked
import PuzzleKit.Text.Blank

/-!
# Decimal numerals

A numeral is an optional sign and at least one decimal digit, with nothing
around them; an unsigned width has no numeral with a minus, not even for zero.
Digits are read from the left, and the first character that is no digit, or with
which the number leaves the range, ends the reading with its cause.
-/

namespace PuzzleKit

/-- Why a text is not the numeral of a word. -/
inductive NumeralError
  | empty
  | invalidDigit
  | tooLarge
  | tooSmall
deriving DecidableEq

def NumeralError.message : NumeralError → String
  | .empty => "cannot parse integer from empty string"
  | .invalidDigit => "invalid digit found in string"
  | .tooLarge => "number too large to fit in target type"
  | .tooSmall => "number too small to fit in target type"

namespace Numeral

def isDigit (c : Char) : Bool := '0' ≤ c && c ≤ '9'

def digitValue (c : Char) : Nat := c.toNat - '0'.toNat

/-- The number that a sequence of digits denotes. -/
def value (ds : List Char) : Nat := ds.foldl (fun n d => 10 * n + digitValue d) 0

/-- The digits of a number, without leading zeros. -/
def digits (n : Nat) : List Char := Nat.toDigits 10 n

/-- The numeral of an integer. -/
def ofInt (v : Int) : List Char :=
  if v < 0 then '-' :: digits v.natAbs else digits v.natAbs

/-- The sign and the digits of a numeral. A minus is a sign only where
negative numbers exist. -/
def signAndDigits (signed : Bool) : List Char → Bool × List Char
  | '+' :: ds => (false, ds)
  | '-' :: ds => if signed then (true, ds) else (false, '-' :: ds)
  | ds => (false, ds)

end Numeral

namespace Word

/-- Read digits on from a number that has been read. Every digit moves the
number away from zero, so one that has left the range does not come back. -/
def readDigits {w : Width} (negative : Bool) (a : Word w) :
    List Char → Except NumeralError (Word w)
  | [] => .ok a
  | c :: cs =>
    if !Numeral.isDigit c then .error .invalidDigit
    else
      let d : Int := Numeral.digitValue c
      match ofInt? w (if negative then 10 * a.val - d else 10 * a.val + d) with
      | some b => readDigits negative b cs
      | none => .error (if negative then .tooSmall else .tooLarge)

/-- The word that a numeral denotes. -/
def parse (w : Width) (cs : List Char) : Except NumeralError (Word w) :=
  if cs.isEmpty then .error .empty
  else
    let (negative, ds) := Numeral.signAndDigits w.signed cs
    if ds.isEmpty then .error .invalidDigit else readDigits negative 0 ds

/-- The numeral of a word. -/
def toText {w : Width} (a : Word w) : String := String.ofList (Numeral.ofInt a.val)

end Word

end PuzzleKit

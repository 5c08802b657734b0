import PuzzleKit.Fraction.Basic
import PuzzleKit.Integer.Numeral
import PuzzleKit.Text.Quoted

/-!
# The text of a fraction

A fraction is written with its denominator, also where that is one. It is read
with or without one, and with blanks around either part; of two parts that are
both faulty the numerator is the one complained about, and only then is a
denominator of zero looked at.
-/

namespace PuzzleKit

/-- Why a text is not a fraction. -/
inductive FractionTextError
  | invalidComponent (component : List Char)
  | zeroDenominator
  | fault (fault : FractionFault)
deriving DecidableEq

def FractionTextError.message : FractionTextError → String
  | .invalidComponent component => "invalid fraction component: " ++ Text.quoteString component
  | .zeroDenominator => "fraction has a zero denominator"
  | .fault f => f.message

/-- The name of the kind of fault. -/
def FractionTextError.kind : FractionTextError → String
  | .invalidComponent _ => "InvalidComponent"
  | .zeroDenominator => "ZeroDenominator"
  | .fault _ => "Fault"

namespace Fraction

/-- The text of a fraction, as its characters. -/
def chars (a : Fraction) : List Char :=
  Numeral.ofInt a.numerator.val ++ '/' :: Numeral.ofInt a.denominator.val

def toText (a : Fraction) : String := String.ofList a.chars

/-- The numerator or the denominator, from the text on its side. -/
def parsePart (part : List Char) : Except FractionTextError (Word .i64) :=
  match Word.parse .i64 (Text.trim part) with
  | .ok a => .ok a
  | .error _ => .error (.invalidComponent (Text.trim part))

def parse (text : List Char) : Except FractionTextError Fraction :=
  match splitOnce (fun c => decide (c = '/')) text with
  | none => do return ofWord (← parsePart text)
  | some (left, right) => do
    let n ← parsePart left
    let d ← parsePart right
    match ofRatio? n d with
    | .ok (some f) => .ok f
    | .ok none => .error .zeroDenominator
    | .error f => .error (.fault f)

end Fraction

end PuzzleKit

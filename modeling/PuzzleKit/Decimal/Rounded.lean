/-!
# Decimals of a fixed number of places

A floating point number is a whole number times a power of two, so its decimal
with a fixed number of places is the rounding of a quotient of whole numbers.
Ties go to the even neighbour.
-/

namespace PuzzleKit.Decimal

/-- A quotient rounded to the nearest whole number, and to the even one of two
that are equally near. -/
def roundDiv (numerator denominator : Nat) : Nat :=
  let quotient := numerator / denominator
  let remainder := numerator % denominator
  if 2 * remainder < denominator then quotient
  else if denominator < 2 * remainder then quotient + 1
  else quotient + quotient % 2

/-- The significand and the exponent of two whose product is the absolute
value of a finite floating point number. -/
def decode (x : Float) : Nat × Int :=
  let bits : Nat := x.toBits.toNat
  let biased : Nat := bits / Nat.pow 2 52 % Nat.pow 2 11
  let fraction : Nat := bits % Nat.pow 2 52
  if biased = 0 then (fraction, -1074) else (Nat.pow 2 52 + fraction, (biased : Int) - 1075)

/-- A whole number times a power of two, in units of the last of some places. -/
def scaled (places significand : Nat) (exponent : Int) : Nat :=
  if 0 ≤ exponent then significand * Nat.pow 2 exponent.toNat * Nat.pow 10 places
  else roundDiv (significand * Nat.pow 10 places) (Nat.pow 2 (-exponent).toNat)

/-- The digits of a number, with zeros in front up to a length. -/
def padded (length n : Nat) : List Char :=
  let ds := Nat.toDigits 10 n
  List.replicate (length - ds.length) '0' ++ ds

/-- A number of units of the last place, with the point. -/
def place (places units : Nat) : String :=
  String.ofList
    (Nat.toDigits 10 (units / Nat.pow 10 places) ++
      '.' :: padded places (units % Nat.pow 10 places))

/-- The bits of a floating point number, as sixteen hexadecimal digits. -/
def hexBits (x : Float) : String :=
  let ds := Nat.toDigits 16 x.toBits.toNat
  String.ofList (List.replicate (16 - ds.length) '0' ++ ds)

/-- A floating point number that is not negative, with a number of places. -/
def fixed (places : Nat) (x : Float) : String :=
  let (significand, exponent) := decode x
  place places (scaled places significand exponent)

end PuzzleKit.Decimal

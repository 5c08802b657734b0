import PuzzleKit.Decimal.Rounded

/-!
# Durations

A duration is shown in the largest unit of which it has at least one, with
three places; below a microsecond it is a whole number of nanoseconds. The
places are those of the floating point number of seconds times the scale of the
unit.
-/

namespace PuzzleKit

structure Duration where
  seconds : UInt64
  nanoseconds : Nat
  nanoseconds_lt : nanoseconds < 1000000000
deriving DecidableEq

namespace Duration

/-- A number of nanoseconds. -/
def ofNanoseconds (n : Nat) : Duration :=
  ⟨UInt64.ofNat (n / 1000000000), n % 1000000000, Nat.mod_lt _ (by decide)⟩

/-- Some seconds and nanoseconds, of which there may be more than a second. -/
def ofParts (seconds nanoseconds : Nat) : Duration :=
  ofNanoseconds (seconds * 1000000000 + nanoseconds)

def ofMilliseconds (n : Nat) : Duration := ofNanoseconds (n * 1000000)

/-- The whole length, in nanoseconds. -/
def toNanoseconds (d : Duration) : Nat := d.seconds.toNat * 1000000000 + d.nanoseconds

/-- The length in seconds, as the sum of two roundings. -/
def toFloat (d : Duration) : Float :=
  d.seconds.toFloat + (UInt64.ofNat d.nanoseconds).toFloat / 1e9

/-- The units, from the largest: the least duration shown in it, how many of it
make a second, and its name. -/
def units : List (Nat × Float × String) :=
  [(1000000000, 1.0, "seconds"), (1000000, 1e3, "milliseconds"), (1000, 1e6, "microseconds")]

def toText (d : Duration) : String :=
  match units.find? fun (least, _) => least ≤ d.toNanoseconds with
  | some (_, scale, name) => Decimal.fixed 3 (d.toFloat * scale) ++ " " ++ name
  | none => s!"{d.nanoseconds} nanoseconds"

end Duration

end PuzzleKit

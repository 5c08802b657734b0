import PuzzleKit.Integer.Numeral
import PuzzleKit.Source.Token

/-!
# Literals in settings

The values that literals of source code stand for. An integer has a radix,
underscores between its digits, and a suffix that can be any word, as long as
the whole does not read as a fraction. A string is written with escapes, or
between quotes with the same number of marks at either end and without any.
-/

namespace PuzzleKit.Literal

/-- The value of a digit in some radix, of which letters are the digits from
ten on. -/
def digit? (radix : Nat) (c : Char) : Option Nat :=
  if '0' ≤ c ∧ c ≤ '9' then some (c.toNat - '0'.toNat)
  else if radix ≤ 10 then none
  else if 'a' ≤ c ∧ c ≤ 'f' then some (c.toNat - 'a'.toNat + 10)
  else if 'A' ≤ c ∧ c ≤ 'F' then some (c.toNat - 'A'.toNat + 10)
  else none

/-- The radix that a literal begins with, and what follows it. -/
def splitRadix : List Char → Nat × List Char
  | '0' :: 'x' :: rest => (16, rest)
  | '0' :: 'o' :: rest => (8, rest)
  | '0' :: 'b' :: rest => (2, rest)
  | cs => (10, cs)

/-- Whether what follows the digits makes a decimal fraction of them: a point,
or an exponent. -/
def isFraction : List Char → Bool
  | [] => false
  | c :: cs =>
    c == '.' || ((c == 'e' || c == 'E') &&
      (cs.dropWhile (· == '_')).head?.any fun d => d.isDigit || d == '+' || d == '-')

/-- The digits of an integer literal that has no sign, written out in decimal. -/
def unsigned? (cs : List Char) : Option (List Char) :=
  let (radix, body) := splitRadix cs
  let isPart := fun c => c == '_' || (digit? radix c).isSome
  let digits := (body.takeWhile isPart).filterMap (digit? radix)
  if digits.isEmpty || digits.any (radix ≤ ·) then none
  else if radix = 10 && isFraction (body.dropWhile isPart) then none
  else some (Numeral.digits (digits.foldl (fun n d => radix * n + d) 0))

/-- The decimal digits of the integer literal that begins some source code,
after its sign if it has one; and what follows it. -/
def integer? : List Source.Token → Option (List Char × List Source.Token)
  | .literal text :: rest => (unsigned? text.toList).map (·, rest)
  | .mark "-" :: .literal text :: rest =>
    (unsigned? text.toList).map fun digits => ('-' :: digits, rest)
  | _ => none

/-- The number that hexadecimal digits denote. -/
def hexValue (cs : List Char) : Nat :=
  (cs.filterMap (digit? 16)).foldl (fun n d => 16 * n + d) 0

/-- Whether a backslash at the end of a line skips this at the start of the next
ones. -/
def isIndent (c : Char) : Bool := c == ' ' || c == '\t' || c == '\n' || c == '\r'

/-- The content of a string literal up to its closing quote. The fuel is the
number of characters. -/
def unescape : Nat → List Char → List Char
  | 0, _ => []
  | _ + 1, [] => []
  | _ + 1, '"' :: _ => []
  | n + 1, '\r' :: '\n' :: rest => '\n' :: unescape n rest
  | n + 1, '\\' :: c :: rest =>
    match c with
    | 'n' => '\n' :: unescape n rest
    | 'r' => '\r' :: unescape n rest
    | 't' => '\t' :: unescape n rest
    | '0' => Char.ofNat 0 :: unescape n rest
    | 'x' => Char.ofNat (hexValue (rest.take 2)) :: unescape n (rest.drop 2)
    | 'u' =>
      Char.ofNat (hexValue (rest.takeWhile (· != '\x7d'))) ::
        unescape n ((rest.dropWhile (· != '\x7d')).drop 1)
    | c => if isIndent c then unescape n (rest.dropWhile isIndent) else c :: unescape n rest
  | n + 1, c :: rest => c :: unescape n rest

/-- What comes before the given ending. -/
def before (ending : List Char) : List Char → List Char
  | [] => []
  | c :: cs => if ending.isPrefixOf (c :: cs) then [] else c :: before ending cs

/-- The content of a string literal, if the text is one. -/
def string? : List Char → Option (List Char)
  | '"' :: rest => some (unescape rest.length rest)
  | 'r' :: rest =>
    let hashes := rest.takeWhile (· == '#')
    some (before ('"' :: hashes) (rest.drop (hashes.length + 1)))
  | _ => none

end PuzzleKit.Literal

import PuzzleKit.Text.Hidden

/-!
# Quoted text

How a message shows a string or a character it complains about: between
quotes, with the hidden characters written by their code points. A string
escapes the double quote and a character the single one, and neither escapes the
other's.
-/

namespace PuzzleKit.Text

/-- A character inside quotes of the given kind. -/
def escape (quote c : Char) : List Char :=
  if c = '\\' then ['\\', '\\']
  else if c = '\n' then ['\\', 'n']
  else if c = '\r' then ['\\', 'r']
  else if c = '\t' then ['\\', 't']
  else if c.toNat = 0 then ['\\', '0']
  else if c = quote then ['\\', quote]
  else if isHidden c then ['\\', 'u', '\x7b'] ++ Nat.toDigits 16 c.toNat ++ ['\x7d']
  else [c]

/-- A string in double quotes. -/
def quoteString (cs : List Char) : String :=
  String.ofList ('"' :: cs.flatMap (escape '"') ++ ['"'])

/-- A character in single quotes. -/
def quoteChar (c : Char) : String :=
  String.ofList ('\'' :: escape '\'' c ++ ['\''])

end PuzzleKit.Text

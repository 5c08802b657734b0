import PuzzleKit.Source.Token

/-!
# Trees of source code

Brackets group the tokens between them. The sign `<` is a bracket only in some
places: always among types, and in an expression only where an operand is
awaited, since it compares two numbers otherwise. What is handed to a macro is
left as it is. A `<` that is not closed is no bracket.

In print the arguments in angle brackets are put in order: lifetimes come first.
-/

namespace PuzzleKit.Source

inductive Tree
  | leaf (token : Token)
  | group (bracket : Bracket) (content : List Tree)
  | angles (content : List Tree)

/-- What stands in some place of source code. The content of square brackets is
a type, which may be followed by a semicolon and an expression. -/
inductive Place
  | types
  | array
  | expression
  | verbatim
deriving DecidableEq

/-- Whether a group is handed to a macro, by what comes before it, from the last
on. -/
def isMacroCall : List Tree → Bool
  | .leaf (.mark "!") :: .leaf (.word name) :: _ => !Token.keywords.contains name
  | _ => false

/-- Whether a group is an attribute, by what comes before it. -/
def isAttribute : List Tree → Bool
  | .leaf (.mark "#") :: _ => true
  | _ => false

/-- Whether an operand comes next, after what comes before. -/
def awaitsOperand : List Tree → Bool
  | [] => true
  | .leaf (.mark m) :: _ => m != "?" && m != "<" && m != ">"
  | _ => false

/-- Whether a semicolon has been passed. -/
def hasSemicolon (before : List Tree) : Bool :=
  before.any fun
    | .leaf (.mark ";") => true
    | _ => false

namespace Place

/-- Whether `<` is a bracket after what comes before it. -/
def opensAngles (place : Place) (before : List Tree) : Bool :=
  match place with
  | types => true
  | array => !hasSemicolon before || awaitsOperand before
  | expression => awaitsOperand before
  | verbatim => false

/-- What stands in a group after what comes before it. -/
def inside (place : Place) (bracket : Bracket) (before : List Tree) : Place :=
  if place = verbatim || isMacroCall before || isAttribute before then verbatim
  else if place = expression || (place = array && hasSemicolon before) then expression
  else
    match bracket with
    | .round => types
    | .square => array
    | .curly => expression

end Place

namespace Tree

/-- Read trees up to a closing bracket or the end, after those read before, the
last one first; and what is left. The fuel is the number of tokens. -/
def readFrom : Nat → Place → Bool → List Tree → List Token → Option (List Tree × List Token)
  | _, _, _, before, [] => some (before.reverse, [])
  | 0, _, _, _, _ :: _ => none
  | n + 1, place, isInAngles, before, t :: ts =>
    match t with
    | .closing _ => some (before.reverse, t :: ts)
    | .opening bracket => do
      let (content, rest) ← readFrom n (place.inside bracket before) false [] ts
      if rest.head? = some (.closing bracket) then
        readFrom n place isInAngles (.group bracket content :: before) rest.tail
      else none
    | .mark m =>
      if m = ">" && isInAngles then some (before.reverse, t :: ts)
      else if m = "<" && place.opensAngles before then do
        let (content, rest) ← readFrom n .types true [] ts
        if rest.head? = some (.mark ">") then
          readFrom n place isInAngles (.angles content :: before) rest.tail
        else readFrom n place isInAngles (content.reverse ++ .leaf t :: before) rest
      else readFrom n place isInAngles (.leaf t :: before) ts
    | t => readFrom n place isInAngles (.leaf t :: before) ts

/-- The trees of some tokens, if their brackets match. -/
def ofTokens? (place : Place) (ts : List Token) : Option (List Tree) :=
  match readFrom ts.length place false [] ts with
  | some (trees, []) => some trees
  | _ => none

/-! ### Printing -/

def comma : List Token := [.mark ","]

/-- Whether an argument is a lifetime. -/
def isLifetime : List (List Token) → Bool
  | [.lifetime _] :: rest => rest.all (· = comma)
  | _ => false

/-- The arguments in angle brackets, each with the comma after it. -/
def arguments (pieces : List (List Token)) : List (List (List Token)) :=
  let parts := splitAtElement comma pieces
  parts.dropLast.map (· ++ [comma]) ++ (parts.getLast?.filter fun part => !part.isEmpty).toList

/-- The content of angle brackets with the lifetimes moved to the front. -/
def lifetimesFirst (pieces : List (List Token)) : List (List Token) :=
  let (lifetimes, others) := (arguments pieces).partition isLifetime
  let isSeparated := others.isEmpty || lifetimes.flatten.getLast?.all (· = comma)
  lifetimes.flatten ++ (if isSeparated then [] else [comma]) ++ others.flatten

mutual

/-- The tokens of a tree, as it is printed. -/
def tokens : Tree → List Token
  | leaf token => [token]
  | group bracket content => .opening bracket :: (pieces content).flatten ++ [.closing bracket]
  | angles content => .mark "<" :: (lifetimesFirst (pieces content)).flatten ++ [.mark ">"]

/-- The tokens of each of some trees. -/
def pieces : List Tree → List (List Token)
  | [] => []
  | tree :: trees => tree.tokens :: pieces trees

end

/-- Trees in print, without any spaces. -/
def print (trees : List Tree) : String :=
  String.ofList (((pieces trees).flatten.flatMap fun t => t.text.toList).filter (· != ' '))

end Tree

end PuzzleKit.Source

import PuzzleKit.Source.Tree

/-!
# Annotated items

A runner is generated for the type that an annotated item is about: the name of
a structure, or the type that a block implements. No other kind of item can be
annotated. Of the source of an item only so much is read as decides this, after
its attributes and its visibility.
-/

namespace PuzzleKit

/-- What an annotated item says about the type of the runner. -/
inductive Item
  | structure (name : String)
  | implementation (selfType : String)
  | other
deriving DecidableEq

namespace Item

open Source

def dropAttributes : List Tree → List Tree
  | .leaf (.mark "#") :: .group .square _ :: rest => dropAttributes rest
  | trees => trees

/-- The item without its visibility, if it has one. -/
def dropVisibility? : List Tree → Option (List Tree)
  | .leaf (.word "pub") :: .group .round _ :: rest => some rest
  | .leaf (.word "pub") :: rest => some rest
  | _ => none

/-- The trees without the word that they may begin with. -/
def dropWord (word : String) : List Tree → List Tree
  | .leaf (.word w) :: rest => if w = word then rest else .leaf (.word w) :: rest
  | trees => trees

/-- Whether this ends the name of a parameter. -/
def endsParameter : List Tree → Bool
  | [] => true
  | .leaf (.mark m) :: _ => m = "," || m = ":" || m = "="
  | _ => false

/-- Whether angle brackets declare parameters, and do not begin a path. -/
def declares : List Tree → Bool
  | [] => true
  | .leaf (.mark m) :: _ => m = "#"
  | .leaf (.lifetime _) :: rest => endsParameter rest
  | .leaf (.word w) :: rest =>
    w = "const" || (!(Token.keywords ++ Token.pathKeywords).contains w && endsParameter rest)
  | _ => false

def dropParameters : List Tree → List Tree
  | .angles content :: rest => if declares content then rest else .angles content :: rest
  | trees => trees

/-- An implementation can say that a trait does not hold. -/
def dropNegation : List Tree → List Tree
  | .leaf (.mark "!") :: .group .curly content :: rest =>
    .leaf (.mark "!") :: .group .curly content :: rest
  | .leaf (.mark "!") :: rest => rest
  | trees => trees

/-- What comes before the conditions and the body of an implementation, after
what has been passed, the last first. -/
def header (passed : List Tree) : List Tree → List Tree
  | [] => passed.reverse
  | .leaf (.word "where") :: _ => passed.reverse
  | .group .curly content :: rest =>
    if isMacroCall passed then header (.group .curly content :: passed) rest else passed.reverse
  | tree :: rest => header (tree :: passed) rest

/-- Whether trees begin with lifetimes in angle brackets, over which a type
quantifies. -/
def isBinder : List Tree → Bool
  | .angles [] :: _ => true
  | .angles (.leaf (.lifetime _) :: _) :: _ => true
  | _ => false

/-- The trait and the type in the header of an implementation that names both. -/
def splitTrait : List Tree → Option (List Tree × List Tree)
  | [] => none
  | tree :: rest =>
    let later := (splitTrait rest).map fun (path, type) => (tree :: path, type)
    match tree with
    | .leaf (.word "for") => if isBinder rest then later else some ([], rest)
    | _ => later

/-- Whether some trees can be the path of a trait. -/
def isPath (trees : List Tree) : Bool :=
  let isPlain : Tree → Bool
    | .leaf (.mark m) => m != "!" && m != "+"
    | _ => true
  let isStart : Tree → Bool
    | .leaf (.word w) => !Token.keywords.contains w
    | .leaf (.mark m) => m = "::"
    | _ => false
  trees.head?.any isStart && trees.all isPlain

/-- The implementation after its keyword and its parameters. One that holds only
at compile time, or for something else than a trait, is not taken for one. -/
def ofHeader : List Tree → Item
  | .leaf (.word "const") :: _ => .other
  | .leaf (.mark "?") :: .leaf (.word "const") :: _ => .other
  | trees =>
    let types := header [] (dropNegation trees)
    match splitTrait types with
    | some (path, type) => if isPath path then .implementation (Tree.print type) else .other
    | none => .implementation (Tree.print types)

/-- The item that source code declares. -/
def ofTrees (trees : List Tree) : Item :=
  let bare := dropAttributes trees
  let declaration := (dropVisibility? bare).getD bare
  match declaration with
  | .leaf (.word "struct") :: .leaf (.word name) :: _ => .structure name
  | _ =>
    match dropWord "unsafe" (dropWord "default" bare) with
    | .leaf (.word "impl") :: rest => ofHeader (dropParameters rest)
    | _ => .other

/-- The item that a text declares. -/
def ofText (cs : List Char) : Item :=
  match (Token.ofText? cs).bind (Tree.ofTokens? .types) with
  | some trees => ofTrees trees
  | none => .other

/-- The type that a runner is generated for. -/
def runnerType? : Item → Option String
  | .structure name => some name
  | .implementation selfType => some selfType
  | .other => none

end Item

end PuzzleKit

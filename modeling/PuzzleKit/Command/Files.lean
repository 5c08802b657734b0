import PuzzleKit.Sequence.Split

/-!
# Files

A tree of files, given by the paths of its files and of some directories; a
directory is also whatever such a path goes through. A path is followed from the
root or from the current directory, component by component, which is possible
only from a directory. The directory above the root is the root.
-/

namespace PuzzleKit.Command

/-- Why a text cannot be read from a path. -/
inductive ReadError
  | notFound
  | isDirectory
  | notDirectory
  | nameTooLong
  | unexpectedNul
  | notText
deriving DecidableEq

def ReadError.message : ReadError → String
  | .notFound => "No such file or directory (os error 2)"
  | .isDirectory => "Is a directory (os error 21)"
  | .notDirectory => "Not a directory (os error 20)"
  | .nameTooLong => "File name too long (os error 36)"
  | .unexpectedNul => "file name contained an unexpected NUL byte"
  | .notText => "stream did not contain valid UTF-8"

/-- A path, as its components from the root. -/
abbrev Path := List (List Char)

namespace Path

/-- The greatest number of bytes in the text of a path. -/
def maxBytes : Nat := 4095

/-- The greatest number of bytes in a component. -/
def maxComponentBytes : Nat := 255

/-- The components in the text of a path. -/
def ofText (path : List Char) : Path := splitAtElement '/' path

/-- Whether a component stays where it is. -/
def isStay (component : List Char) : Bool := component = [] || component = ['.']

/-- Whether a component is longer than a name can be. -/
def isTooLong (component : List Char) : Bool :=
  maxComponentBytes < (String.ofList component).utf8ByteSize

end Path

structure FileTree where
  current : Path
  directories : List Path
  files : List (Path × ByteArray)

namespace FileTree

/-- The directories at the root of a system. -/
def rootDirectories : List String :=
  ["bin", "dev", "etc", "home", "lib", "proc", "root", "run", "sys", "tmp", "usr", "var"]

/-- The tree of a system that has files with the given paths in its current
directory, and apart from that an empty file to discard data in. -/
def ofFiles (files : List (String × ByteArray)) : FileTree :=
  let current := Path.ofText "tmp/work".toList
  let path := fun (text : String) => (Path.ofText text.toList).filter fun c => !Path.isStay c
  ⟨current, rootDirectories.map path,
    (path "dev/null", ByteArray.empty) ::
      files.map fun (text, content) => (current ++ path text, content)⟩

/-- The content of the file at a path. -/
def file? (t : FileTree) (p : Path) : Option ByteArray :=
  (t.files.find? fun (q, _) => q == p).map Prod.snd

/-- Whether a path is that of a directory. -/
def isDirectory (t : FileTree) (p : Path) : Bool :=
  (t.current :: t.directories).any p.isPrefixOf ||
    t.files.any fun (q, _) => p.isPrefixOf q && p != q

/-- Where a path leads to from a place in the tree. -/
def follow (t : FileTree) (place : Path) : Path → Except ReadError Path
  | [] => .ok place
  | component :: rest =>
    if (t.file? place).isSome then .error .notDirectory
    else if !t.isDirectory place then .error .notFound
    else if Path.isStay component then follow t place rest
    else if component = ['.', '.'] then follow t place.dropLast rest
    else if Path.isTooLong component then .error .nameTooLong
    else follow t (place ++ [component]) rest

/-- The content of the file that a path leads to. A text that can be no path is
refused before it is followed. -/
def read (t : FileTree) (path : String) : Except ReadError ByteArray :=
  if path.toList.any fun c => c.toNat = 0 then .error .unexpectedNul
  else if path.isEmpty then .error .notFound
  else if Path.maxBytes < path.utf8ByteSize then .error .nameTooLong
  else do
    let start := if path.toList.head? = some '/' then [] else t.current
    let place ← t.follow start (Path.ofText path.toList)
    match t.file? place with
    | some content => .ok content
    | none => if t.isDirectory place then .error .isDirectory else .error .notFound

end FileTree

end PuzzleKit.Command

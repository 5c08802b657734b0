import PuzzleKit.Geometry.SpatialDirection
import PuzzleKit.Integer.Numeral

/-!
# Points

A point of any dimension is its vector of components. The measures sum over
the components from the first to the last, and every difference, absolute
value, product and partial sum has to fit the width of the components.

The text of a point is its components, separated by commas, with any blanks
around each. A component that is no numeral is complained about before a wrong
number of components is.
-/

namespace PuzzleKit

/-- Why a text is not a point. -/
inductive PointTextError
  | componentCount (expected found : Nat)
  | invalidComponent (component : List Char)
deriving DecidableEq

def PointTextError.message : PointTextError → String
  | .componentCount expected found =>
    s!"expected {expected} comma separated components, but found {found}"
  | .invalidComponent component => "invalid coordinate component: " ++ Text.quoteString component

/-- The name of the kind of fault. -/
def PointTextError.kind : PointTextError → String
  | .componentCount _ _ => "ComponentCount"
  | .invalidComponent _ => "InvalidComponent"

/-- A component of a point, from the text between two commas. -/
def parseComponent (w : Width) (piece : List Char) : Except PointTextError (Word w) :=
  match Word.parse w (Text.trim piece) with
  | .ok a => .ok a
  | .error _ => .error (.invalidComponent (Text.trim piece))

abbrev Point (w : Width) (d : Nat) := Vector (Word w) d

namespace Point

variable {w : Width} {d : Nat}

/-- The sum, from zero and from the left, of a measure of each component. -/
def sumM {α : Type} (measure : α → Except ArithmeticFault (Word w)) (components : List α) :
    Except ArithmeticFault (Word w) :=
  components.foldlM (fun total c => do total.add (← measure c)) 0

/-- The sum of the absolute differences. -/
def manhattanDistance (a b : Point w d) : Except ArithmeticFault (Word w) :=
  sumM (fun (p, q) => do (← Word.sub p q).abs) (a.toList.zip b.toList)

/-- The distance to the origin. -/
def manhattanNorm (a : Point w d) : Except ArithmeticFault (Word w) := sumM Word.abs a.toList

/-- The square of the length of the straight line. -/
def distanceSquared (a b : Point w d) : Except ArithmeticFault (Word w) :=
  sumM (fun (p, q) => do
    let difference ← Word.sub p q
    difference.mul difference) (a.toList.zip b.toList)

/-- A component moved by an offset of at most one. -/
def moveComponent (a : Word w) (offset : Int) : Except ArithmeticFault (Word w) :=
  Word.fit w .addOverflow (a.val + offset)

/-- One step in space. -/
def step (a : Point w 3) (direction : SpatialDirection) : Except ArithmeticFault (Point w 3) := do
  let (dx, dy, dz) := direction.offset
  let x ← moveComponent a[0] dx
  let y ← moveComponent a[1] dy
  let z ← moveComponent a[2] dz
  return #v[x, y, z]

/-- The point of a text. -/
def parse (w : Width) (d : Nat) (text : List Char) : Except PointTextError (Point w d) := do
  let components ← (splitAtElement ',' text).mapM (parseComponent w)
  if h : components.length = d then .ok ⟨components.toArray, by simp [h]⟩
  else .error (.componentCount d components.length)

end Point

end PuzzleKit

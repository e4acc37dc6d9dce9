import WeakForm.Datum.Array
import WeakForm.Datum.Order
import WeakForm.Index
import WeakForm.Text.Lowercase

/-!
# Selectors

Regions are selected by conditions on coordinates or by the side of the bounding box on which they
lie. Conjunctions and disjunctions stop at the first condition that decides them.
-/

namespace WeakForm

inductive Comparison where
  | less
  | atMost
  | greater
  | atLeast
  | equal
  | unequal
  deriving DecidableEq, Repr

namespace Comparison

def holds {α : Type} [Scalar α] : Comparison → α → α → Bool
  | less, x, y => Scalar.less x y
  | atMost, x, y => Scalar.atMost x y
  | greater, x, y => Scalar.less y x
  | atLeast, x, y => Scalar.atMost y x
  | equal, x, y => Scalar.same x y
  | unequal, x, y => !Scalar.same x y

end Comparison

/-- A condition on the coordinates of a point. -/
inductive Predicate (α : Type) where
  | compare (axis : Datum α) (comparison : Comparison) (value : Datum α)
  | all (conditions : List (Predicate α))
  | any (conditions : List (Predicate α))
  | always (value : Bool)
  /-- Any other condition, which answers at every point or fails there. -/
  | function (answer : List α → Except (Error α) Bool)

namespace Comparison

variable {α : Type} [Scalar α]

/-- What a comparison with a datum says that is no number. -/
def unlike : Comparison → Except (Error α) Bool
  | equal => .ok false
  | unequal => .ok true
  | _ => .error .wrongType

/-- Compares a coordinate with a datum by value, without rounding a whole number. -/
def holdsExactly (c : Comparison) (x : α) (d : Datum α) : Except (Error α) Bool :=
  match Datum.lessLeaf? (.real x) d, Datum.lessLeaf? d (.real x) with
  | some isLess, some isGreater =>
    let isSame := Datum.sameLeaf (.real x) d
    .ok <|
      match c with
      | less => isLess
      | atMost => isLess || isSame
      | greater => isGreater
      | atLeast => isGreater || isSame
      | equal => isSame
      | unequal => !isSame
  | _, _ => c.unlike

/-- Compares a coordinate with an item of an array of data. Only numbers that have nothing in common
with other items are compared as they are, all others as real numbers. -/
def testItem (c : Comparison) (x : α) (common : Commonality) (d : Datum α) :
    Except (Error α) Bool :=
  match common with
  | .numbers => d.toReal.map fun y => c.holds x y
  | .texts => c.unlike
  | .nothing => c.holdsExactly x d

/-- Compares a coordinate with a datum. Of a list every item is compared, and there has to be
exactly one. -/
def test (c : Comparison) (x : α) : Datum α → Except (Error α) Bool
  | .null => c.unlike
  | .text _ => c.unlike
  | .map _ => c.unlike
  | .list xs => do
    let a ← DataArray.ofDatum (.list xs)
    let answers ← a.items.data.toList.mapM (c.testItem x a.commonality)
    match answers with
    | [answer] => pure answer
    | _ => .error .shapeMismatch
  | d => d.toReal.map fun y => c.holds x y

end Comparison

namespace Predicate

instance {α : Type} : Inhabited (Predicate α) := ⟨always true⟩

variable {α : Type} [Scalar α]

mutual

/-- Whether a point satisfies a condition. A coordinate that the point does not have is an
error. -/
def eval : Predicate α → List α → Except (Error α) Bool
  | compare axis c v, point => do
    let k ← axis.toIndex
    match (position? point.length k).bind (point[·]?) with
    | some x => c.test x v
    | none => .error .outOfRange
  | all ps, point => evalAll ps point
  | any ps, point => evalAny ps point
  | always b, _ => .ok b
  | function answer, point => answer point

def evalAll : List (Predicate α) → List α → Except (Error α) Bool
  | [], _ => .ok true
  | p :: ps, point =>
    match eval p point with
    | .ok true => evalAll ps point
    | r => r

def evalAny : List (Predicate α) → List α → Except (Error α) Bool
  | [], _ => .ok false
  | p :: ps, point =>
    match eval p point with
    | .ok false => evalAny ps point
    | r => r

end

/-- Whether all points of a list satisfy a condition; the first that does not decides. -/
def holdsAt (p : Predicate α) : List (List α) → Except (Error α) Bool
  | [] => .ok true
  | point :: points =>
    match p.eval point with
    | .ok true => holdsAt p points
    | r => r

end Predicate

/-- The faces of the bounding box. -/
inductive Location where
  | left
  | right
  | bottom
  | top
  deriving DecidableEq, Repr

namespace Location

def name : Location → String
  | left => "left"
  | right => "right"
  | bottom => "bottom"
  | top => "top"

/-- The face that a text names in any letter case. -/
def ofName? (s : String) : Option Location :=
  [left, right, bottom, top].find? fun l => l.name == Text.lowercase s

end Location

/-- What selects a side: a face of the bounding box or a condition on its nodes. -/
inductive Selector (α : Type) where
  | location (name : String)
  | predicate (condition : Predicate α)
  /-- Neither of them, which is found out when a side is to be selected. -/
  | unusable

end WeakForm

import WeakForm.Datum.Array
import WeakForm.Element.Data

/-!
# Sites

A site is a point of an element at which a kernel is evaluated: a reference point of an element in
the strict sense, or data that stand for one or several points of an element from data. It has a
shape matrix, a derivative matrix, a position and reference coordinates. Constants are evaluated
where there is no element, and none of these is defined there.
-/

namespace WeakForm

inductive Site (α : Type) where
  | regular (element : Element α) (point : Option (List α))
  | given (element : ElementData α) (point : Datum α)
  | absent

namespace Site

variable {α : Type} [Scalar α]

/-- The shape matrix, provided that it is not too large. -/
def shape : Site α → Except (Error α) (Tensor α)
  | regular e ξ => do
    checkCapacity 8 (e.dofsPerNode * e.dofs)
    let N ← e.shape (ξ.getD [])
    pure (.ofMatrix N)
  | given e xi => (ElementData.pointsOf xi).bind e.shape
  | absent => .error .wrongType

/-- The derivative matrix. -/
def derivative : Site α → Except (Error α) (Tensor α)
  | regular e ξ => (e.shapeDerivative (ξ.getD [])).map .ofMatrix
  | given e xi => (ElementData.pointsOf xi).bind e.shapeDerivative
  | absent => .error .wrongType

/-- The physical coordinates along the first axis. -/
def position : Site α → Except (Error α) (Tensor α)
  | regular e ξ => (e.position (ξ.getD [])).map fun p => .ofArray p.toArray
  | given e xi => (ElementData.pointsOf xi).bind e.position
  | absent => .error .wrongType

/-- A coordinate among those along the first axis of an array, each of which has to be a single
number. -/
def coordinateIn (names : List String) (name : String) (values : Tensor α) :
    Except (Error α) α :=
  let k := names.idxOf name
  let count := values.shape.headD 1
  if count ≤ k then .error (.undefinedCoordinate name count)
  else if 1 < values.shape.length then .error .wrongType
  else
    match values.data[k]? with
    | some x => .ok x
    | none => .error .wrongType

def positionNames : List String := ["x", "y", "z"]

def referenceNames : List String := ["xi", "eta", "zeta"]

/-- A reference coordinate of a datum, which is read as a number only where it is asked for. -/
def givenCoordinate (xi : Datum α) (name : String) : Except (Error α) α := do
  let a ← DataArray.ofDatum xi
  let k := referenceNames.idxOf name
  let count := a.items.shape.headD 1
  if count ≤ k then .error (.undefinedCoordinate name count)
  else if 1 < a.items.shape.length then .error .wrongType
  else
    match a.items.data[k]? with
    | some .null | none => .error .wrongType
    | some d => d.toReal

/-- The reference coordinate with a given name. -/
def reference (name : String) : Site α → Except (Error α) α
  | regular _ (some ξ) => coordinateIn referenceNames name (.ofArray ξ.toArray)
  | regular _ none => givenCoordinate .null name
  | given _ xi => givenCoordinate xi name
  | absent => .error .wrongType

/-- The coordinate in space with a given name. -/
def coordinate (name : String) (s : Site α) : Except (Error α) α := do
  let p ← s.position
  coordinateIn positionNames name p

end Site
end WeakForm

import WeakForm.Element.Family
import WeakForm.Error
import WeakForm.Linear.Elimination
import WeakForm.Linear.PseudoInverse

/-!
# Basis functions

The basis functions of each family at a reference point, their derivatives in reference and in
physical coordinates, and the Jacobian of the map from reference to physical coordinates. Segments
and quadrilaterals use coordinates from -1 to 1, triangles those of (0,0), (1,0) and (0,1). A beam
interpolates deflections and rotations by cubic functions that depend on its length, and takes
second derivatives in place of first ones; its geometry is that of a straight segment.
-/

namespace WeakForm
namespace Basis

variable {α : Type} [Scalar α]

def line2 (x : α) : List α := [0.5 * (1 - x), 0.5 * (1 + x)]

def line2Gradient : List (List α) := [[-0.5, 0.5]]

def line3 (x : α) : List α := [0.5 * x * (x - 1), 0.5 * x * (x + 1), 1 - x * x]

def line3Gradient (x : α) : List (List α) := [[x - 0.5, x + 0.5, -(2.0 * x)]]

def quad4 (x y : α) : List α :=
  [0.25 * (1 - x) * (1 - y), 0.25 * (1 + x) * (1 - y), 0.25 * (1 + x) * (1 + y),
    0.25 * (1 - x) * (1 + y)]

def quad4Gradient (x y : α) : List (List α) :=
  [[-(0.25 * (1 - y)), 0.25 * (1 - y), 0.25 * (1 + y), -(0.25 * (1 + y))],
    [-(0.25 * (1 - x)), -(0.25 * (1 + x)), 0.25 * (1 + x), 0.25 * (1 - x)]]

def tri3 (x y : α) : List α := [1 - x - y, x, y]

def tri3Gradient : List (List α) := [[-1, 1, 0], [-1, 0, 1]]

def tri6 (x y : α) : List α :=
  let z := 1 - x - y
  [z * (2.0 * z - 1), x * (2.0 * x - 1), y * (2.0 * y - 1), 4.0 * z * x, 4.0 * x * y,
    4.0 * y * z]

def tri6Gradient (x y : α) : List (List α) :=
  let z := 1 - x - y
  [[-(4.0 * z - 1), 4.0 * x - 1, 0, 4.0 * (z - x), 4.0 * y, -(4.0 * y)],
    [-(4.0 * z - 1), 0, 4.0 * y - 1, -(4.0 * x), 4.0 * x, 4.0 * (z - y)]]

/-- Deflections and rotations at the ends of a beam of length `L`, in turn. -/
def beam2 (L x : α) : List α :=
  [0.25 * ((1 - x) * (1 - x)) * (2.0 + x), L / 8.0 * ((1 - x) * (1 - x)) * (1 + x),
    0.25 * ((1 + x) * (1 + x)) * (2.0 - x), L / 8.0 * ((1 + x) * (1 + x)) * (x - 1)]

/-- Second derivatives of the beam functions along the beam. -/
def beam2Curvature (L x : α) : List (List α) :=
  [[6.0 * x / (L * L), (3.0 * x - 1) / L, -(6.0 * x) / (L * L), (3.0 * x + 1) / L]]

end Basis

/-- Euclidean norm. -/
def norm {α : Type} [Scalar α] (v : List α) : α :=
  Scalar.sqrt ((v.map fun x => x * x).foldl (· + ·) 0)

namespace Family

variable {α : Type} [Scalar α]

/-- The length of a beam: the distance of its two nodes. -/
def beamLength (nodes : DenseMatrix α) : Except (Error α) α :=
  if nodes.rows < 2 then .error .outOfRange
  else .ok (norm ((List.range nodes.cols).map fun j => nodes.entry 1 j - nodes.entry 0 j))

/-- The values of the basis functions. A point with too few coordinates is an error, further
coordinates are ignored. -/
def basis (f : Family) (nodes : DenseMatrix α) (ξ : List α) : Except (Error α) (List α) :=
  match f, ξ with
  | point, _ => .ok [1]
  | line2, x :: _ => .ok (Basis.line2 x)
  | line3, x :: _ => .ok (Basis.line3 x)
  | quad4, x :: y :: _ => .ok (Basis.quad4 x y)
  | tri3, x :: y :: _ => .ok (Basis.tri3 x y)
  | tri6, x :: y :: _ => .ok (Basis.tri6 x y)
  | beam2, x :: _ => (beamLength nodes).map fun L => Basis.beam2 L x
  | _, _ => .error .outOfRange

/-- Derivatives of the geometry functions in reference coordinates, a row per coordinate. -/
def gradientRows (f : Family) (ξ : List α) : Except (Error α) (List (List α)) :=
  match f, ξ with
  | point, _ => .ok []
  | line2, _ | beam2, _ => .ok Basis.line2Gradient
  | line3, x :: _ => .ok (Basis.line3Gradient x)
  | quad4, x :: y :: _ => .ok (Basis.quad4Gradient x y)
  | tri3, _ => .ok Basis.tri3Gradient
  | tri6, x :: y :: _ => .ok (Basis.tri6Gradient x y)
  | _, _ => .error .outOfRange

/-- The derivatives in reference coordinates as a matrix with a column per node. -/
def localGradient (f : Family) (ξ : List α) : Except (Error α) (DenseMatrix α) :=
  (f.gradientRows ξ).map fun rows => .ofRows f.nodeCount rows

/-- Derivatives of the physical coordinates: a row per reference coordinate and a column per
physical one. -/
def jacobian (f : Family) (nodes : DenseMatrix α) (ξ : List α) :
    Except (Error α) (DenseMatrix α) :=
  match f with
  | point => .ok (.zero 0 0)
  | beam2 => (beamLength nodes).map fun L => .ofRows 1 [[0.5 * L]]
  | f => do
    let G ← f.localGradient ξ
    if G.cols = nodes.rows then pure (G.mul nodes) else .error .shapeMismatch

/-- Carries derivatives in reference coordinates over to physical ones. Where the Jacobian is not
square its Moore-Penrose inverse takes the place of the inverse. -/
def pullBack (J G : DenseMatrix α) : Except (Error α) (DenseMatrix α) :=
  if J.rows = J.cols then
    match J.solveMatrix? G with
    | some b => .ok b
    | none => .error .singularMatrix
  else if J.data.all Scalar.isFinite then .ok (J.pseudoInverse.mul G)
  else .error .singularMatrix

/-- Derivatives of the basis functions in physical coordinates. -/
def gradient (f : Family) (nodes : DenseMatrix α) (ξ : List α) :
    Except (Error α) (DenseMatrix α) :=
  match f, ξ with
  | point, _ => .ok (.zero 0 1)
  | beam2, x :: _ => do
    let L ← beamLength nodes
    if Scalar.isFinite L && !Scalar.isFinite (L * L) then .error .overflow
    else pure (.ofRows 4 (Basis.beam2Curvature L x))
  | beam2, [] => .error .outOfRange
  | f, ξ => do
    let G ← f.localGradient ξ
    let J ← f.jacobian nodes ξ
    pullBack J G

/-- The values of the functions that interpolate the geometry. -/
def geometryBasis (f : Family) (nodes : DenseMatrix α) (ξ : List α) : Except (Error α) (List α) :=
  match f, ξ with
  | beam2, x :: _ => .ok (Basis.line2 x)
  | f, ξ => f.basis nodes ξ

end Family
end WeakForm

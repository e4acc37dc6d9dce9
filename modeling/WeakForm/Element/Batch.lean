import WeakForm.Element.Basis
import WeakForm.Value.NumberArray

/-!
# Batches of reference points

The coordinates of a batch of reference points are arrays of one shape, and so are the values of
every basis function over the batch. Nodes may be given by arrays of any shape: the first axis
counts the nodes, and matrix products with them follow the rules for stacks of matrices. For single
points and matrices of nodes these are the functions of the family.
-/

namespace WeakForm

namespace Tensor

/-- A stack of matrices with `m` rows and `n` columns. -/
def ofMatrices? {β : Type} [Zero β] (lead : List Nat) (m n : Nat)
    (matrices : List (DenseMatrix β)) : Option (Tensor β) :=
  (ofArray (matrices.flatMap fun A => A.data.toList).toArray).reshape? (lead ++ [m, n])

variable {α : Type} [Scalar α]

/-- The solutions `X` of `A X = B` for stacks of square matrices. -/
def solve (A B : Tensor α) : Except (Error α) (Tensor α) :=
  match lastTwo? A.shape, lastTwo? B.shape with
  | some (leadA, m, n), some (leadB, k, c) =>
    if m ≠ n then .error .singularMatrix
    else if k ≠ m then .error .shapeMismatch
    else do
      let lead ← orShapeMismatch (broadcastShape leadA leadB)
      let solutions ← (List.range (volume lead)).mapM fun s =>
        let is := unravel lead s
        let a := DenseMatrix.ofFn m m fun i j => A.get (project leadA is ++ [i, j])
        let b := DenseMatrix.ofFn m c fun i j => B.get (project leadB is ++ [i, j])
        match a.solveMatrix? b with
        | some x => .ok x
        | none => .error .singularMatrix
      orShapeMismatch (ofMatrices? lead m c solutions)
  | _, _ => .error .shapeMismatch

/-- The determinants of a stack of square matrices. -/
def det (A : Tensor α) : Except (Error α) (Tensor α) :=
  match lastTwo? A.shape with
  | some (lead, m, n) =>
    if m ≠ n then .error .singularMatrix
    else
      let dets := (List.range (volume lead)).map fun s => (A.matrixAt m m s).det
      orShapeMismatch ((ofArray dets.toArray).reshape? lead)
  | none => .error .singularMatrix

/-- The Moore-Penrose inverses of a stack of matrices with finite entries. -/
def pseudoInverse (A : Tensor α) : Except (Error α) (Tensor α) :=
  match lastTwo? A.shape with
  | some (lead, m, n) =>
    if A.data.all Scalar.isFinite then
      orShapeMismatch <| ofMatrices? lead n m <|
        (List.range (volume lead)).map fun s => (A.matrixAt m n s).pseudoInverse
    else .error .singularMatrix
  | none => .error .singularMatrix

end Tensor

namespace Family

variable {α : Type} [Scalar α]

/-- The nodes as rows of numbers. -/
def flatNodes (nodes : Tensor α) : DenseMatrix α :=
  match nodes.shape with
  | [] => .zero 0 0
  | n :: rest => .ofFn n (volume rest) fun i j => nodes.data.getD (i * volume rest + j) 0

/-- The shape of the coordinates of a batch. -/
def batchShape (ξ : Tensor α) : List Nat := ξ.shape.drop 1

/-- The coordinates of one point of a batch. -/
def pointAt (ξ : Tensor α) (is : List Nat) : List α :=
  (List.range (ξ.shape.headD 0)).map fun k => ξ.get (k :: is)

/-- Places rows of values, which depend on the first `dim` coordinates of a point, in front of the
axes of a batch. A batch without points has to satisfy the same conditions as one with points. -/
def overBatch (dim : Nat) (front : List Nat) (f : List α → Except (Error α) (List α))
    (ξ : Tensor α) : Except (Error α) (Tensor α) := do
  if ξ.shape.headD 0 < dim then throw .outOfRange
  let _ ← f (List.replicate dim 0)
  let rest := batchShape ξ
  let samples ← (List.range (volume rest)).mapM fun s => f (pointAt ξ (Tensor.unravel rest s))
  pure <| Tensor.ofFn (front ++ rest) fun is =>
    let values := samples.getD (Tensor.ravel rest (is.drop front.length)) []
    values.getD (Tensor.ravel front (is.take front.length)) 0

/-- The shape in which the four corners of a quadrilateral meet the coordinates of a batch. -/
def cornerShape (rest : List Nat) : Except (Error α) (List Nat) :=
  if rest.isEmpty then .ok [4] else orShapeMismatch (Tensor.broadcastShape rest [4])

/-- Values at the corners, which share the last axis of the batch. -/
def overCorners (front : List Nat) (f : List α → Except (Error α) (List α)) (ξ : Tensor α) :
    Except (Error α) (Tensor α) := do
  if ξ.shape.headD 0 < 2 then .error .outOfRange
  else
    let rest := batchShape ξ
    let shape ← cornerShape rest
    let samples ← (List.range (volume rest)).mapM fun s => f (pointAt ξ (Tensor.unravel rest s))
    pure <| Tensor.ofFn (front ++ shape) fun is =>
      let corner := is.drop front.length
      let values := samples.getD (Tensor.ravel rest (Tensor.project rest corner)) []
      values.getD (Tensor.ravel (front ++ [4]) (is.take front.length ++ [corner.getLastD 0])) 0

/-- The basis functions over a batch. -/
def basisOver (f : Family) (nodes ξ : Tensor α) : Except (Error α) (Tensor α) :=
  match f with
  | point => .ok (.ofArray #[1])
  | quad4 => overCorners [] (f.basis (flatNodes nodes)) ξ
  | beam2 => overBatch 1 [4] (f.basis (flatNodes nodes)) ξ
  | f => overBatch f.dim [f.nodeCount] (f.basis (flatNodes nodes)) ξ

/-- Derivatives of the geometry functions over a batch. For triangles with mid-side nodes some of
them depend on the point and others do not, so that they only make an array for a single point. -/
def localGradientOver (f : Family) (ξ : Tensor α) : Except (Error α) (Tensor α) :=
  let rows := fun (x : List α) => (f.gradientRows x).map List.flatten
  match f with
  | line3 => overBatch 1 [1, 3] rows ξ
  | quad4 => overCorners [2] rows ξ
  | tri6 =>
    if ξ.shape.headD 0 < 2 then .error .outOfRange
    else if (batchShape ξ).isEmpty then overBatch 2 [2, 6] rows ξ
    else .error .shapeMismatch
  | f => (f.localGradient []).map .ofMatrix

/-- The Jacobian over a batch. -/
def jacobianOver (f : Family) (nodes ξ : Tensor α) : Except (Error α) (Tensor α) :=
  match f with
  | point => .ok (.ofMatrix (.zero 0 0))
  | beam2 => (f.jacobian (flatNodes nodes) []).map .ofMatrix
  | f => do
    let G ← f.localGradientOver ξ
    orShapeMismatch (G.mul? nodes)

/-- Derivatives of the basis functions in physical coordinates over a batch. -/
def gradientOver (f : Family) (nodes ξ : Tensor α) : Except (Error α) (Tensor α) :=
  match f with
  | point => .ok (.ofMatrix (.zero 0 1))
  | beam2 => overBatch 1 [1, 4] (fun x => (f.gradient (flatNodes nodes) x).map fun b => b.row 0) ξ
  | f => do
    let G ← f.localGradientOver ξ
    let J ← f.jacobianOver nodes ξ
    match J.shape with
    | m :: n :: _ =>
      if m = n then J.solve G
      else do
        let inverse ← J.pseudoInverse
        orShapeMismatch (inverse.mul? G)
    | _ => .error .outOfRange

/-- The functions that interpolate the geometry, over a batch. -/
def geometryBasisOver (f : Family) (nodes ξ : Tensor α) : Except (Error α) (Tensor α) :=
  match f with
  | beam2 => overBatch 1 [2] (f.geometryBasis (flatNodes nodes)) ξ
  | f => f.basisOver nodes ξ

end Family
end WeakForm

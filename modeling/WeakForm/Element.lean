import WeakForm.Capacity
import WeakForm.Datum.Entries
import WeakForm.Element.Basis
import WeakForm.Index

/-!
# Elements

An element places a reference element in space: it has the coordinates and the numbers of its
nodes and a number of degrees of freedom per node. A side of an element is an element of its own,
whose nodes are given by their distance from the first one and which remembers its true position
and the centre of the element it bounds.

With several degrees of freedom per node the basis is spread over them in turn, so the shape matrix
times the values of the element is the vector of components, and the derivative matrix gives the
strains: the normal ones first, then the shear angles.
-/

/-!
## Degrees of freedom

Nodes are numbered from one and every node owns the same number `n` of degrees of freedom, which
follow each other: node `k` owns the `n` numbers up to `k * n`. Indices into vectors count from
zero. Where node numbers are not known to belong to a mesh, their degrees of freedom are cut to the
length of a word; it suffices to do so once, since sums and products commute with the cut.
-/

namespace WeakForm
namespace Dof

/-- The degrees of freedom of one node, counted from one. -/
def ofNode (n : Nat) (k : Int) : List Int :=
  (List.range n).map fun i : Nat => k * n - n + 1 + i

/-- The degrees of freedom of a list of nodes, counted from one. -/
def expand (n : Nat) (nodes : List Int) : List Int := nodes.flatMap (ofNode n)

/-- Every `n`-th item of a list, from the first. -/
def everyNth {β : Type} (n : Nat) (items : List β) : List β :=
  (items.zipIdx.filter fun p => p.2 % n == 0).map Prod.fst

variable {α : Type} [Scalar α]

/-- Numbers cut to the length of a word. -/
def inWords (α : Type) [Scalar α] (ns : List Int) : List Int := ns.map (Scalar.word α)

/-- The degrees of freedom of a list of nodes for any whole number of them per node. There is no
list of fewer than none, and `n` itself is a word where a node has to be multiplied by it. -/
def transform (nodes : List Int) (n : Int) : Except (Error α) (List Int) := do
  if n * nodes.length < 0 then .error .shapeMismatch
  else
    checkCapacity 8 (n * nodes.length).toNat
    if 0 < n ∧ !Scalar.isWord α n then .error .overflow
    else pure (inWords α (expand n.toNat nodes))

/-- The degrees of freedom of a list of nodes when their number per node is a datum. A list or text
is first repeated for the nodes and read as lengths, and only then found to be no number. -/
def transformBy (nodes : List Int) (d : Datum α) : Except (Error α) (List Int) :=
  match d, d.integer? with
  | .list xs, _ => (checkLengths (List.replicate nodes.length xs).flatten).bind fun _ =>
    .error .wrongType
  | .text s, _ =>
    .error (if Tensor.mostAxes < nodes.length * s.length then .shapeMismatch else .wrongType)
  | _, some n => transform nodes n
  | _, none => .error .wrongType

/-- The nodes that own a list of degrees of freedom with `n` of them per node. For negative `n`
only the first is looked at. -/
def inverseTransform (dofs : List Int) (n : Int) : Except (Error α) (List Int) :=
  if n = 0 then .error .shapeMismatch
  else if !Scalar.isWord α n then .error .overflow
  else
    let firsts := if n < 0 then dofs.take 1 else everyNth n.toNat dofs
    .ok (inWords α (firsts.map fun d => Int.fdiv (Scalar.word α (d + n - 1)) n))

end Dof
end WeakForm

/-!
## Bases and Jacobians
-/

namespace WeakForm

/-- The true position of a side. -/
structure SideGeometry (α : Type) where
  nodes : DenseMatrix α
  parentCenter : List α

structure Element (α : Type) where
  id : Int
  family : Family
  nodes : DenseMatrix α
  nodeIds : List Int
  dofsPerNode : Nat
  side : Option (SideGeometry α)
  rows_nodes : nodes.rows = family.nodeCount
  length_nodeIds : nodeIds.length = family.nodeCount

namespace Element

variable {α : Type}

def dim (e : Element α) : Nat := e.nodes.cols

/-- Number of degrees of freedom. -/
def dofs (e : Element α) : Nat := e.family.nodeCount * e.dofsPerNode

/-- The indices of the degrees of freedom of the element, in the order of its matrices. -/
def getDof (e : Element α) : List Int :=
  if e.dofsPerNode = 1 then e.nodeIds.map (· - 1)
  else (Dof.expand e.dofsPerNode e.nodeIds).map (· - 1)

/-- The local nodes of side `s`. -/
def sideNodes (e : Element α) (s : Int) : Except (Error α) (List Nat) :=
  match (position? e.family.sides.length s).bind (e.family.sides[·]?) with
  | some nodes => .ok nodes
  | none => .error .outOfRange

/-- The indices of the degrees of freedom of side `s` among those of the element. -/
def sideDof (e : Element α) (s : Int) : Except (Error α) (List Int) := do
  let nodes ← e.sideNodes s
  if e.dofsPerNode = 1 then pure (nodes.map fun k : Nat => (k : Int))
  else pure ((Dof.expand e.dofsPerNode (nodes.map fun k : Nat => (k : Int) + 1)).map (· - 1))

variable [Scalar α]

/-- An element, provided that the numbers of nodes and of degrees of freedom suit its family. -/
def make (id : Int) (family : Family) (nodes : DenseMatrix α) (nodeIds : List Int)
    (dofsPerNode : Nat) : Except (Error α) (Element α) :=
  if hn : nodes.rows = family.nodeCount then
    if hi : nodeIds.length = family.nodeCount then
      match family.fixedDofs with
      | some fixed =>
        if dofsPerNode = fixed then .ok ⟨id, family, nodes, nodeIds, dofsPerNode, none, hn, hi⟩
        else .error (.fixedDofs family fixed dofsPerNode)
      | none => .ok ⟨id, family, nodes, nodeIds, dofsPerNode, none, hn, hi⟩
    else .error (.dimension (.nodeIds family) family.nodeCount nodeIds.length)
  else .error (.dimension (.nodeList family) family.nodeCount nodes.rows)

/-- Whether `size` basis functions are to be spread over the degrees of freedom of a node. -/
def expands (e : Element α) (size : Nat) : Bool := 1 < e.dofsPerNode && size != e.dofs

/-- The matrix with `r` rows that applies the values `n` to each of `r` interleaved components. -/
def interleaved (r : Nat) (n : List α) : DenseMatrix α :=
  .ofFn r (r * n.length) fun i j => if j % r = i then n.getD (j / r) 0 else 0

/-- The shape matrix. -/
def shape (e : Element α) (ξ : List α) : Except (Error α) (DenseMatrix α) := do
  let n ← e.family.basis e.nodes ξ
  if e.expands n.length then pure (interleaved e.dofsPerNode n) else pure (.ofRows n.length [n])

/-- The derivatives that add up to each strain: pairs of a component and a coordinate. -/
def strains (dim : Nat) : List (List (Nat × Nat)) :=
  if dim = 2 then [[(0, 0)], [(1, 1)], [(0, 1), (1, 0)]]
  else [[(0, 0)], [(1, 1)], [(2, 2)], [(1, 2), (2, 1)], [(0, 2), (2, 0)], [(0, 1), (1, 0)]]

/-- The matrix of the strains from the derivatives `b` of the basis functions. -/
def strainMatrix (b : DenseMatrix α) : DenseMatrix α :=
  let r := if b.rows = 2 then 2 else 3
  let table := strains b.rows
  .ofFn table.length (r * b.cols) fun i j =>
    match (table.getD i []).lookup (j % r) with
    | some k => b.entry k (j / r)
    | none => 0

/-- The derivative matrix. -/
def shapeDerivative (e : Element α) (ξ : List α) : Except (Error α) (DenseMatrix α) := do
  let b ← e.family.gradient e.nodes ξ
  if !e.expands b.cols then pure b
  else if e.dofsPerNode = b.rows then pure (strainMatrix b)
  else .error (.noDerivative e.dofsPerNode b.rows)

def jacobian (e : Element α) (ξ : List α) : Except (Error α) (DenseMatrix α) :=
  e.family.jacobian e.nodes ξ

/-- The factor between reference and physical measure. -/
def measure (J : DenseMatrix α) : α :=
  if J.rows * J.cols = 0 then 1
  else if J.rows = J.cols then J.det
  else Scalar.sqrt (J.mul J.transpose).det

/-- The determinant of the Jacobian, which has to be positive. -/
def detJ (e : Element α) (ξ : List α) : Except (Error α) α := do
  let J ← e.jacobian ξ
  let d := measure J
  if Scalar.less 0 d then pure d else .error (.degenerate e.id d)

/-- The true coordinates of the nodes. -/
def trueNodes (e : Element α) : DenseMatrix α :=
  match e.side with
  | some s => s.nodes
  | none => e.nodes

/-- The physical coordinates of a reference point. -/
def position (e : Element α) (ξ : List α) : Except (Error α) (List α) := do
  let n ← e.family.geometryBasis e.nodes ξ
  pure (e.trueNodes.vecMul n)

/-- The values at a reference point of the field with the given degrees of freedom. -/
def evaluate (e : Element α) (u : Array α) (ξ : List α) : Except (Error α) (List α) := do
  let N ← e.shape ξ
  match e.getDof.mapM fun d => (position? u.size d).bind (u[·]?) with
  | none => .error .outOfRange
  | some values =>
    if N.cols = values.length then pure (N.mulVec values)
    else .error .shapeMismatch

end Element
end WeakForm

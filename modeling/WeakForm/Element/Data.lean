import WeakForm.Datum.Array
import WeakForm.Datum.Order
import WeakForm.Element.Batch
import WeakForm.Element.Side

/-!
# Elements from data

An element as it is given: its nodes may be arrays of any shape, its number of degrees of freedom
per node any datum, which is only looked at where it is needed, and it is evaluated at batches of
reference points. For an element in the strict sense these are the functions of that element.
-/

namespace WeakForm

/-- The true position of a side whose nodes, along the first axis, are arrays. -/
structure SideData (α : Type) where
  nodes : Tensor α
  parentCenter : Tensor α

/-- An element whose nodes, along the first axis, are arrays. -/
structure ElementData (α : Type) where
  id : Datum α
  family : Family
  nodes : Tensor α
  nodeIds : List Int
  dofsPerNode : Datum α
  side : Option (SideData α)

namespace ElementData

variable {α : Type}

def ofElement (e : Element α) : ElementData α :=
  ⟨e.id, e.family, .ofMatrix e.nodes, e.nodeIds, e.dofsPerNode,
    e.side.map fun g => ⟨.ofMatrix g.nodes, .ofArray g.parentCenter.toArray⟩⟩

/-- The length of the second axis of the nodes. -/
def dim (e : ElementData α) : Nat := e.nodes.shape.getD 1 0

variable [Scalar α]

/-- Number of degrees of freedom. -/
def dofs (e : ElementData α) : Except (Error α) (Datum α) :=
  Datum.mul e.family.nodeCount e.dofsPerNode

/-- Checks the number of degrees of freedom per node that some families fix. -/
def checkDofs (family : Family) (dofsPerNode : Datum α) : Except (Error α) Unit :=
  match family.fixedDofs with
  | some fixed =>
    if dofsPerNode.same fixed then .ok () else .error (.fixedDofs family fixed dofsPerNode)
  | none => .ok ()

/-- Nodes along the first axis; a single list of numbers is shared out among them. -/
def nodeRows (family : Family) (nodes : Tensor α) : Except (Error α) (Tensor α) :=
  match nodes.shape with
  | [n] => orShapeMismatch (nodes.reshape? [family.nodeCount, n / family.nodeCount])
  | _ => .ok nodes

/-- An element from data, provided that the numbers of nodes and of degrees of freedom suit its
family. -/
def make (id : Datum α) (family : String) (nodes nodeIds dofsPerNode : Datum α) :
    Except (Error α) (ElementData α) := do
  match Family.ofName? family with
  | none => .error (.unknownFamily family)
  | some f =>
    let coordinates ← nodes.toReals
    let rows ← nodeRows f coordinates
    let ids ← nodeIds.toIntegers
    match rows.shape with
    | [] => .error .outOfRange
    | n :: _ =>
      if n ≠ f.nodeCount then .error (.dimension (.nodeList f) f.nodeCount n)
      else if ids.length ≠ f.nodeCount then
        .error (.dimension (.nodeIds f) f.nodeCount ids.length)
      else do
        checkDofs f dofsPerNode
        pure ⟨id, f, rows, ids, dofsPerNode, none⟩

/-- The reference points of a datum; null has no coordinates. -/
def pointsOf : Datum α → Except (Error α) (Tensor α)
  | .null => .ok (.ofArray #[])
  | d => d.toReals.map fun t =>
    match t.shape with
    | [] => .ofArray t.data
    | _ => t

/-- Whether `size` values of basis functions are to be spread over the degrees of freedom of a
node. -/
def expands (e : ElementData α) (size : Nat) : Except (Error α) Bool :=
  match Datum.less? (.integer 1) e.dofsPerNode with
  | none => .error .wrongType
  | some false => .ok false
  | some true => e.dofs.map fun d => !d.same size

/-- The shape matrix. -/
def shape (e : ElementData α) (ξ : Tensor α) : Except (Error α) (Tensor α) := do
  let n ← e.family.basisOver e.nodes ξ
  let spread ← e.expands n.data.size
  if !spread then
    if Tensor.mostAxes ≤ n.shape.length then .error .outOfRange
    else orShapeMismatch (n.reshape? (1 :: n.shape))
  else
    match e.dofsPerNode with
    | .integer r => do
      checkCapacity 8 (r.toNat * (r.toNat * n.data.size))
      if n.shape.dropLast.all (· == 1) then
        pure (.ofMatrix (Element.interleaved r.toNat n.data.toList))
      else .error .shapeMismatch
    | _ => .error .wrongType

/-- The derivative matrix. -/
def shapeDerivative (e : ElementData α) (ξ : Tensor α) : Except (Error α) (Tensor α) := do
  let b ← e.family.gradientOver e.nodes ξ
  match b.shape with
  | dim :: count :: _ =>
    let spread ← e.expands count
    if !spread then pure b
    else if !e.dofsPerNode.same dim then .error (.noDerivative e.dofsPerNode dim)
    else orShapeMismatch (b.toMatrix?.map fun A => .ofMatrix (Element.strainMatrix A))
  | _ => .error .outOfRange

def jacobian (e : ElementData α) (ξ : Tensor α) : Except (Error α) (Tensor α) :=
  e.family.jacobianOver e.nodes ξ

/-- The factor between reference and physical measure, of which there has to be a single one. -/
def measure (J : Tensor α) : Except (Error α) α :=
  match J.shape with
  | m :: n :: _ => do
    if J.data.isEmpty then pure 1
    else
      let dets ←
        if m = n then J.det
        else do
          let G ← orShapeMismatch (J.mul? J.transpose)
          G.det
      match dets.shape, dets.item? with
      | [], some d => pure (if m = n then d else Scalar.sqrt d)
      | _, _ => .error .wrongType
  | _ => .error .outOfRange

/-- The determinant of the Jacobian, which has to be positive. -/
def detJ (e : ElementData α) (ξ : Tensor α) : Except (Error α) α := do
  let J ← e.jacobian ξ
  let d ← measure J.atLeast2
  if Scalar.less 0 d then pure d else .error (.degenerate e.id d)

/-- The true coordinates of the nodes. -/
def trueNodes (e : ElementData α) : Tensor α :=
  match e.side with
  | some s => s.nodes
  | none => e.nodes

/-- The physical coordinates of reference points. -/
def position (e : ElementData α) (ξ : Tensor α) : Except (Error α) (Tensor α) := do
  let n ← e.family.geometryBasisOver e.nodes ξ
  orShapeMismatch (n.mul? e.trueNodes)

/-- The slice of an array at a place of the first axis. -/
def slice (u : Tensor α) (k : Nat) : Tensor α := .ofFn (u.shape.drop 1) fun is => u.get (k :: is)

/-- The slices of an array at the given places of the first axis. -/
def slicesAt (u : Tensor α) (places : List Nat) : Tensor α :=
  .ofFn (places.length :: u.shape.drop 1) fun is =>
    u.get (places.getD (is.headD 0) 0 :: is.drop 1)

/-- The slices of an array at the given indices of the first axis. -/
def slices (u : Tensor α) (indices : List Int) : Except (Error α) (Tensor α) :=
  match u.shape with
  | [] => .error .outOfRange
  | n :: _ =>
    match indices.mapM (position? n) with
    | none => .error .outOfRange
    | some places => .ok (slicesAt u places)

/-- The outward unit normal of a side. -/
def normal (e : ElementData α) (ξ : Tensor α) : Except (Error α) (Tensor α) :=
  match e.side with
  | none => .error .volumeNormal
  | some g =>
    let dim := g.nodes.shape.getD 1 0
    if e.family.dim = 0 then do
      let n ← orShapeMismatch (Tensor.zipWith (· - ·) (slice g.nodes 0) g.parentCenter)
      let length := norm n.data.toList
      pure (n.map (· / length))
    else if e.family.dim = 1 ∧ dim = 2 then do
      let G ← e.family.localGradientOver ξ
      let t ← orShapeMismatch (G.mul? g.nodes)
      match t.data[0]?, t.data[1]? with
      | some x, some y =>
        let length := norm t.data.toList
        pure (.ofArray #[y / length, -x / length])
      | _, _ => .error .outOfRange
    else .error (.unsupportedNormal e.family.dim dim)

/-- The indices of the degrees of freedom of a list of nodes. -/
def dofsOf (e : ElementData α) (nodes : List Int) : Except (Error α) (List Int) := do
  let dofs ← if e.dofsPerNode.same (.integer 1) then pure nodes
    else Dof.transformBy nodes e.dofsPerNode
  pure (Dof.inWords α (dofs.map (· - 1)))

/-- The indices of the degrees of freedom, in the order of the matrices of the element. -/
def getDof (e : ElementData α) : Except (Error α) (List Int) := e.dofsOf e.nodeIds

/-- The local nodes of side `s`. -/
def sideNodes (e : ElementData α) (s : Int) : Except (Error α) (List Nat) :=
  match (position? e.family.sides.length s).bind (e.family.sides[·]?) with
  | some nodes => .ok nodes
  | none => .error .outOfRange

/-- The indices of the degrees of freedom of side `s` among those of the element. -/
def sideDof (e : ElementData α) (s : Int) : Except (Error α) (List Int) := do
  let nodes ← e.sideNodes s
  e.dofsOf (nodes.map fun k : Nat => (k : Int) + 1)

/-- The mean of the nodes. -/
def center (nodes : Tensor α) : Tensor α :=
  let n := nodes.shape.headD 0
  .ofFn (nodes.shape.drop 1) fun is => sumTo n (fun i => nodes.get (i :: is)) / (n : α)

/-- The distances along the second axis of points from the first of them; no distances for a single
point. -/
def arcLengths (family : Family) (points : Tensor α) : Tensor α :=
  match points.shape with
  | n :: dim :: rest =>
    if family.dim = 0 then .ofMatrix (.zero 1 0)
    else .ofFn (n :: 1 :: rest) fun is =>
      let entry := fun i j => points.get (i :: j :: is.drop 2)
      norm ((List.range dim).map fun j => entry (is.headD 0) j - entry 0 j)
  | _ => .ofMatrix (.zero 1 0)

/-- Side `s` as an element. -/
def buildSide (e : ElementData α) (s : Datum α) : Except (Error α) (ElementData α) :=
  match e.family.sideFamily with
  | none => .error (.noSides e.family)
  | some f => do
    let k ← s.toIndex
    let nodes ← e.sideNodes k
    let points := slicesAt e.nodes nodes
    pure
      { id := e.id
        family := f
        nodes := arcLengths f points
        nodeIds := nodes.map fun k => e.nodeIds.getD k 0
        dofsPerNode := e.dofsPerNode
        side := some ⟨points, center e.nodes⟩ }

/-- The values of the field with the given degrees of freedom, along the first axis of `u`. -/
def evaluate (e : ElementData α) (u ξ : Tensor α) : Except (Error α) (Tensor α) := do
  let N ← e.shape ξ
  let dofs ← e.getDof
  let values ← slices u dofs
  orShapeMismatch (N.mul? values)

end ElementData
end WeakForm

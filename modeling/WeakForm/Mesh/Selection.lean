import WeakForm.Datum.Order
import WeakForm.Linear.Sparse
import WeakForm.Mesh.Topology

/-!
# Selections

The cells, nodes and degrees of freedom of a tag, or of the whole mesh. Node numbers are given in
increasing order; masks have a place for every degree of freedom.
-/

namespace WeakForm

inductive DofMode where
  | essential
  | nonessential
  | all
  deriving DecidableEq, Repr

namespace DofMode

def ofName? : String → Option DofMode
  | "essential" => some essential
  | "nonessential" => some nonessential
  | "all" => some all
  | _ => none

end DofMode

namespace Mesh

variable {α : Type}

/-- The numbers of all cells, or of those of a tag. -/
def getElements (m : Mesh α) (tag : Option TagId) : Except (Error α) (List Nat) := do
  m.checkFrozen
  match tag with
  | none => pure ((List.range m.cells.length).map (· + 1))
  | some t =>
    let r ← m.region t
    match r.kind with
    | .subdomain => pure r.elements
    | .boundary => pure (r.sides.map Prod.fst).eraseDups

/-- The node numbers of a cell. -/
def cellNodeIds (m : Mesh α) (id : Nat) : List Int :=
  match m.cells[id - 1]? with
  | some c => c.element.nodeIds
  | none => []

/-- The node numbers of a side. -/
def sideNodeIds (m : Mesh α) (side : Nat × Nat) : List Int :=
  match m.cells[side.1 - 1]? with
  | some c => (c.sides[side.2]?.map c.sideNodeIds).getD []
  | none => []

/-- The node numbers of a region. -/
def regionNodeIds (m : Mesh α) (r : Region) : List Int :=
  sortedSet <|
    match r.kind with
    | .subdomain => r.elements.flatMap m.cellNodeIds
    | .boundary => r.sides.flatMap m.sideNodeIds

def allNodeIds (m : Mesh α) : List Int :=
  (List.range m.nodes.length).map fun k : Nat => (k : Int) + 1

/-- The numbers of all nodes, or of those of a tag. -/
def getNodeIds (m : Mesh α) (tag : Option TagId) : Except (Error α) (List Int) := do
  m.checkFrozen
  match tag with
  | none => pure m.allNodeIds
  | some t =>
    let r ← m.region t
    pure (m.regionNodeIds r)

/-- The coordinates of nodes that exist. -/
def nodeCoords [Zero α] (coords : DenseMatrix α) (ids : List Int) : DenseMatrix α :=
  coords.selectRows (ids.map fun k => (k - 1).toNat)

/-- The coordinates of all nodes, or of those of a tag. -/
def getNodes [Zero α] (m : Mesh α) (tag : Option TagId) : Except (Error α) (DenseMatrix α) := do
  match m.coords with
  | none => .error .absentCoordinates
  | some coords =>
    let ids ← m.getNodeIds tag
    pure (nodeCoords coords ids)

/-- The vector with a zero for every degree of freedom. -/
def zeroVector [Scalar α] (m : Mesh α) : Except (Error α) (Array α) :=
  (checkCapacity 8 m.dofs).map fun _ => Array.replicate m.dofs 0

/-- The square matrix over the degrees of freedom that stores nothing. -/
def zeroMatrix [Scalar α] (m : Mesh α) : Except (Error α) (SparseMatrix α) :=
  if !Scalar.isWord α m.dofs then .error .overflow
  else (checkCapacity 8 (m.dofs + 1)).map fun _ => .empty m.dofs m.dofs

/-- The indices of all degrees of freedom of a list of nodes. -/
def allDofs (m : Mesh α) (ids : List Int) : List Int :=
  ids.flatMap fun k => (List.range m.dofsPerNode).map fun i : Nat => (k - 1) * m.dofsPerNode + i

/-- The component with a given number, of which a fractional part is cut off. -/
def component [Scalar α] (m : Mesh α) (number : Datum α) : Except (Error α) Int :=
  match number.less? (.integer 0), number.less? (.integer m.dofsPerNode) with
  | some isBelow, some isBefore =>
    if !isBelow && isBefore then number.toInteger
    else .error (.componentRange number m.dofsPerNode)
  | _, _ => .error .wrongType

/-- Checks that node numbers may be multiplied by the degrees of freedom per node. -/
def checkFactor [Scalar α] (m : Mesh α) : Except (Error α) Unit :=
  if Scalar.isWord α m.dofsPerNode then .ok () else .error .overflow

/-- Checks that there may be a list of all degrees of freedom of some nodes. -/
def checkDofs [Scalar α] (m : Mesh α) (ids : List Int) : Except (Error α) Unit :=
  m.checkFactor.bind fun _ => checkCapacity 8 (max 1 ids.length * m.dofsPerNode)

/-- The number of a degree of freedom that is a fraction of one behind the first of a node, cut off
to a whole number. -/
def shiftedDof [Scalar α] (m : Mesh α) (x : α) (k : Int) : Except (Error α) Int :=
  let first : α := Scalar.word α ((k - 1) * m.dofsPerNode)
  match Scalar.truncate (first + x) with
  | some d => .ok d
  | none => .error .overflow

/-- The indices of the degrees of freedom of nodes: all of them, or those of one component. -/
def nodeDof [Scalar α] (m : Mesh α) (ids : List Int) (component : Datum α) :
    Except (Error α) (List Int) :=
  match component with
  | .null => (m.checkDofs ids).map fun _ => Dof.inWords α (m.allDofs ids)
  | number => do
    let c ← m.component number
    m.checkFactor
    match number with
    | .real x => ids.mapM (m.shiftedDof x)
    | _ => pure (Dof.inWords α (ids.map fun k => (k - 1) * m.dofsPerNode + c))

/-- The nodes of each essential region. One that was given no tag stands for the whole mesh. -/
def essentialNodes (m : Mesh α) : List (List Int) :=
  (m.regions.filter fun r => r.2.essential).map fun r =>
    if r.1 = .absent then m.allNodeIds else m.regionNodeIds r.2

/-- Marks the listed places. -/
def markPlaces (marks : Array Bool) (places : List Int) : Array Bool :=
  places.foldl (fun marks d => if 0 ≤ d then marks.setIfInBounds d.toNat true else marks) marks

/-- Whether a degree of freedom belongs to a component, if one is given. -/
def inComponent [Scalar α] (m : Mesh α) (component : Datum α) (d : Nat) : Bool :=
  match component with
  | .null => true
  | number => Datum.same (.integer ((d % m.dofsPerNode : Nat) : Int)) number

/-- Marks the degrees of freedom of a tag, the essential ones or all of them, perhaps of one
component only. The mode `nonessential` marks the others. -/
def getDof [Scalar α] (m : Mesh α) (tag : Option TagId) (mode : String) (component : Datum α) :
    Except (Error α) (List Bool) := do
  m.checkFrozen
  match DofMode.ofName? mode with
  | none => .error (.unknownMode mode)
  | some mode =>
    checkCapacity 1 m.dofs
    let nodes ← match tag, mode with
      | some t, _ => (m.getNodeIds (some t)).map fun ids => [ids]
      | none, .all => pure []
      | none, _ => pure m.essentialNodes
    nodes.forM m.checkDofs
    match component with
    | .null => pure ()
    | number => (m.component number).map fun _ => ()
    let isWhole := tag.isNone && mode == .all
    let marks := (markPlaces (Array.replicate m.dofs isWhole) (nodes.flatMap m.allDofs)).toList
    pure <| marks.zipIdx.map fun b =>
      (b.1 && m.inComponent component b.2) != (mode == .nonessential)

end Mesh
end WeakForm

import WeakForm.Element
import WeakForm.Error
import WeakForm.Mesh.Predicate
import WeakForm.Mesh.TagId
import WeakForm.Text.Lowercase

/-!
# Meshes

Nodes and elements are added to a mesh one by one and are numbered from one in this order. An
element may name nodes that are added later. Once frozen, the mesh takes no more of them.
-/

/-!
## Field spaces

A scalar space has one degree of freedom per node, a vector space one per dimension; any positive
number may be given instead of a name.
-/

namespace WeakForm
namespace Space

/-- Degrees of freedom per node of a space on a mesh of the given dimension, which may be any datum
if only it is the answer for vectors. -/
def dofsPerNode {α β : Type} [NatCast β] (space : Datum α) (dim : β) : Except (Error α) β :=
  match space with
  | .integer n => if n < 1 then .error (.nonPositiveDofs n) else .ok n.toNat
  | .text s =>
    if Text.lowercase s == "scalar" then .ok (1 : Nat)
    else if Text.lowercase s == "vector" then .ok dim
    else .error (.unknownSpace space)
  | _ => .error (.unknownSpace space)

end Space
end WeakForm

/-!
## Cells

A cell is an element of a mesh with what the mesh knows about its sides: whether they are exterior,
on which face of the bounding box they lie, which cell is on the other side, and their tags.
-/

namespace WeakForm

structure CellSide where
  /-- Local nodes, counted from zero. -/
  nodes : List Nat
  onBoundary : Bool
  location : Option Location
  /-- Number of the cell that shares the side, and its side. -/
  neighbor : Option (Nat × Nat)
  boundaryIds : List TagId

structure Cell (α : Type) where
  element : Element α
  sides : List CellSide
  boundaryIds : List TagId
  subdomainIds : List TagId

/-- Adds a member to a list without repetitions. -/
def adjoin {β : Type} [BEq β] (b : β) (members : List β) : List β :=
  if members.contains b then members else members ++ [b]

namespace Cell

variable {α : Type}

/-- A cell about whose sides nothing is known. -/
def ofElement (e : Element α) : Cell α :=
  ⟨e, e.family.sides.map fun nodes => ⟨nodes, false, none, none, []⟩, [], []⟩

def onBoundary (c : Cell α) : Bool := c.sides.any CellSide.onBoundary

/-- The numbers of the nodes of a side. -/
def sideNodeIds (c : Cell α) (side : CellSide) : List Int :=
  side.nodes.map fun k => c.element.nodeIds.getD k 0

/-- The coordinates of the nodes of a side. -/
def sidePoints [Zero α] (c : Cell α) (side : CellSide) : List (List α) :=
  side.nodes.map c.element.nodes.row

end Cell
end WeakForm

/-!
## Nodes, elements and tags
-/

namespace WeakForm

/-- A tagged region: sides of a boundary, given by cell and side, or cells of a subdomain. -/
structure Region where
  /-- The tag as it was first written. -/
  tag : TagId
  kind : RegionKind
  essential : Bool
  sides : List (Nat × Nat)
  elements : List Nat

structure Mesh (α : Type) where
  space : Datum α
  nodes : List (List α)
  connectivity : List (Family × List Int)
  frozen : Bool
  dim : Nat
  dofsPerNode : Nat
  dofs : Nat
  /-- A row of coordinates per node, once an attempt to freeze the mesh got that far. -/
  coords : Option (DenseMatrix α)
  cells : List (Cell α)
  regions : List (TagKey × Region)

namespace Mesh

variable {α : Type}

/-- A mesh without nodes. -/
def empty (space : Datum α) : Mesh α := ⟨space, [], [], false, 0, 0, 0, none, [], []⟩

def checkOpen (m : Mesh α) : Except (Error α) Unit :=
  if m.frozen then .error .frozenMesh else .ok ()

def checkFrozen (m : Mesh α) : Except (Error α) Unit :=
  if m.frozen then .ok () else .error .openMesh

/-- Adds a node; its number is the number of nodes afterwards. -/
def addNode (m : Mesh α) (coord : List α) : Except (Error α) (Mesh α) :=
  if m.frozen then .error .frozenMesh
  else if 1 ≤ coord.length ∧ coord.length ≤ 3 then .ok { m with nodes := m.nodes ++ [coord] }
  else .error (.nodeComponents coord.length)

/-- Adds an element; its number is the number of elements afterwards. -/
def addElement (m : Mesh α) (family : Family) (nodeIds : List Int) : Except (Error α) (Mesh α) :=
  if m.frozen then .error .frozenMesh
  else if nodeIds.length = family.nodeCount then
    .ok { m with connectivity := m.connectivity ++ [(family, nodeIds)] }
  else .error (.dimension (.nodeIds family) family.nodeCount nodeIds.length)

/-- Adds a node from data. -/
def addNodeData [Scalar α] (m : Mesh α) (coord : Datum α) : Except (Error α) (Mesh α) := do
  m.checkOpen
  let c ← coord.toReals
  m.addNode c.data.toList

/-- Adds an element from data. -/
def addElementData [Scalar α] (m : Mesh α) (family : String) (nodeIds : Datum α) :
    Except (Error α) (Mesh α) := do
  m.checkOpen
  match Family.ofName? family with
  | none => .error (.unknownFamily family)
  | some f =>
    let ids ← nodeIds.toIntegers
    m.addElement f ids

def elementCount (m : Mesh α) : Nat :=
  if m.frozen then m.cells.length else m.connectivity.length

/-- The cell with a given number; numbers from zero downwards count from the last cell. -/
def cell (m : Mesh α) (id : Int) : Except (Error α) (Cell α) :=
  match (position? m.cells.length (id - 1)).bind (m.cells[·]?) with
  | some c => .ok c
  | none => .error .outOfRange

/-- The region of a tag. -/
def region (m : Mesh α) (tag : TagId) : Except (Error α) Region :=
  if tag.key = .unusable then .error .wrongType
  else
    match m.regions.lookup tag.key with
    | some r => .ok r
    | none => .error (.noTag tag)

/-- The region of a tag that has to be a boundary. -/
def boundary (m : Mesh α) (tag : TagId) : Except (Error α) Region :=
  if tag.key = .unusable then .error .wrongType
  else
    match (m.regions.lookup tag.key).filter fun r => r.kind == .boundary with
    | some r => .ok r
    | none => .error (.noBoundary tag)

end Mesh
end WeakForm

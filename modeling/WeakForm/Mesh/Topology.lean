import WeakForm.Mesh.Basic

/-!
# Topology

Freezing a mesh numbers the degrees of freedom, builds the cells and connects their sides. A
side is identified by the set of its node numbers: a side that occurs once is exterior, and if it
occurs twice, the two cells are neighbours. Exterior sides on the bounding box of a mesh of one or
two dimensions are told apart by the face on which all their nodes lie.
-/

namespace WeakForm

/-- The members of a list of numbers in increasing order. -/
def sortedSet (ids : List Int) : List Int := ids.eraseDups.mergeSort fun a b => decide (a ≤ b)

namespace Mesh

variable {α : Type}

/-- A side of a mesh: number of the cell and of the side. -/
abbrev SideRef := Nat × Nat

/-- The sides of all cells with the sets of their nodes. -/
def sideKeys (cells : List (Cell α)) : List (SideRef × List Int) :=
  cells.zipIdx.flatMap fun c =>
    c.1.sides.zipIdx.map fun s => ((c.2 + 1, s.2), sortedSet (c.1.sideNodeIds s.1))

/-- The least node number of a side. -/
def leastNode (nodes : List Int) : Nat := (nodes.headD 0).toNat

/-- Sides in lists by their least node number. -/
def sidesByNode (sides : List (SideRef × List Int)) : Array (List (SideRef × List Int)) :=
  let count := (sides.map fun s => leastNode s.2 + 1).foldl max 0
  sides.foldr (fun s lists => lists.modify (leastNode s.2) (s :: ·)) (Array.replicate count [])

/-- The sides with the given nodes. -/
def sidesOn (lists : Array (List (SideRef × List Int))) (nodes : List Int) : List SideRef :=
  ((lists.getD (leastNode nodes) []).filter fun s => s.2 == nodes).map Prod.fst

/-- What the group of a side says about it. -/
def connectSide (group : List SideRef) (self : SideRef) (side : CellSide) : CellSide :=
  match group with
  | [_] => { side with onBoundary := true }
  | [a, b] => { side with neighbor := some (if a = self then b else a) }
  | _ => side

/-- Finds the exterior sides and the neighbours. -/
def connectSides (cells : List (Cell α)) : List (Cell α) :=
  let lists := sidesByNode (sideKeys cells)
  cells.zipIdx.map fun c =>
    { c.1 with
      sides := c.1.sides.zipIdx.map fun s =>
        connectSide (sidesOn lists (sortedSet (c.1.sideNodeIds s.1))) (c.2 + 1, s.2) s.1 }

variable [Scalar α]

/-- The smallest and the largest entry of a column. -/
def columnRange (A : DenseMatrix α) (j : Nat) : α × α :=
  match A.column j with
  | [] => (0, 0)
  | x :: xs => (xs.foldl Scalar.min x, xs.foldl Scalar.max x)

/-- How far from the bounding box a node may lie and still count as lying on it. -/
def boxTolerance (coords : DenseMatrix α) : α :=
  let extents := (List.range coords.cols).map fun j =>
    (columnRange coords j).2 - (columnRange coords j).1
  let extent := (extents.drop 1).foldl Scalar.max (extents.headD 0)
  1e-10 * (if Scalar.less 1 extent then extent else 1)

/-- The faces of the bounding box: axis, coordinate and name. -/
def boxFaces (coords : DenseMatrix α) : List (Nat × α × Location) :=
  let x := columnRange coords 0
  let y := columnRange coords 1
  [(0, x.1, .left), (0, x.2, .right)] ++
    if coords.cols = 2 then [(1, y.1, .bottom), (1, y.2, .top)] else []

/-- The first face on which all points lie. -/
def locate (faces : List (Nat × α × Location)) (tolerance : α) (points : List (List α)) :
    Option Location :=
  (faces.find? fun face =>
    points.all fun p => Scalar.atMost (Scalar.abs (p.getD face.1 0 - face.2.1)) tolerance).map
      fun face => face.2.2

/-- Finds the faces on which the exterior sides lie. -/
def classifySides (coords : DenseMatrix α) (cells : List (Cell α)) : List (Cell α) :=
  if 2 < coords.cols then cells
  else
    let faces := boxFaces coords
    let tolerance := boxTolerance coords
    cells.map fun c =>
      { c with
        sides := c.sides.map fun s =>
          if s.onBoundary then { s with location := locate faces tolerance (c.sidePoints s) }
          else s }

/-- The number of coordinates of the node that has most of them. -/
def nodeDim (nodes : List (List α)) : Nat := (nodes.map List.length).foldl max 0

/-- The coordinates of all nodes, filled up with zeros. -/
def coordinateMatrix (nodes : List (List α)) : DenseMatrix α := .ofRows (nodeDim nodes) nodes

/-- Element number `id`, over nodes that have to exist. -/
def buildElement (coords : DenseMatrix α) (dofsPerNode id : Nat) (family : Family)
    (nodeIds : List Int) : Except (Error α) (Element α) :=
  match nodeIds.filter fun k => k < 1 || (coords.rows : Int) < k with
  | [] =>
    Element.make id family (coords.selectRows (nodeIds.map fun k => (k - 1).toNat)) nodeIds
      dofsPerNode
  | unknown => .error (.unregisteredNodes id unknown)

def buildElements (coords : DenseMatrix α) (dofsPerNode : Nat)
    (connectivity : List (Family × List Int)) : Except (Error α) (List (Element α)) :=
  connectivity.zipIdx.mapM fun c => buildElement coords dofsPerNode (c.2 + 1) c.1.1 c.1.2

/-- Freezes the mesh. A failed attempt leaves the dimension, the coordinates and the degrees of
freedom per node as far as it has found them. -/
def freeze (m : Mesh α) : Except (Error α) Unit × Mesh α :=
  if m.frozen then (.error .frozenMesh, m)
  else if m.nodes.isEmpty || m.connectivity.isEmpty then (.error .emptyMesh, m)
  else
    let coords := coordinateMatrix m.nodes
    let placed := { m with dim := nodeDim m.nodes, coords := some coords }
    match Space.dofsPerNode m.space placed.dim with
    | .error e => (.error e, placed)
    | .ok n =>
      let numbered := { placed with dofsPerNode := n }
      match buildElements coords n m.connectivity with
      | .error e => (.error e, numbered)
      | .ok elements =>
        let cells := classifySides coords (connectSides (elements.map Cell.ofElement))
        (.ok (), { numbered with cells, dofs := m.nodes.length * n, frozen := true })

end Mesh
end WeakForm

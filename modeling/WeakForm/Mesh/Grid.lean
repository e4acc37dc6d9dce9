import WeakForm.Capacity
import WeakForm.Datum.Order
import WeakForm.Mesh.Basic

/-!
# Grids

Structured meshes of rectangles and intervals. Nodes are numbered with the first coordinate running
fastest, cells are listed row by row, and the nodes of a cell run counter clockwise. Triangles come
from cutting each cell of the rectangle along its rising diagonal. The ends of an interval may also
be points with several coordinates, which are then those of the nodes.
-/

namespace WeakForm
namespace Grid

variable {α : Type}

section Points

variable [Scalar α]

/-- The distance of neighbours among `n + 1` equidistant points from `lo` to `hi`. -/
def spacing (lo hi : α) (n : Nat) : α := (hi - lo) / (n : α)

/-- Whether the distance of neighbours vanishes, if only by rounding. -/
def vanishes (lo hi : α) (n : Nat) : Bool := Scalar.same (spacing lo hi n) 0

/-- Number `i` of `n + 1` equidistant points from `lo` to `hi`: so many steps from `lo`, or
`byShare` so many parts of the whole distance. -/
def point (byShare : Bool) (lo hi : α) (n i : Nat) : α :=
  if i = n then hi
  else if byShare then lo + (i : α) / (n : α) * (hi - lo)
  else lo + (i : α) * spacing lo hi n

/-- The points that cut an interval into `n` parts. Steps that vanish are not taken. -/
def points (lo hi : α) (n : Nat) : List α :=
  (List.range (n + 1)).map (point (vanishes lo hi n) lo hi n)

/-- The points that cut the segment between two points, given by pairs of coordinates, into `n`
parts. When a step vanishes in one direction, none is taken in any. -/
def segmentPoints (ends : List (α × α)) (n : Nat) : List (List α) :=
  let byShare := ends.any fun p => vanishes p.1 p.2 n
  (List.range (n + 1)).map fun i => ends.map fun p => point byShare p.1 p.2 n i

end Points

/-- The nodes of a lattice, the first coordinate running fastest. -/
def lattice (xs ys : List α) : List (List α) := ys.flatMap fun y => xs.map fun x => [x, y]

/-- The number of a lattice node in row `r` and column `c` of a lattice with `w` columns. -/
def nodeId (w r c : Nat) : Int := ((r * w + c + 1 : Nat) : Int)

/-- The quadrilateral in row `j` and column `i`. -/
def quad4Cells (nx j i : Nat) : List (Family × List Int) :=
  let id := nodeId (nx + 1)
  [(.quad4, [id j i, id j (i + 1), id (j + 1) (i + 1), id (j + 1) i])]

/-- The two triangles in row `j` and column `i`. -/
def tri3Cells (nx j i : Nat) : List (Family × List Int) :=
  let id := nodeId (nx + 1)
  [(.tri3, [id j i, id j (i + 1), id (j + 1) (i + 1)]),
    (.tri3, [id j i, id (j + 1) (i + 1), id (j + 1) i])]

/-- The two triangles with mid-side nodes in row `j` and column `i`. -/
def tri6Cells (nx j i : Nat) : List (Family × List Int) :=
  let id := nodeId (2 * nx + 1)
  let r := 2 * j
  let c := 2 * i
  [(.tri6, [id r c, id r (c + 2), id (r + 2) (c + 2), id r (c + 1), id (r + 1) (c + 2),
      id (r + 1) (c + 1)]),
    (.tri6, [id r c, id (r + 2) (c + 2), id (r + 2) c, id (r + 1) (c + 1), id (r + 2) (c + 1),
      id (r + 1) c])]

/-- The cells of all rows. -/
def cells (nx ny : Nat) (cell : (j i : Nat) → List (Family × List Int)) :
    List (Family × List Int) :=
  (List.range ny).flatMap fun j => (List.range nx).flatMap fun i => cell j i

variable [Scalar α]

/-- The mesh of a rectangle cut into `nx` by `ny` cells; none for other families than the three
that fill a plane. -/
def rectangle? (space : Datum α) (xlo xhi ylo yhi : α) (nx ny : Nat) (family : Family) :
    Option (Mesh α) :=
  let lattice := fun k => lattice (points xlo xhi (k * nx)) (points ylo yhi (k * ny))
  let mesh := fun nodes connectivity =>
    some { Mesh.empty space with nodes := nodes, connectivity := connectivity }
  match family with
  | .quad4 => mesh (lattice 1) (cells nx ny (quad4Cells nx))
  | .tri3 => mesh (lattice 1) (cells nx ny (tri3Cells nx))
  | .tri6 => mesh (lattice 2) (cells nx ny (tri6Cells nx))
  | _ => none

/-- The mesh of a line cut into `n` cells, where `nodes` gives the nodes for a number of parts; none
for other families than segments. -/
def line? (space : Datum α) (nodes : Nat → List (List α)) (n : Nat) (family : Family) :
    Option (Mesh α) :=
  let two := (List.range n).map fun i : Nat => (family, [(i : Int) + 1, (i : Int) + 2])
  let three := (List.range n).map fun i : Nat =>
    (family, [2 * (i : Int) + 1, 2 * (i : Int) + 3, 2 * (i : Int) + 2])
  match family with
  | .line2 | .beam2 => some { Mesh.empty space with nodes := nodes n, connectivity := two }
  | .line3 => some { Mesh.empty space with nodes := nodes (2 * n), connectivity := three }
  | _ => none

/-- Checks that an interval is not empty and is cut into at least one part. -/
def checkExtent (axis : String) (lo hi count : Datum α) : Except (Error α) Unit :=
  match lo.less? hi with
  | none => .error .wrongType
  | some false => .error (.emptyRange axis lo hi)
  | some true =>
    match count.less? (.integer 1) with
    | none => .error .wrongType
    | some true => .error (.noCells axis count)
    | some false => .ok ()

/-- The coordinate that a leaf holds; whole numbers must fit into a word. -/
def coordinate : Datum α → Except (Error α) α
  | .flag b => .ok (if b then 1 else 0)
  | .integer n =>
    if Scalar.isWord α n || Scalar.isNaturalWord α n then .ok (n : α) else .error .wrongType
  | .real x => .ok x
  | _ => .error .wrongType

/-- The coordinates of both ends of an interval. -/
def ends (lo hi : Datum α) : Except (Error α) (List (α × α)) := do
  let a ← lo.entries coordinate
  let b ← hi.entries coordinate
  match Tensor.zipWith Prod.mk a b with
  | some pairs => pure pairs.data.toList
  | none => .error .shapeMismatch

/-- A number of parts, which has to be whole. -/
def partCount (count : Datum α) : Except (Error α) Nat :=
  match count.integer? with
  | some n => .ok n.toNat
  | none => .error .wrongType

/-- The number of parts between nodes of an element cut from a cell along one axis. -/
def partsPerCell (f : Family) : Nat := if [Family.line3, .tri6].contains f then 2 else 1

def family (name : String) : Except (Error α) Family :=
  match Family.ofName? name with
  | some f => .ok f
  | none => .error (.unknownFamily name)

/-- The mesh of a rectangle from data. The ends on both axes are read before either is found to have
several coordinates, which an axis cannot have. -/
def rectangleOfData (space xlo xhi ylo yhi nx ny : Datum α) (name : String) :
    Except (Error α) (Mesh α) := do
  checkExtent "x" xlo xhi nx
  checkExtent "y" ylo yhi ny
  let f ← family name
  if [Family.quad4, .tri3, .tri6].contains f then
    let m ← partCount nx
    let xs ← ends xlo xhi
    let columns := partsPerCell f * m + 1
    checkCapacity 8 (columns * max 1 xs.length)
    let n ← partCount ny
    let ys ← ends ylo yhi
    let rows := partsPerCell f * n + 1
    checkCapacity 8 (rows * max 1 ys.length)
    checkCapacity 8 (columns * xs.length * (rows * ys.length))
    match xs, ys with
    | [x], [y] =>
      match rectangle? space x.1 x.2 y.1 y.2 m n f with
      | some mesh => pure mesh
      | none => .error (.gridFamily f)
    | _, _ => .error .shapeMismatch
  else .error (.gridFamily f)

/-- The mesh of an interval from data. Without a space it is scalar, or that of a beam. -/
def intervalOfData (space lo hi count : Datum α) (name : String) : Except (Error α) (Mesh α) := do
  checkExtent "x" lo hi count
  let f ← family name
  if [Family.line2, .line3, .beam2].contains f then
    let n ← partCount count
    let pairs ← ends lo hi
    checkCapacity 8 ((partsPerCell f * n + 1) * max 1 pairs.length)
    if pairs.isEmpty ∨ 3 < pairs.length then .error (.nodeComponents pairs.length)
    else
      let space := match space, f.fixedDofs with
        | .null, some d => .integer d
        | .null, none => .text "scalar"
        | s, _ => s
      match line? space (segmentPoints pairs) n f with
      | some mesh => pure mesh
      | none => .error (.lineFamily f)
  else .error (.lineFamily f)

end Grid
end WeakForm

import WeakForm.Datum.Array
import WeakForm.Mesh.Selection

/-!
# Drawings

A mesh of the plane is drawn as triangles over all nodes: quadrilaterals are cut in two, triangles
with mid-side nodes in four. A field is drawn by the values of one component at the nodes, along a
line or over the triangles.
-/

namespace WeakForm

/-- The local nodes of the triangles that draw a cell. -/
def Family.triangles : Family → Option (List (Nat × Nat × Nat))
  | .tri3 => some [(0, 1, 2)]
  | .quad4 => some [(0, 1, 2), (0, 2, 3)]
  | .tri6 => some [(0, 3, 5), (3, 1, 4), (5, 4, 2), (3, 4, 5)]
  | _ => none

/-- Points of the plane and triangles over them, counted from zero. -/
structure Triangulation (α : Type) where
  x : List α
  y : List α
  triangles : List (List Int)

/-- What is drawn of a field. -/
inductive Drawing (α : Type) where
  | curve (points : List (α × α))
  | surface (triangulation : Triangulation α) (values : List α)

namespace Mesh

variable {α : Type}

/-- The triangles of one cell over node indices. -/
def cellTriangles (c : Cell α) : Except (Error α) (List (List Int)) :=
  match c.element.family.triangles with
  | none => .error (.untriangulated c.element.family)
  | some ts =>
    let node := fun k => c.element.nodeIds.getD k 0 - 1
    .ok (ts.map fun t => [node t.1, node t.2.1, node t.2.2])

def triangulation [Zero α] (m : Mesh α) : Except (Error α) (Triangulation α) := do
  let triangles ← m.cells.mapM cellTriangles
  match m.coords with
  | none => .error .absentCoordinates
  | some coords =>
    if coords.cols < 2 then .error .outOfRange
    else if triangles.isEmpty then .error .shapeMismatch
    else pure ⟨coords.column 0, coords.column 1, triangles.flatten⟩

variable [Scalar α]

/-- Points in the order of their first coordinate; undefined ones come last. -/
def inOrder (points : List (α × α)) : List (α × α) :=
  points.mergeSort fun p q => Scalar.atMost p.1 q.1 || !Scalar.same q.1 q.1

/-- The places that a component selects in a list of values, arranged along a number of axes. -/
structure Choice where
  places : List Nat
  axes : Nat
  deriving DecidableEq, Repr

/-- What a datum selects among `n` values: one of them by its index, several by a nested list of
indices or by a flag for each, all of them by null or a flag, and none by a false one. -/
def choice (n : Nat) (component : Datum α) : Except (Error α) Choice :=
  let index : Datum α → Except (Error α) Nat := fun d =>
    match d.integer?.bind (position? n) with
    | some k => .ok k
    | none => .error .outOfRange
  match component with
  | .null => .ok ⟨List.range n, 2⟩
  | .flag b => .ok ⟨if b then List.range n else [], 2⟩
  | .integer i => (index (.integer i)).map fun k => ⟨[k], 0⟩
  | .list xs => do
    let t ← (Datum.list xs).entries .ok
    let items := t.data.toList
    if Tensor.mostAxes ≤ t.shape.length then .error .outOfRange
    else if !items.isEmpty && items.all Datum.isFlag then
      if t.shape = [n] then
        pure ⟨(items.zipIdx.filter fun d => d.1.isTrue).map Prod.snd, 1⟩
      else .error .outOfRange
    else (items.mapM index).map fun places => ⟨places, t.shape.length⟩
  | _ => .error .outOfRange

/-- The only value of a node on a surface. -/
def surfaceValue (values : List α) : Except (Error α) α :=
  match values with
  | [v] => .ok (if Scalar.isFinite v then v else Scalar.undefined)
  | [] => .error .shapeMismatch
  | _ => .error .wrongType

/-- The drawing of one component of a field. Along a line the first of several values of a node is
drawn; a surface has no value where the field is not finite. -/
def draw (m : Mesh α) (u : List α) (component : Datum α) : Except (Error α) (Drawing α) := do
  if u.length ≠ m.dofs then .error (.dimension .solution m.dofs u.length)
  else if u.length ≠ m.nodes.length * m.dofsPerNode then .error .shapeMismatch
  else
    let chosen ← choice m.dofsPerNode component
    let field := u.toArray
    let values := (List.range m.nodes.length).map fun k =>
      chosen.places.map fun c => field.getD (k * m.dofsPerNode + c) 0
    if m.dim = 1 then
      if 1 < chosen.axes then .error .shapeMismatch
      else if chosen.places.isEmpty then .error .outOfRange
      else
        let xs := match m.coords with
          | some coords => coords.column 0
          | none => []
        pure (.curve (inOrder (xs.zip (values.map fun v => v.headD 0))))
    else if m.dim = 2 then
      let t ← m.triangulation
      (values.mapM surfaceValue).map fun shown => .surface t shown
    else .error .unplotted

end Mesh
end WeakForm

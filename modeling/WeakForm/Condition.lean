import WeakForm.Field
import WeakForm.Mesh.Selection

/-!
# Boundary conditions

A condition prescribes values on the nodes of a tag, for all components or for one of them. The
value is a number for all nodes, a number per component, or a field of the coordinates and, where
there is a time, of the time. Essential degrees of freedom without a condition are zero, and of
several conditions on one degree of freedom the last one counts.
-/

namespace WeakForm

inductive BoundaryValue (α : Type) where
  | data (value : Datum α)
  | field (value : Field α)

structure Condition (α : Type) where
  tag : Option TagId
  value : BoundaryValue α
  component : Datum α

namespace Condition

variable {α : Type} [Scalar α]

/-- The component that a condition prescribes, or none when it prescribes all of them. -/
def component? (m : Mesh α) (component : Datum α) : Except (Error α) (Option Int) :=
  match component with
  | .null => (checkCapacity 8 m.dofsPerNode).map fun _ => none
  | number => do
    let c ← m.component number
    m.checkFactor
    pure (some c)

/-- A single component, or all of `n` components. -/
def components (n : Nat) : Option Int → List Int
  | some c => [c]
  | none => (List.range n).map fun c : Nat => (c : Int)

/-- A list with one value per node as a column. -/
def asColumn (n : Nat) (v : Tensor α) : Tensor α :=
  if v.shape = [n] then (v.reshape? [n, 1]).getD v else v

/-- The prescribed values before they are spread over nodes and components. -/
def rawValues (value : BoundaryValue α) (coords : DenseMatrix α) (componentCount : Nat)
    (time : Option (Datum α)) : Except (Error α) (Tensor α) :=
  match value with
  | .field f => (f.eval (.ofRows coords time)).map (asColumn coords.rows)
  | .data d => do
    let v ← d.toReals
    if v.shape.length = 1 ∧ v.data.size ≠ componentCount then
      .error (.dimension .boundaryValue componentCount v.data.size)
    else pure v

/-- The prescribed values of every node and component. -/
def nodeValues (value : BoundaryValue α) (coords : DenseMatrix α) (componentCount : Nat)
    (time : Option (Datum α)) : Except (Error α) (Tensor α) := do
  let v ← rawValues value coords componentCount time
  match v.broadcastTo? [coords.rows, componentCount] with
  | some t => pure t
  | none => .error (.dimension .boundaryArray (coords.rows * componentCount) v.data.size)

/-- Degrees of freedom with their prescribed values, node by node. -/
def essentialValues (m : Mesh α) (c : Condition α) (time : Option (Datum α)) :
    Except (Error α) (List Int × List α) := do
  let ids ← m.getNodeIds c.tag
  let chosen ← component? m c.component
  match m.coords with
  | none => .error .absentCoordinates
  | some coords =>
    let count := if chosen.isSome then 1 else m.dofsPerNode
    let values ← nodeValues c.value (Mesh.nodeCoords coords ids) count time
    let comps := components m.dofsPerNode chosen
    pure (ids.flatMap fun k => comps.map fun i => (k - 1) * m.dofsPerNode + i, values.data.toList)

/-- Values of all degrees of freedom with marks on the prescribed ones. -/
structure Prescribed (α : Type) where
  values : Array α
  marks : List Bool

/-- Prescribes values at the given indices. -/
def overwrite (p : Prescribed α) (dofs : List Int) (values : List α) : Prescribed α :=
  ⟨(dofs.zip values).foldl (fun u dv => u.setIfInBounds dv.1.toNat dv.2) p.values,
    (Mesh.markPlaces p.marks.toArray dofs).toList⟩

/-- Sets the marked values to zero. -/
def clear (u : Array α) (marks : List Bool) : Array α :=
  let marked := marks.toArray
  Array.ofFn fun i : Fin u.size => if marked.getD i false then 0 else u[i]

/-- Prescribes the values of one condition. Its component has to be a whole number. -/
def applyOne (m : Mesh α) (time : Option (Datum α)) (p : Prescribed α) (c : Condition α) :
    Except (Error α) (Prescribed α) := do
  let (dofs, values) ← c.essentialValues m time
  match c.component with
  | .real _ => .error .outOfRange
  | _ => pure (overwrite p dofs values)

/-- Overwrites the essential values of a vector: zero, or what the conditions prescribe. -/
def applyAll (m : Mesh α) (u : Array α) (conditions : List (Condition α))
    (time : Option (Datum α)) : Except (Error α) (Prescribed α) := do
  m.checkFrozen
  checkCapacity 1 m.dofs
  m.essentialNodes.forM m.checkDofs
  if u.size ≠ m.dofs then .error .outOfRange
  else do
    let marks ← m.getDof none "essential" .null
    conditions.foldlM (applyOne m time) ⟨clear u marks, marks⟩

end Condition
end WeakForm

import WeakForm.Field
import WeakForm.Integration
import WeakForm.Mesh.Basic

/-!
# Error norms

How far a discrete field is from an exact one: the square root of the integral of the squared
difference, and for scalar fields the largest difference at a node.
-/

namespace WeakForm
namespace ErrorNorm

variable {α : Type} [Scalar α]

def checkLength (m : Mesh α) (u : Array α) : Except (Error α) Unit :=
  if u.size = m.dofs then .ok () else .error (.dimension .solution m.dofs u.size)

def squaredSum (values : Array α) : α := values.foldl (fun s x => s + x * x) 0

/-- The squared difference at a quadrature point, times its weight. -/
def term (e : Element α) (u : Array α) (exact : Field α) (q : QuadraturePoint α) :
    Except (Error α) α := do
  let values ← e.evaluate u q.position
  let point ← e.position q.position
  let expected ← exact.eval (.ofPoint point)
  let difference ←
    orShapeMismatch (Tensor.zipWith (· - ·) (Tensor.ofArray values.toArray) expected)
  let d ← e.detJ q.position
  pure (q.weight * d * squaredSum difference.data)

/-- Adds the terms of an element to a sum. -/
def addElement (u : Array α) (exact : Field α) (total : α) (e : Element α) :
    Except (Error α) α :=
  match Kernel.rule e with
  | none => .error .missingRule
  | some points => points.foldlM (fun s q => (term e u exact q).map (s + ·)) total

/-- The root of the integral of the squared difference. -/
def l2 (m : Mesh α) (u : Array α) (exact : Field α) : Except (Error α) α := do
  checkLength m u
  let total ← (m.cells.map Cell.element).foldlM (addElement u exact) 0
  pure (Scalar.sqrt total)

/-- The largest difference at a node. -/
def max (m : Mesh α) (u : Array α) (exact : Field α) : Except (Error α) α := do
  checkLength m u
  if m.dofsPerNode ≠ 1 then .error .scalarOnly
  else
    match m.coords with
    | none => .error .absentCoordinates
    | some coords =>
      let expected ← exact.eval (.ofRows coords none)
      match expected.broadcastTo? [u.size] with
      | none => .error .shapeMismatch
      | some v =>
        match (Array.zipWith (fun x y => Scalar.abs (x - y)) u v.data).toList with
        | [] => .error .shapeMismatch
        | d :: ds => pure (ds.foldl Scalar.max d)

end ErrorNorm
end WeakForm

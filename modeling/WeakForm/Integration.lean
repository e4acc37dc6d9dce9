import WeakForm.Kernel
import WeakForm.Quadrature

/-!
# Integrals over elements

The integral of a kernel over an element is the sum of its values at the points of the rule of the
family, each times its weight and the determinant of the Jacobian. A point element has no rule; its
integral is the value of the kernel.
-/

namespace WeakForm
namespace Kernel

variable {α : Type} [Scalar α]

/-- The points of the quadrature rule of a family; none for point elements. -/
def familyRule (f : Family) : Option (List (QuadraturePoint α)) :=
  match f.rule with
  | some (kind, order) => Quadrature.rule? kind order
  | none => none

/-- The points of the quadrature rule of an element. -/
def rule (e : Element α) : Option (List (QuadraturePoint α)) := familyRule e.family

/-- Adds the terms of a list of quadrature points to a sum. -/
def sumTerms (term : QuadraturePoint α → Except (Error α) (Tensor α)) (total : Tensor α) :
    List (QuadraturePoint α) → Except (Error α) (Tensor α)
  | [] => .ok total
  | q :: points => do
    let t ← term q
    let sum ← orShapeMismatch (Tensor.zipWith (· + ·) total t)
    sumTerms term sum points

/-- The sum of the terms of a rule, or what stands in its place when there is no rule. -/
def sumOverRule (term : QuadraturePoint α → Except (Error α) (Tensor α))
    (whole : Except (Error α) (Tensor α)) :
    Option (List (QuadraturePoint α)) → Except (Error α) (Tensor α)
  | none => whole
  | some [] => .error .missingRule
  | some (q :: points) => do
    let t ← term q
    sumTerms term t points

/-- The term of one quadrature point. -/
def term (k : Kernel α) (e : Element α) (q : QuadraturePoint α) : Except (Error α) (Tensor α) := do
  let d ← e.detJ q.position
  let v ← k.integrand (.regular e (some q.position))
  pure (v.map (q.weight * d * ·))

def integrate (k : Kernel α) (e : Element α) : Except (Error α) (Tensor α) :=
  sumOverRule (k.term e) (k.integrand (.regular e none)) (rule e)

/-- The square matrix of an element. -/
def localMatrix (k : Kernel α) (e : Element α) : Except (Error α) (DenseMatrix α) := do
  let t ← k.integrate e
  let mismatch := Error.dimension .elementMatrix (e.dofs * e.dofs : Nat) t.data.size
  match t.atLeast2.toMatrix? with
  | some A => if A.rows = e.dofs ∧ A.cols = e.dofs then pure A else .error mismatch
  | none => .error mismatch

/-- The vector of an element. -/
def localVector (k : Kernel α) (e : Element α) : Except (Error α) (Array α) := do
  let t ← k.integrate e
  if t.data.size = e.dofs then pure t.data
  else .error (.dimension .elementVector e.dofs t.data.size)

/-- The term of one quadrature point of an element from data. -/
def dataTerm (k : Kernel α) (e : ElementData α) (q : QuadraturePoint α) :
    Except (Error α) (Tensor α) := do
  let d ← e.detJ (.ofArray q.position.toArray)
  let v ← k.integrand (.given e (.list (q.position.map .real)))
  pure (v.map (q.weight * d * ·))

/-- The integral over an element from data. -/
def integrateData (k : Kernel α) (e : ElementData α) : Except (Error α) (Tensor α) :=
  sumOverRule (k.dataTerm e) (k.integrand (.given e .null)) (familyRule e.family)

/-- The square of a number of degrees of freedom. -/
def squared (dofs : Datum α) : Except (Error α) (Datum α) := do
  let n ← Number.ofDatum dofs
  let square ← n.pow (.integer 2)
  pure square.toDatum

/-- The matrix of an element from data. -/
def dataMatrix (k : Kernel α) (e : ElementData α) : Except (Error α) (Tensor α) := do
  let t ← k.integrateData e
  let dofs ← e.dofs
  if t.atLeast2.shape.length = 2 && t.atLeast2.shape.all (fun n => dofs.same n) then
    pure t.atLeast2
  else
    let expected ← squared dofs
    .error (.dimension .elementMatrix expected t.data.size)

/-- The vector of an element from data. -/
def dataVector (k : Kernel α) (e : ElementData α) : Except (Error α) (Array α) := do
  let t ← k.integrateData e
  let dofs ← e.dofs
  if dofs.same t.data.size then pure t.data
  else .error (.dimension .elementVector dofs t.data.size)

end Kernel
end WeakForm

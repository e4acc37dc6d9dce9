import WeakForm.Condition
import WeakForm.Value.NumberMatrix

/-!
# Partitioned systems

The prescribed degrees of freedom are known. The others, the free ones, follow from their own
equations, in which the known values are moved to the right-hand side. When the reduced matrix is
singular all free degrees of freedom are undefined.
-/

namespace WeakForm
namespace Partition

variable {α : Type} [Scalar α]

/-- The indices whose mark is as given. -/
def indices (marks : List Bool) (mark : Bool) : List Nat :=
  (marks.zipIdx.filter fun b => b.1 == mark).map Prod.snd

section Reduction

variable {β : Type} [Zero β] [Add β] [Sub β] [Mul β]

/-- The contribution of the known values to a row of the product. -/
def knownPart (A : SparseMatrix β) (u : Nat → β) (fixed : List Nat) (i : Nat) : β :=
  (fixed.map fun j =>
    match A.stored? i j with
    | some v => v * u j
    | none => 0).foldl (· + ·) 0

/-- The right-hand side of the equations of the free degrees of freedom. -/
def reducedLoad (A : SparseMatrix β) (b u : Nat → β) (free fixed : List Nat) : List β :=
  free.map fun i => b i - knownPart A u fixed i

/-- The matrix of the equations of the free degrees of freedom. -/
def reducedMatrix (A : SparseMatrix β) (free : List Nat) : SparseMatrix β :=
  let row := fun i => free.zipIdx.filterMap fun j => (A.stored? i j.1).map fun v => (j.2, v)
  ⟨free.length, free.length, (free.map row).toArray⟩

end Reduction

/-- Writes values at the given places. -/
def write (u : Array α) (places : List Nat) (values : List α) : Array α :=
  (places.zip values).foldl (fun u iv => u.setIfInBounds iv.1 iv.2) u

/-- The values of the free degrees of freedom. Those of a complex system are the real parts of its
solution. -/
def freeValues (A : NumberMatrix α) (b : NumberArray α) (u : Array α) (free fixed : List Nat) :
    List α :=
  let solution :=
    if A.kind = .complex ∨ b.kind = .complex then
      let entries := b.toComplexes.data
      let M := A.toComplexes
      let load := reducedLoad M (entries.getD · 0) (fun j => .ofReal (u.getD j 0)) free fixed
      ((reducedMatrix M free).complexSolve? load).map fun values => values.map ComplexPair.re
    else
      let entries := b.realParts.data
      let M := A.toReals
      (reducedMatrix M free).solve? (reducedLoad M (entries.getD · 0) (u.getD · 0) free fixed)
  solution.getD (free.map fun _ => Scalar.undefined)

/-- Solves for the free degrees of freedom. The matrix and the right-hand side have to cover all
degrees of freedom that are asked of them. -/
def solve (A : NumberMatrix α) (b : NumberArray α) (p : Condition.Prescribed α) :
    Except (Error α) (Array α) :=
  let free := indices p.marks false
  let fixed := indices p.marks true
  if free.isEmpty then .ok p.values
  else if free.all (fun i => i < A.rows && i < A.cols && i < volume b.shape) &&
      fixed.all (fun j => j < A.cols) then
    .ok (write p.values free (freeValues A b p.values free fixed))
  else .error .outOfRange

end Partition
end WeakForm

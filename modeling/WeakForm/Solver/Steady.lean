import WeakForm.Solver.Basic

/-!
# Steady solver

Solves `K u = f` with prescribed values. The reactions `K u - f` are the forces that hold the
prescribed values; they vanish on the free degrees of freedom.
-/

namespace WeakForm
namespace Simulation

variable {α : Type} [Scalar α]

/-- The solution of the partitioned system. -/
def steadySolution (s : Simulation α) (K : NumberMatrix α) (f : Array α) :
    Except (Error α) (Array α) := do
  let zero ← s.mesh.zeroVector
  let p ← Condition.applyAll s.mesh zero s.conditions none
  Partition.solve K (.ofVector f) p

def reactions (K : NumberMatrix α) (f u : Array α) : Except (Error α) (NumberArray α) := do
  let Ku ← K.apply u
  Ku.sub (.ofVector f)

/-- Solves for the steady state. The solution is kept even if it has no reactions. -/
def solveSteady (s : Simulation α) : Except (Error α) (Array α) × Simulation α :=
  match s.matrix "stiffness" with
  | (.error e, s) => (.error e, s)
  | (.ok K, s) =>
    match s.force with
    | (.error e, s) => (.error e, s)
    | (.ok f, s) =>
      match s.steadySolution K f with
      | .error e => (.error e, s)
      | .ok u =>
        let solved := { s with solution := some u }
        match reactions K f u with
        | .error e => (.error e, solved)
        | .ok r => (.ok u, { solved with scheme := .steady (some r) })

end Simulation
end WeakForm

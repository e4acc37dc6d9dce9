import WeakForm.Solver.Basic

/-!
# Transient solver

Advances `M du/dt + K u = f` in steps of length `dt` with a weight `theta` between the old and the
new time. A step solves

```text
(M + theta dt K) u = dt (theta f + (1 - theta) f_old) + (M - (1 - theta) dt K) u_old
```

on the free degrees of freedom, with the values prescribed at the new time.
-/

namespace WeakForm

namespace Progress

variable {α : Type}

/-- Before the first step. -/
def initial (time : Datum α) : Progress α := ⟨time, none, none, false⟩

end Progress

namespace Simulation

variable {α : Type} [Scalar α]

/-- The progress of a transient solver. -/
def progress? (s : Simulation α) : Option (Progress α) :=
  match s.scheme with
  | .transient p => some p
  | .steady _ => none

def withProgress (s : Simulation α) (p : Progress α) : Simulation α :=
  { s with scheme := .transient p }

/-- The initial vector: data with a value for every degree of freedom, or the name of a vector or
constant of the formulation, of which a single value counts for all. -/
def initialVector (s : Simulation α) (u0 : Datum α) :
    Except (Error α) (Array α) × Simulation α :=
  let n := s.mesh.dofs
  let mismatch := fun (size : Nat) => Error.dimension .solution n size
  match u0 with
  | .text name =>
    match s.formulation with
    | none => (.error (.noFormulation name), s)
    | some sys =>
      let (found, sys') := sys.obtain s.mesh u0
      let vector := found.bind fun source => do
        let v ← source.toVector
        if v.size = n then pure v
        else if v.size = 1 then s.mesh.zeroVector.map fun zero => zero.map fun _ => v.getD 0 0
        else .error (mismatch v.size)
      (vector, { s with formulation := some sys' })
  | d =>
    (d.toReals.bind fun t =>
      if t.data.size = n then .ok t.data else .error (mismatch t.data.size), s)

/-- The time as an argument of boundary values; a missing one is none. -/
def timeArgument : Datum α → Option (Datum α)
  | .null => none
  | t => some t

/-- A time that can be shown as a real number. -/
def checkTime : Datum α → Except (Error α) Unit
  | .text _ => .error .nonNumeric
  | d => do
    let t ← Number.ofDatum d
    t.toReal.map fun _ => ()

/-- Sets the initial solution, in which the values prescribed at the initial time overwrite the
given ones. An attempt that fails has set the time, and perhaps the old solution. -/
def start (s : Simulation α) (u0 : Datum α) : Except (Error α) (Array α) × Simulation α :=
  match s.progress? with
  | none => (.error .steadySolver, s)
  | some p =>
    match s.initialVector u0 with
    | (.error e, s) => (.error e, s)
    | (.ok u, s) =>
      let p := { p with time := (s.settings.lookup "t0").getD .null }
      match Condition.applyAll s.mesh u s.conditions (timeArgument p.time) with
      | .error e => (.error e, s.withProgress p)
      | .ok prescribed =>
        let u := prescribed.values
        let p := { p with solution := some u }
        match (s.withProgress p).force with
        | (.error e, s) => (.error e, s)
        | (.ok f, s) =>
          let p := { p with force := some f, started := true }
          let started := { s.withProgress p with solution := some u }
          ((checkTime p.time).map fun _ => u, started)

/-- Weight and length of a step. -/
structure Step (α : Type) where
  theta : Number α
  dt : Number α

/-- Checks the weight and the length of a step. -/
def step (s : Simulation α) : Except (Error α) (Step α) := do
  let theta := (s.settings.lookup "theta").getD .null
  let dt := (s.settings.lookup "dt").getD .null
  let w ← match theta, theta.number? with
    | .null, _ => .error (.thetaRange theta)
    | _, some x =>
      if Scalar.atMost 0 x && Scalar.atMost x 1 then Number.ofDatum theta
      else .error (.thetaRange theta)
    | _, none => .error .wrongType
  let h ← match dt, dt.number? with
    | .null, _ => .error (.stepRange dt)
    | _, some x => if Scalar.less 0 x then Number.ofDatum dt else .error (.stepRange dt)
    | _, none => .error .wrongType
  pure ⟨w, h⟩

/-- The matrix of a step. -/
def stepMatrix (c : Step α) (M K : NumberMatrix α) : Except (Error α) (NumberMatrix α) := do
  let w ← c.theta.mul c.dt
  let wK ← K.scale w
  M.add wK

/-- The product of a number and a vector of real numbers. -/
def scaleVector (w : Number α) (v : NumberArray α) : Except (Error α) (NumberArray α) :=
  w.toReal.map fun c => .reals (v.realParts.map (c * ·))

/-- The right-hand side of a step. -/
def stepForce (c : Step α) (M K : NumberMatrix α) (f fOld uOld : Array α) :
    Except (Error α) (NumberArray α) := do
  let rest ← Number.sub (.integer 1) c.theta
  let new ← scaleVector c.theta (.ofVector f)
  let old ← scaleVector rest (.ofVector fOld)
  let mean ← new.add old
  let load ← scaleVector c.dt mean
  let w ← rest.mul c.dt
  let wK ← K.scale w
  let A ← M.sub wK
  let Au ← A.apply uOld
  load.add Au

/-- The solution at the end of a step. -/
def stepSolution (s : Simulation α) (c : Step α) (time : Number α) (M K : NumberMatrix α)
    (f fOld uOld : Array α) : Except (Error α) (Array α) := do
  let A ← stepMatrix c M K
  let b ← stepForce c M K f fOld uOld
  let zero ← s.mesh.zeroVector
  let p ← Condition.applyAll s.mesh zero s.conditions (some time.toDatum)
  Partition.solve A b p

/-- The mass matrix, the stiffness matrix and the force vector. -/
def stepComponents (s : Simulation α) :
    Except (Error α) (NumberMatrix α × NumberMatrix α × Array α) × Simulation α :=
  match s.matrix "mass" with
  | (.error e, s) => (.error e, s)
  | (.ok M, s) =>
    match s.matrix "stiffness" with
    | (.error e, s) => (.error e, s)
    | (.ok K, s) =>
      match s.force with
      | (.error e, s) => (.error e, s)
      | (.ok f, s) => (.ok (M, K, f), s)

/-- Advances by one step. -/
def advance (s : Simulation α) : Except (Error α) (Array α) × Simulation α :=
  match s.progress? with
  | none => (.error .steadySolver, s)
  | some p =>
    if !p.started then (.error .notStarted, s)
    else
      match s.step with
      | .error e => (.error e, s)
      | .ok c =>
        match s.stepComponents with
        | (.error e, s) => (.error e, s)
        | (.ok (M, K, f), s) =>
          match (Number.ofDatum p.time).bind fun t => t.add c.dt with
          | .error e => (.error e, s)
          | .ok time =>
            match s.stepSolution c time M K f (p.force.getD #[]) (p.solution.getD #[]) with
            | .error e => (.error e, s)
            | .ok u =>
              let p := { p with time := time.toDatum, solution := some u, force := some f }
              let advanced := { s.withProgress p with solution := some u }
              ((checkTime p.time).map fun _ => u, advanced)

end Simulation
end WeakForm

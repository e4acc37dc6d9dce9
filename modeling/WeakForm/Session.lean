import WeakForm.ErrorNorm
import WeakForm.Mesh.Grid
import WeakForm.Mesh.Tagging
import WeakForm.Solver.Steady
import WeakForm.Solver.Transient

/-!
# Sessions

A session holds a mesh, a formulation and a solver. The formulation and the solver share the mesh,
and the solver shares the formulation, for as long as these are the ones of the session: what
happens to one of them is seen by all that share it. Once the session has another mesh or another
formulation, those built on the old one keep it for themselves.
-/

namespace WeakForm

/-- A formulation with a mesh of its own, or none while it shares that of the session. -/
structure PlacedFormulation (α : Type) where
  formulation : Formulation α
  ownMesh : Option (Mesh α)

/-- The formulation of a solver. -/
inductive FormulationLink (α : Type) where
  | absent
  | shared
  | own (formulation : Formulation α)

/-- A solver with a mesh of its own, or none while it shares that of the session. -/
structure PlacedSolver (α : Type) where
  solver : Solver α
  ownMesh : Option (Mesh α)
  link : FormulationLink α

structure Session (α : Type) where
  mesh : Mesh α
  formulation : Option (PlacedFormulation α)
  solver : Option (PlacedSolver α)

/-- What a solver is built on. -/
inductive SolverBase where
  | formulation
  | mesh
  deriving DecidableEq, Repr

namespace Simulation

variable {α : Type} [Scalar α]

/-- A solver that has not solved anything, with its given components. -/
def make (mesh : Mesh α) (formulation : Option (Formulation α)) (topic : Topic)
    (settings : Settings α) (given : List (String × Datum α)) : Except (Error α) (Simulation α) :=
  let scheme := match topic with
    | .transient => Scheme.transient (.initial ((settings.lookup "t0").getD .null))
    | _ => Scheme.steady none
  let fresh : Simulation α :=
    { settings, conditions := [], components := [], solution := none, scheme, mesh, formulation }
  match fresh.setComponents given with
  | (.error e, _) => .error e
  | (.ok _, s) =>
    if topic = .transient ∧ (settings.lookup "t0").isNone then .error (.absentSetting "t0")
    else .ok s

/-- A step of either kind of solver. -/
def solve (s : Simulation α) : Except (Error α) (Array α) × Simulation α :=
  match s.scheme with
  | .steady _ => s.solveSteady
  | .transient _ => s.advance

/-- A number of steps after each other, up to the first that fails. The result is the solution of
the last one. -/
def solveMany : (steps : Nat) → Simulation α → Except (Error α) (Option (Array α)) × Simulation α
  | 0, s => (.ok s.solution, s)
  | n + 1, s =>
    match s.solve with
    | (.error e, s) => (.error e, s)
    | (.ok _, s) => solveMany n s

end Simulation

namespace Session

variable {α : Type}

/-- A session with an empty mesh. -/
def initial (space : Datum α) : Session α := ⟨.empty space, none, none⟩

/-- Gives the session another mesh. Those who shared the old one keep it. -/
def replaceMesh (s : Session α) (m : Mesh α) : Session α :=
  { mesh := m
    formulation := s.formulation.map fun p => { p with ownMesh := some (p.ownMesh.getD s.mesh) }
    solver := s.solver.map fun p => { p with ownMesh := some (p.ownMesh.getD s.mesh) } }

/-- Changes the mesh of the session for all who share it. -/
def updateMesh (s : Session α) (m : Mesh α) : Session α := { s with mesh := m }

/-- The mesh of the formulation. -/
def formulationMesh (s : Session α) (p : PlacedFormulation α) : Mesh α := p.ownMesh.getD s.mesh

/-- Gives the session another formulation on its mesh. A solver that shared the old one keeps it. -/
def replaceFormulation (s : Session α) (formulation : Formulation α) : Session α :=
  let keep := fun (p : PlacedSolver α) =>
    match p.link, s.formulation with
    | .shared, some old => { p with link := .own old.formulation }
    | _, _ => p
  { s with formulation := some ⟨formulation, none⟩, solver := s.solver.map keep }

/-- Changes the formulation of the session for all who share it. -/
def updateFormulation (s : Session α) (formulation : Formulation α) : Session α :=
  { s with formulation := s.formulation.map fun p => { p with formulation } }

/-- The solver at work. -/
def simulation? (s : Session α) : Option (Simulation α) :=
  s.solver.map fun p =>
    { toSolver := p.solver
      mesh := p.ownMesh.getD s.mesh
      formulation :=
        match p.link with
        | .absent => none
        | .shared => s.formulation.map PlacedFormulation.formulation
        | .own formulation => some formulation }

/-- Writes the state of the solver and of its formulation back. -/
def store (s : Session α) (sim : Simulation α) : Session α :=
  match s.solver with
  | none => s
  | some p =>
    let solver := { p with solver := sim.toSolver }
    match p.link, sim.formulation with
    | .shared, some formulation => { s.updateFormulation formulation with solver := some solver }
    | .own _, some formulation => { s with solver := some { solver with link := .own formulation } }
    | _, _ => { s with solver := some solver }

/-- Builds a solver on the formulation or on the mesh of the session. The result is none when there
is no formulation to build on. -/
def buildSolver [Scalar α] (s : Session α) (base : SolverBase) (topic : Topic)
    (settings : Except (Error α) (Settings α)) (given : List (String × Datum α)) :
    Option (Except (Error α) (Session α)) :=
  let build := fun (mesh : Mesh α) formulation (ownMesh : Option (Mesh α)) link => do
    let chosen ← settings
    let sim ← Simulation.make mesh formulation topic chosen given
    pure { s with solver := some ⟨sim.toSolver, ownMesh, link⟩ }
  match base, s.formulation with
  | .mesh, _ => some (build s.mesh none none .absent)
  | .formulation, some p =>
    some (build (s.formulationMesh p) (some p.formulation) p.ownMesh .shared)
  | .formulation, none => none

end Session
end WeakForm

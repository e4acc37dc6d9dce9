import WeakForm.Formulation
import WeakForm.Solver.Partition
import WeakForm.Value.NumberMatrix

/-!
# Solvers

A solver works on a mesh and, unless all its components are given, on a formulation. Its components
are the mass and the stiffness matrix and the force vector. A component that is switched off is
zero; a given one is used as it is; any other is looked up in the formulation under the name in the
settings, assembled if it has no value yet, and then kept.
-/

namespace WeakForm

/-- What a transient solver remembers of the last step. -/
structure Progress (α : Type) where
  time : Datum α
  solution : Option (Array α)
  force : Option (Array α)
  started : Bool

/-- A solver for a steady state, with the reactions of its last solution, or for a transient. -/
inductive Scheme (α : Type) where
  | steady (reactions : Option (NumberArray α))
  | transient (progress : Progress α)

/-- A mass or stiffness matrix or a force vector. -/
inductive Component (α : Type) where
  | matrix (A : NumberMatrix α)
  | vector (f : Array α)

structure Solver (α : Type) where
  settings : Settings α
  conditions : List (Condition α)
  /-- Given and kept components. -/
  components : List (String × Component α)
  solution : Option (Array α)
  scheme : Scheme α

/-- A solver at work: with its mesh and its formulation. -/
structure Simulation (α : Type) extends Solver α where
  mesh : Mesh α
  formulation : Option (Formulation α)

/-- A value to be used as a component. -/
inductive Source (α : Type) where
  | value (value : Value α)
  | assembled (value : Assembled α)

namespace Source

variable {α : Type} [Scalar α]

/-- The source as a vector. -/
def toVector : Source α → Except (Error α) (Array α)
  | value v => v.toReals.map fun t => t.data
  | assembled (.vector f) => .ok f
  | assembled (.matrix _) => .error .nonNumeric

/-- The source as a matrix. -/
def toMatrix : Source α → Except (Error α) (NumberMatrix α)
  | value v => NumberMatrix.ofArray v.toArray
  | assembled (.vector f) => NumberMatrix.ofArray (.reals (.ofArray f))
  | assembled (.matrix A) => .ok (.reals A)

/-- The source as the named component. -/
def toComponent (which : String) (source : Source α) : Except (Error α) (Component α) :=
  if which == "force" then source.toVector.map .vector else source.toMatrix.map .matrix

end Source

namespace Formulation

variable {α : Type} [Scalar α]

/-- The present value of a name, assembled if it has none yet. -/
def obtain (s : Formulation α) (m : Mesh α) (name : Datum α) :
    Except (Error α) (Source α) × Formulation α :=
  match s.get name with
  | .error e => (.error e, s)
  | .ok (.constant v) => (.ok (.value v), s)
  | .ok (.entry (some v)) => (.ok (.assembled v), s)
  | .ok (.entry none) =>
    let (result, s') := s.assemble m name
    (result.map .assembled, s')

end Formulation

namespace Solver

variable {α : Type}

/-- Whether a setting is present and counts as true. -/
def isOn [Scalar α] (s : Solver α) (setting : String) : Bool :=
  (s.settings.lookup setting).any Datum.isTrue

/-- Whether a component is switched off. -/
def isDisabled [Scalar α] (s : Solver α) (which : String) : Bool :=
  s.isOn "disable_all" || s.isOn ("disable_" ++ which)

/-- Changes a setting, or adds one, without any check. Settings that hold none at all take none. -/
def set (s : Solver α) (setting : String) (value : Datum α) : Except (Error α) (Solver α) :=
  if s.settings.isEmpty then .error (.absentSetting setting)
  else .ok { s with settings := assign setting value s.settings }

end Solver

/-- The components of a solver. -/
def componentNames : List String := ["mass", "stiffness", "force"]

namespace Simulation

variable {α : Type} [Scalar α]

/-- The component that is switched off. -/
def zeroComponent (s : Simulation α) (which : String) : Except (Error α) (Component α) :=
  if which == "force" then s.mesh.zeroVector.map .vector
  else s.mesh.zeroMatrix.map fun A => .matrix (.reals A)

/-- Takes a component from the formulation and keeps it. -/
def fetch (s : Simulation α) (which : String) (name : Datum α) :
    Except (Error α) (Component α) × Simulation α :=
  match s.formulation with
  | none => (.error (.noComponent which), s)
  | some sys =>
    let (found, sys') := sys.obtain s.mesh name
    let s' := { s with formulation := some sys' }
    match found.bind (Source.toComponent which) with
    | .error e => (.error e, s')
    | .ok c => (.ok c, { s' with components := assign which c s'.components })

/-- A component: zero if it is switched off, else the given or kept one, else that of the
formulation. -/
def component (s : Simulation α) (which : String) :
    Except (Error α) (Component α) × Simulation α :=
  if s.isDisabled which then (s.zeroComponent which, s)
  else
    match s.components.lookup which with
    | some c => (.ok c, s)
    | none =>
      match s.settings.lookup which with
      | some name => s.fetch which name
      | none => (.error (.absentSetting which), s)

/-- A component as a matrix. -/
def matrix (s : Simulation α) (which : String) :
    Except (Error α) (NumberMatrix α) × Simulation α :=
  let (c, s') := s.component which
  (c.bind fun
    | .matrix A => .ok A
    | .vector f => NumberMatrix.ofArray (.reals (.ofArray f)), s')

/-- The force vector. -/
def force (s : Simulation α) : Except (Error α) (Array α) × Simulation α :=
  let (c, s') := s.component "force"
  (c.bind fun
    | .vector f => .ok f
    | .matrix _ => .error .nonNumeric, s')

/-- A given value as the named component, which has to suit the mesh. -/
def givenComponent (n : Nat) (which : String) (value : Datum α) :
    Except (Error α) (Component α) := do
  if which == "force" then
    let t ← value.toReals
    if t.data.size = n then pure (.vector t.data)
    else .error (.dimension .force n t.data.size)
  else
    let a ← NumberArray.ofData value
    let A ← NumberMatrix.ofArray a
    if A.rows = n ∧ A.cols = n then pure (.matrix A)
    else .error (.dimension (.globalMatrix which) (n * n : Nat) (A.rows * A.cols))

/-- Gives a component, or takes it back when the value is null. -/
def setComponent (s : Simulation α) (which : String) (value : Datum α) :
    Except (Error α) (Simulation α) :=
  if !(componentNames.contains which) then .error (.unknownComponent which)
  else
    match value with
    | .null => .ok { s with components := unassign which s.components }
    | v => (givenComponent s.mesh.dofs which v).map fun c =>
      { s with components := assign which c s.components }

/-- Gives components one after the other, up to the first that does not fit. -/
def setEach (s : Simulation α) : List (String × Datum α) → Except (Error α) Unit × Simulation α
  | [] => (.ok (), s)
  | (which, value) :: rest =>
    match s.setComponent which value with
    | .error e => (.error e, s)
    | .ok s' => s'.setEach rest

/-- Gives components by name. The name of the solver among them is taken. -/
def setComponents (s : Simulation α) (given : List (String × Datum α)) :
    Except (Error α) Unit × Simulation α :=
  match Settings.checkNames ["self"] given with
  | .error e => (.error e, s)
  | .ok _ => s.setEach given

/-- Registers a condition on the nodes of an existing tag. -/
def addCondition (s : Simulation α) (c : Condition α) : Except (Error α) (Simulation α) :=
  (s.mesh.getNodeIds c.tag).map fun _ => { s with conditions := s.conditions ++ [c] }

/-- The component of a datum. Only a text names a component, but anything may be switched off, and
then stands for a matrix. -/
def componentOf (s : Simulation Float) (which : Datum Float) :
    Except (Error Float) (Component Float) × Simulation Float :=
  match which with
  | .text name => s.component name
  | d => if s.isDisabled d.display then (s.zeroComponent d.display, s) else (.error .wrongType, s)

end Simulation
end WeakForm

import WeakForm.Settings

/-!
# Formulations

A formulation holds named constants and named matrices and vectors of weak forms on a mesh. An
expression may use the names defined before it and keeps their meaning when they are redefined
later; a name never changes its kind. Matrices and vectors are assembled on demand and keep the
value of their last assembly.
-/

namespace WeakForm

/-- A matrix or a vector of a formulation. -/
inductive Assembled (α : Type) where
  | matrix (A : SparseMatrix α)
  | vector (f : Array α)

inductive EntryKind where
  | matrix
  | vector
  deriving DecidableEq, Repr

namespace EntryKind

def toNameKind : EntryKind → NameKind
  | matrix => .matrix
  | vector => .vector

end EntryKind

structure Entry (α : Type) where
  kind : EntryKind
  kernel : Kernel α
  boundary : Option TagId
  value : Option (Assembled α)

structure Formulation (α : Type) where
  method : AssemblyMethod
  constants : List (String × Value α)
  entries : List (String × Entry α)

/-- What a name stands for at present. -/
inductive Current (α : Type) where
  | constant (value : Value α)
  | entry (value : Option (Assembled α))

namespace Formulation

variable {α : Type} [Scalar α]

/-- The assembly method among the settings. -/
def methodOf (settings : Settings α) : Except (Error α) AssemblyMethod :=
  match settings.lookup "method" with
  | none => .error (.absentSetting "method")
  | some d =>
    match Settings.method? d with
    | some method => .ok method
    | none => .error (.invalidMethod d)

/-- A formulation without names on a frozen mesh. -/
def make (m : Mesh α) (settings : Except (Error α) (Settings α)) :
    Except (Error α) (Formulation α) :=
  if m.frozen then do
    let method ← methodOf (← settings)
    pure ⟨method, [], []⟩
  else .error .openMeshFormulation

/-- A formulation whose settings are given by name. -/
def ofNamed (m : Mesh α) (given : List (String × Datum α)) : Except (Error α) (Formulation α) := do
  Settings.checkNames (Settings.takenNames .assembly) given
  make m (Settings.ofNamed .assembly given)

/-- What an expression may refer to. -/
def definitions (s : Formulation α) : Definitions α :=
  s.constants.map (fun c => (c.1, .constant c.2)) ++
    s.entries.map fun e => (e.1, .kernel e.2.kernel)

/-- The kind of a name that is in use. -/
def nameKind? (s : Formulation α) (name : String) : Option NameKind :=
  match s.constants.lookup name with
  | some _ => some .constant
  | none => (s.entries.lookup name).map fun e => e.kind.toNameKind

/-- Checks that a name may be given a meaning of some kind. -/
def checkNew (s : Formulation α) (name : String) (kind : NameKind) : Except (Error α) Unit := do
  Names.check name
  match s.nameKind? name with
  | some current => if current = kind then pure () else .error (.nameInUse name current)
  | none => pure ()

/-- The value of a constant: an expression over the constants defined before, or data. -/
def constantValue (s : Formulation α) (value : Datum α) : Except (Error α) (Value α) :=
  match value with
  | .text expression =>
    Expr.evalConstant expression (s.constants.map fun c => (c.1, .constant c.2))
  | d => Definition.valueOfData d

/-- Defines a constant. -/
def addConstant (s : Formulation α) (name : String) (value : Datum α) :
    Except (Error α) (Formulation α) := do
  s.checkNew name .constant
  let v ← s.constantValue value
  pure { s with constants := assign name v s.constants }

/-- Defines a matrix or a vector, over all cells or over a tagged boundary. -/
def addEntry (s : Formulation α) (m : Mesh α) (kind : EntryKind) (name : String)
    (source : Kernel.Source α) (boundary : Option TagId) : Except (Error α) (Formulation α) := do
  s.checkNew name kind.toNameKind
  match boundary with
  | some tag => (m.boundary tag).map fun _ => ()
  | none => pure ()
  let kernel ← Kernel.ofSource name source s.definitions
  pure { s with entries := assign name ⟨kind, kernel, boundary, none⟩ s.entries }

/-- Whether something is registered under a name. -/
def has (s : Formulation α) (name : Datum α) : Except (Error α) Bool :=
  name.toName.map fun n => n.any fun n => (s.nameKind? n).isSome

/-- The name of an entry, and the entry. -/
def entry (s : Formulation α) (name : Datum α) : Except (Error α) (String × Entry α) := do
  let n ← name.toName
  match n.bind fun n => (s.entries.lookup n).map fun e => (n, e) with
  | some e => pure e
  | none => .error (.noEntry name)

/-- The kind of a name. -/
def kind (s : Formulation α) (name : Datum α) : Except (Error α) NameKind := do
  let n ← name.toName
  match n.bind fun n => s.constants.lookup n with
  | some _ => pure .constant
  | none => (s.entry name).map fun e => e.2.kind.toNameKind

/-- The kernel of an entry. -/
def kernel (s : Formulation α) (name : Datum α) : Except (Error α) (Kernel α) := do
  let n ← name.toName
  match n.bind fun n => s.entries.lookup n with
  | some e => pure e.kernel
  | none => .error (.unboundName (n.getD ""))

/-- The matrix or vector of an entry. -/
def evaluate (s : Formulation α) (m : Mesh α) (e : Entry α) : Except (Error α) (Assembled α) :=
  match e.kind with
  | .matrix => (Assembly.matrix m e.kernel e.boundary s.method).map .matrix
  | .vector => (Assembly.vector m e.kernel e.boundary).map .vector

/-- Assembles a matrix or a vector anew. Its old value is gone even if this fails. -/
def assemble (s : Formulation α) (m : Mesh α) (name : Datum α) :
    Except (Error α) (Assembled α) × Formulation α :=
  match s.entry name with
  | .error e => (.error e, s)
  | .ok (name, e) =>
    let set := fun value => { s with entries := assign name { e with value } s.entries }
    match s.evaluate m e with
    | .error err => (.error err, set none)
    | .ok v => (.ok v, set (some v))

/-- The present value of a name. -/
def get (s : Formulation α) (name : Datum α) : Except (Error α) (Current α) := do
  let n ← name.toName
  let constant := n.bind fun n => s.constants.lookup n
  let entry := n.bind fun n => s.entries.lookup n
  match constant, entry with
  | some v, _ => pure (.constant v)
  | none, some e => pure (.entry e.value)
  | none, none => .error (.noDefinition name)

end Formulation
end WeakForm

import WeakForm.Assignment
import WeakForm.Element.Site
import WeakForm.Expression.Evaluation
import WeakForm.Expression.Names

/-!
# Kernels

A kernel is the integrand of a weak form: it has an array of real numbers as its value at every
point of every element. The text of a weak form may use the shape matrix `N`, the derivative matrix
`B`, the position `x`, `y`, `z`, the reference coordinates `xi`, `eta`, `zeta`, constants, and
kernels defined before. Names are bound when the kernel is compiled, so later definitions do not
change it.
-/

namespace WeakForm

structure Kernel (α : Type) where
  name : String
  /-- The text of the weak form; none when the integrand is given otherwise. -/
  text : Option String
  integrand : Site α → Except (Error α) (Tensor α)

/-- What a name stands for. -/
inductive Definition (α : Type) where
  | constant (value : Value α)
  | kernel (kernel : Kernel α)
  /-- A meaning for something that is no text and hence no name. -/
  | unnamed

def Definition.isUnnamed {α : Type} : Definition α → Bool
  | unnamed => true
  | _ => false

/-- Names with their meanings in the order of definition. -/
abbrev Definitions (α : Type) := List (String × Definition α)

/-- Parses a text with its faults as errors. -/
def Expr.read {α : Type} (text : String) : Except (Error α) Expr :=
  (Expr.parse text).mapError .syntaxFault

namespace Expr

variable {α : Type} {text : String}

theorem read_of_parse {e : Expr} (h : parse text = .ok e) :
    (read text : Except (Error α) Expr) = .ok e := by
  rw [read, h]
  rfl

theorem read_of_parse_error {fault : SyntaxError} (h : parse text = .error fault) :
    (read text : Except (Error α) Expr) = .error (.syntaxFault fault) := by
  rw [read, h]
  rfl

end Expr

namespace Kernel

variable {α : Type} [Scalar α]

/-- The value of a reserved name at a site. -/
def siteSymbol (site : Site α) (name : String) : Except (Error α) (Value α) :=
  match site with
  | .absent => .error (.onlyInForms name)
  | site =>
    if name == "N" then site.shape.map .ofTensor
    else if name == "B" then site.derivative.map .ofTensor
    else if Site.positionNames.contains name then (site.coordinate name).map .ofReal
    else (site.reference name).map .ofReal

/-- The value of a name at a site. -/
def resolve (bound : Definitions α) (site : Site α) (name : String) : Except (Error α) (Value α) :=
  if Names.isReserved name then siteSymbol site name
  else
    match bound.lookup name with
    | some (.constant v) => .ok v
    | some (.kernel k) => (k.integrand site).map Value.ofTensor
    | _ => .error (.unboundName name)

/-- The definitions that a text refers to; all of them have to have names. Every name of the tree
has to be among them, unless it is reserved. -/
def bind (text : String) (tree : Expr) (definitions : Definitions α) :
    Except (Error α) (Definitions α) :=
  let bound := definitions.filter fun d => Names.references text d.1
  let unknown := tree.symbols.filter fun name =>
    !Names.isReserved name && !(bound.map Prod.fst).contains name
  if definitions.any fun d => d.2.isUnnamed then .error .wrongType
  else if unknown.isEmpty then .ok bound
  else .error (.undefinedNames unknown text)

/-- The kernel of a weak form. -/
def compile (name text : String) (definitions : Definitions α) : Except (Error α) (Kernel α) := do
  let tree ← Expr.read text
  let bound ← bind text tree definitions
  pure ⟨name, some text, fun site => do
    let v ← tree.eval (resolve bound site)
    v.toReals⟩

section Compilation

variable {text : String} (name : String) (definitions : Definitions α)

/-- An expression is compiled with the definitions that are bound for it. -/
theorem compile_of_parse {tree : Expr} (h : Expr.parse text = .ok tree) :
    compile name text definitions = (bind text tree definitions).map fun bound =>
      ⟨name, some text, fun site => tree.eval (resolve bound site) >>= Value.toReals⟩ := by
  rw [compile, Expr.read_of_parse h]
  change (bind text tree definitions >>= _) = _
  cases bind text tree definitions <;> rfl

theorem compile_of_parse_error {fault : SyntaxError} (h : Expr.parse text = .error fault) :
    compile name text definitions = .error (.syntaxFault fault) := by
  rw [compile, Expr.read_of_parse_error h]
  rfl

end Compilation

/-- The products of all pairs of shape functions. -/
def mass (name : String) : Kernel α :=
  ⟨name, none, fun site => do
    let N ← site.shape
    orShapeMismatch (N.transpose.mul? N)⟩

/-- The shape functions times a given load. -/
def load (name : String) (value : Datum α) : Kernel α :=
  ⟨name, none, fun site => do
    let N ← site.shape
    let v ← value.toReals
    orShapeMismatch (N.transpose.mul? v)⟩

/-- The same value at all points. -/
def uniform (name : String) (value : Datum α) : Kernel α := ⟨name, none, fun _ => value.toReals⟩

/-- Where the integrand of a kernel comes from. -/
inductive Source (α : Type) where
  | form (text : Datum α)
  | mass
  | load (value : Datum α)
  | uniform (value : Datum α)

def ofSource (name : String) (source : Source α) (definitions : Definitions α) :
    Except (Error α) (Kernel α) :=
  match source with
  | .form text => text.toExpression.bind fun s => compile name s definitions
  | .mass => .ok (mass name)
  | .load value => .ok (load name value)
  | .uniform value => .ok (uniform name value)

def display (k : Kernel α) : String :=
  "Kernel(" ++ Text.quoted k.name ++ ", " ++ Text.quoted (k.text.getD "<callable>") ++ ")"

end Kernel

namespace Expr

variable {α : Type} [Scalar α]

/-- The value of an expression outside of any element. -/
def evalOutside (definitions : Definitions α) (tree : Expr) : Except (Error α) (Value α) :=
  tree.eval (Kernel.resolve definitions .absent)

/-- The value of a constant expression, which must not use reserved names. -/
def evalConstant (text : String) (definitions : Definitions α) : Except (Error α) (Value α) := do
  let tree ← Expr.read text
  let reserved := tree.symbols.filter Names.isReserved
  if reserved.isEmpty then
    let bound ← Kernel.bind text tree definitions
    tree.evalOutside bound
  else .error (.reservedInConstant text reserved)

section Constants

variable {text : String} (definitions : Definitions α)

/-- A constant is refused for its reserved names before its names are bound. -/
theorem evalConstant_of_parse {tree : Expr} (h : parse text = .ok tree) :
    evalConstant text definitions =
      if tree.symbols.filter Names.isReserved = [] then
        Kernel.bind text tree definitions >>= fun bound => tree.evalOutside bound
      else .error (.reservedInConstant text (tree.symbols.filter Names.isReserved)) := by
  rw [evalConstant, read_of_parse h]
  simp only [List.isEmpty_iff]
  rfl

theorem evalConstant_of_parse_error {fault : SyntaxError} (h : parse text = .error fault) :
    evalConstant text definitions = .error (.syntaxFault fault) := by
  rw [evalConstant, read_of_parse_error h]
  rfl

end Constants

end Expr

namespace Definition

variable {α : Type} [Scalar α]

/-- The constant of a datum: plain numbers stay plain, all else becomes an array. -/
def valueOfData : Datum α → Except (Error α) (Value α)
  | .flag b => .ok (.plain (.flag b))
  | .integer n => .ok (.plain (.integer n))
  | .real x => .ok (.plain (.real x))
  | d => d.toReals.map Value.ofTensor

/-- Definitions of constants; a later definition of a name replaces an earlier one. -/
def ofData (items : List (Datum α × Datum α)) : Except (Error α) (Definitions α) :=
  items.foldlM (fun defs item => do
    let v ← valueOfData item.2
    let name ← item.1.toName
    match name with
    | some name => pure (assign name (.constant v) defs)
    | none => pure (assign "" .unnamed defs)) []

end Definition
end WeakForm

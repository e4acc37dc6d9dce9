import WeakForm.Datum
import WeakForm.Element.Family
import WeakForm.Expression.Parser
import WeakForm.Mesh.TagId

/-!
# Errors

An error names its cause and carries what its message needs. Faults of plain arithmetic, of array
shapes and of data types have no message of their own; all others are explained by `message`.
-/

namespace WeakForm

/-- Arrays whose length is checked. -/
inductive Quantity where
  | nodeList (family : Family)
  | nodeIds (family : Family)
  | elementMatrix
  | elementVector
  | solution
  | force
  | globalMatrix (component : String)
  | boundaryValue
  | boundaryArray
  deriving DecidableEq, Repr

/-- The two kinds of tagged regions. -/
inductive RegionKind where
  | boundary
  | subdomain
  deriving DecidableEq, Repr

/-- The three kinds of names of a formulation. -/
inductive NameKind where
  | constant
  | matrix
  | vector
  deriving DecidableEq, Repr

inductive Error (α : Type) where
  /-- A plain number was divided by zero, or zero raised to a negative power. -/
  | divisionByZero
  /-- A plain number grew out of range. -/
  | overflow
  /-- An undefined number has no whole part. -/
  | undefinedInteger
  /-- An array is longer than memory can hold. -/
  | outOfMemory
  | singularMatrix
  | nonSquareMatrix
  /-- Powers of several matrices at once whose entries are of no common kind. -/
  | mixedStack
  | shapeMismatch
  | raggedRows
  | nonNumeric
  /-- An index, coordinate or argument past the end. -/
  | outOfRange
  /-- A complex number stands where a real one is wanted. -/
  | complexValue
  /-- Truth values do not subtract. -/
  | truthArithmetic
  | missingRule
  | wrongType
  | unknownSetting (name : String)
  | notText
  | absentSetting (name : String)
  | absentCoordinates
  | steadySolver
  | unboundName (name : String)
  /-- A setting that does not convert to the type of its field. -/
  | conversion (field : String)
  | unknownField (field : String)
  | listedSettings
  | unstructuredSettings
  | syntaxFault (fault : SyntaxError)
  | unsupportedOrder (kind : RuleKind) (order : Datum α)
  | tetrahedralRule
  | unknownRule (kind : String)
  | unknownFamily (name : String)
  | nonPositiveDofs (dofs : Int)
  | unknownSpace (space : Datum α)
  | fixedDofs (family : Family) (fixed : Nat) (dofs : Datum α)
  | dimension (quantity : Quantity) (expected : Datum α) (actual : Nat)
  | degenerate (element : Datum α) (det : α)
  | noDerivative (dofs : Datum α) (dim : Nat)
  | volumeNormal
  | unsupportedNormal (localDim dim : Nat)
  | noSides (family : Family)
  | undefinedCoordinate (name : String) (dim : Nat)
  | vectorDivisor
  | vectorExponent
  | fractionalExponent
  | onlyInForms (name : String)
  | reservedName (name : String)
  | invalidName (name : String)
  | reservedInConstant (expression : String) (names : List String)
  | undefinedNames (names : List String) (expression : String)
  | nameInUse (name : String) (kind : NameKind)
  | nodeComponents (count : Nat)
  | frozenMesh
  | emptyMesh
  | unregisteredNodes (element : Nat) (nodes : List Int)
  | openMesh
  | openMeshFormulation
  | unknownLocation (name : String)
  | tagInUse (tag : TagId) (kind : RegionKind)
  | noTag (tag : TagId)
  | noBoundary (tag : TagId)
  | unknownMode (mode : String)
  | componentRange (component : Datum α) (dofs : Nat)
  | emptyRange (axis : String) (low high : Datum α)
  | noCells (axis : String) (count : Datum α)
  | gridFamily (family : Family)
  | lineFamily (family : Family)
  | unknownMethod (method : String)
  | invalidMethod (method : Datum α)
  | emptyName (setting : String) (value : Datum α)
  | thetaRange (theta : Datum α)
  | stepRange (dt : Datum α)
  | noEntry (name : Datum α)
  | noDefinition (name : Datum α)
  | noComponent (which : String)
  | noFormulation (name : String)
  | unknownComponent (which : String)
  | notStarted
  | scalarOnly
  | untriangulated (family : Family)
  | unplotted

namespace Quantity

def text : Quantity → String
  | nodeList f => f.name ++ " node list"
  | nodeIds f => f.name ++ " node id list"
  | elementMatrix => "element matrix (entries)"
  | elementVector => "element vector"
  | solution => "solution vector"
  | force => "force vector"
  | globalMatrix component => component ++ " matrix (entries)"
  | boundaryValue => "boundary value per component"
  | boundaryArray => "boundary value array (entries)"

end Quantity

namespace RegionKind

def text : RegionKind → String
  | boundary => "boundary"
  | subdomain => "subdomain"

end RegionKind

namespace NameKind

def text : NameKind → String
  | constant => "constant"
  | matrix => "matrix"
  | vector => "vector"

end NameKind

/-- Names with a meaning of their own in weak forms: the shape matrix, the derivative matrix, the
position and the reference coordinates. -/
def reservedNames : List String := ["N", "B", "x", "y", "z", "xi", "eta", "zeta"]

namespace Expectation

def text : Expectation → String
  | mark m => "expected '" ++ m ++ "'"
  | operand => "expected a number, name, '(' or '['"
  | finish => "unexpected token"
  | arrayEntry => "empty array literal"

end Expectation

namespace SyntaxError

def message : SyntaxError → String
  | character c position text =>
    "Unexpected character " ++ Text.quoted (String.singleton c) ++ " at " ++ toString position ++
      " in '" ++ text ++ "'"
  | token expectation found text =>
    let what := if found.kind == .finish then "end of expression" else Text.quoted found.text
    expectation.text ++ ", found " ++ what ++ " at " ++ toString found.position ++
      " in '" ++ text ++ "'"
  | empty => "Empty expression"
  | unequalRows text => "Array rows have different lengths in '" ++ text ++ "'"

end SyntaxError

namespace Error

def commas (names : List String) : String := ", ".intercalate names

def message : Error Float → Option String
  | syntaxFault fault => some fault.message
  | unsupportedOrder kind order => some <|
    "Unsupported " ++ kind.name ++ " quadrature order " ++ order.display ++
      (if kind == .tri then ". Use 1, 3, 4 or 7." else ". Use 1, 2, 3, 4 or 5.")
  | tetrahedralRule => some "Tetrahedral quadrature is not implemented"
  | unknownRule kind => some <| "Unknown quadrature type '" ++ kind ++ "'"
  | unknownFamily name => some <|
    "Unknown element family '" ++ name ++ "'. Available: " ++ commas (Family.all.map Family.name)
  | nonPositiveDofs dofs => some <|
    "The number of dofs per node must be positive, got " ++ toString dofs
  | unknownSpace space => some <|
    "The element space '" ++ space.display ++ "' was not recognized"
  | fixedDofs family fixed dofs => some <|
    family.name ++ " elements carry " ++ toString fixed ++ " dofs per node, not " ++ dofs.display
  | dimension quantity expected actual => some <|
    "Expected a " ++ quantity.text ++ " of length " ++ expected.display ++
      ", but received one of length " ++ toString actual
  | degenerate element det => some <|
    "Element " ++ element.display ++ " has a non-positive Jacobian determinant (" ++
      Text.scientificText det ++ "); check the node ordering"
  | noDerivative dofs dim => some <|
    "No derivative operator for " ++ dofs.display ++ " dofs per node in a " ++ toString dim ++
      "-D element"
  | volumeNormal => some "Normals are only available for side elements, see build_side"
  | unsupportedNormal localDim dim => some <|
    "Normals of " ++ toString localDim ++ "-D sides in " ++ toString dim ++
      "-D space are not supported"
  | noSides family => some <| family.name ++ " elements have no sides"
  | undefinedCoordinate name dim => some <|
    "'" ++ name ++ "' is not defined on a " ++ toString dim ++ "-D element"
  | vectorDivisor => some "Only division by a scalar is supported"
  | vectorExponent => some "The exponent must be a scalar"
  | fractionalExponent => some "Matrix powers need an integer exponent"
  | onlyInForms name => some <| "'" ++ name ++ "' is only defined inside a weak form"
  | reservedName name => some <|
    "'" ++ name ++ "' is a reserved weak-form symbol: " ++ commas reservedNames
  | invalidName name => some <| "'" ++ name ++ "' is not a valid name"
  | reservedInConstant expression names => some <|
    "Constant expression '" ++ expression ++ "' uses weak-form symbol(s) " ++ commas names
  | undefinedNames names expression => some <|
    "Undefined name(s) " ++ commas names ++ " in '" ++ expression ++
      "'; constants must be defined before they are used"
  | nameInUse name kind => some <| "'" ++ name ++ "' is already defined as a " ++ kind.text
  | nodeComponents count => some <|
    "Node coordinates must have 1 to 3 components, got " ++ toString count
  | frozenMesh => some "The mesh is frozen after initialize(); create a new mesh"
  | emptyMesh => some "Cannot initialize a mesh without nodes and elements"
  | unregisteredNodes element nodes => some <|
    "Element " ++ toString element ++ " references unregistered node(s) [" ++
      commas (nodes.map toString) ++ "]"
  | openMesh => some "The mesh must be initialized first, see Mesh.initialize"
  | openMeshFormulation => some "The mesh must be initialized before building a system"
  | unknownLocation name => some <|
    "Unknown boundary location '" ++ name ++
      "'. Use one of ('left', 'right', 'bottom', 'top')"
  | tagInUse tag kind => some <|
    "Tag " ++ tag.text ++ " is already used by a " ++ kind.text
  | noTag tag => some <| "No boundary or subdomain is tagged " ++ tag.text
  | noBoundary tag => some <| "No boundary is tagged " ++ tag.text
  | unknownMode mode => some <|
    "Unknown dof mode '" ++ mode ++ "'. Use one of ('essential', 'nonessential', 'all')"
  | componentRange component dofs => some <|
    "Component " ++ component.display ++ " is out of range for " ++ toString dofs ++
      " dofs per node"
  | emptyRange axis low high => some <|
    "Empty " ++ axis ++ " range [" ++ low.display ++ ", " ++ high.display ++ "]"
  | noCells axis count => some <|
    "Need at least one element along " ++ axis ++ ", got " ++ count.display
  | gridFamily family => some <|
    "grid() supports ('Quad4', 'Tri3', 'Tri6'), not " ++ family.name
  | lineFamily family => some <|
    "line_grid() supports ('Line2', 'Line3', 'Beam2'), not " ++ family.name
  | unknownMethod method => some <| "Unknown assembly method '" ++ method ++ "'"
  | invalidMethod method => some <|
    "Unknown assembly method '" ++ method.display ++ "'. Use one of ('triplet', 'direct')"
  | emptyName setting value => some <|
    "'" ++ setting ++ "' must be a non-empty system name, got " ++ value.quoted
  | thetaRange theta => some <| "theta must be in [0, 1], got " ++ theta.display
  | stepRange dt => some <| "dt must be a positive time step, got " ++ dt.display
  | noEntry name => some <| "No matrix or vector named '" ++ name.display ++ "'"
  | noDefinition name => some <|
    "'" ++ name.display ++ "' is not a registered constant, matrix or vector"
  | noComponent which => some <|
    "No " ++ which ++ " was provided and the solver has no system"
  | noFormulation name => some <| "Cannot look up '" ++ name ++ "' without a system"
  | unknownComponent which => some <|
    "Unknown component '" ++ which ++ "'. Use one of ('mass', 'stiffness', 'force')"
  | notStarted => some "The solver must be initialized with init() before solve()"
  | scalarOnly => some "linf_error() compares nodal values of scalar fields only"
  | untriangulated family => some <| "Cannot triangulate " ++ family.name ++ " elements"
  | unplotted => some "Only 1-D and 2-D meshes can be plotted"
  | _ => none

end Error
end WeakForm

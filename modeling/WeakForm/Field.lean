import WeakForm.Datum.Array
import WeakForm.Index

/-!
# Fields

A field gives a value to every point: a polynomial in its coordinates and, where there is one, the
time, several fields side by side, a given value, or any other function. It is evaluated at a single
point or at a list of points at once. The coefficients of a polynomial and the time are data: whole
numbers stay exact until they meet a coordinate, and lists hold a value for each point.
-/

namespace WeakForm

/-- A coefficient with the exponents of the coordinates and of the time. -/
structure Monomial (α : Type) where
  coefficient : Datum α
  exponents : List (Datum α)

/-- Points at which a field is evaluated: a single one, or a list of them, with an array for each
coordinate and perhaps a time. -/
structure Sample (α : Type) where
  single : Bool
  coordinates : List (Tensor α)
  time : Option (Datum α)

namespace Sample

variable {α : Type}

def ofPoint (point : List α) : Sample α := ⟨true, point.map .scalar, none⟩

/-- The sample of the points that are the rows of a matrix. -/
def ofRows [Zero α] (points : DenseMatrix α) (time : Option (Datum α)) : Sample α :=
  ⟨false, (List.range points.cols).map fun j => .ofArray (points.column j).toArray, time⟩

end Sample

inductive Field (α : Type) where
  | polynomial (terms : List (Monomial α))
  | vector (components : List (Field α))
  | constant (value : Datum α)
  /-- Any other function of the coordinates and the time. -/
  | function (values : Sample α → Except (Error α) (Tensor α))

/-- An argument of a field: the values of a coordinate, or the time as it is given. -/
inductive Argument (α : Type) where
  | coordinate (values : Tensor α)
  | time (value : Datum α)

namespace Sample

variable {α : Type}

def arguments (s : Sample α) : List (Argument α) :=
  s.coordinates.map .coordinate ++ (s.time.map .time).toList

end Sample

/-- A product of a coefficient and arguments: data as long as no coordinate took part. -/
inductive Product (α : Type) where
  | data (value : Datum α)
  | values (entries : Tensor α)

namespace Product

variable {α : Type} [Scalar α]

/-- Combines an array with a datum, which is a number for all entries or a list of them. -/
def combine (f : α → α → α) (values : Tensor α) (d : Datum α) : Except (Error α) (Tensor α) := do
  let other ← match d with
    | .list xs => (DataArray.ofDatum (.list xs)).bind fun a => a.summands values.shape
    | d => d.toSummand.map Tensor.scalar
  orShapeMismatch (Tensor.zipWith f values other)

/-- Multiplies by the values of a coordinate. At a single point these are one number, which does not
go with a list. -/
def mulCoordinate (single : Bool) (x : Tensor α) : Product α → Except (Error α) (Product α)
  | values t => (orShapeMismatch (Tensor.zipWith (· * ·) t x)).map values
  | data (.list xs) =>
    if single then .error .wrongType
    else (combine (fun y c => c * y) x (.list xs)).map values
  | data d => (combine (fun y c => c * y) x d).map values

def mul (single : Bool) (p : Product α) : Argument α → Except (Error α) (Product α)
  | .coordinate x => p.mulCoordinate single x
  | .time t =>
    match p with
    | data d => (d.mul t).map data
    | values v => (combine (· * ·) v t).map values

/-- Multiplies by the natural power of an argument, one factor after the other. -/
def mulPower (single : Bool) (argument : Argument α) :
    (exponent : Nat) → (p : Product α) → Except (Error α) (Product α)
  | 0, p => .ok p
  | n + 1, p => (p.mul single argument).bind fun q => mulPower single argument n q

/-- Multiplies by powers of the arguments in turn. Exponents below one leave out their argument, and
an argument that does not exist must not be asked for. -/
def mulPowers (single : Bool) :
    (arguments : List (Argument α)) → (exponents : List (Datum α)) → (p : Product α) →
      Except (Error α) (Product α)
  | _, [], p => .ok p
  | arguments, d :: exponents, p =>
    match d.integer?, arguments with
    | none, _ => .error .wrongType
    | some n, argument :: rest => do
      let q ← mulPower single argument n.toNat p
      mulPowers single rest exponents q
    | some n, [] => if 0 < n then .error .outOfRange else mulPowers single [] exponents p

/-- Adds a product to a sum of values. -/
def addTo (sum : Tensor α) : Product α → Except (Error α) (Tensor α)
  | values t => orShapeMismatch (Tensor.zipWith (· + ·) sum t)
  | data d => combine (· + ·) sum d

end Product

namespace Field

instance {α : Type} : Inhabited (Field α) := ⟨constant .null⟩

variable {α : Type} [Scalar α]

/-- The sum of monomials at the points of a sample. It starts from nothing of the first coordinate,
so that a point without a finite one has no value. -/
def sumTerms (terms : List (Monomial α)) (s : Sample α) : Except (Error α) (Tensor α) :=
  match s.coordinates with
  | [] => .error .outOfRange
  | x :: _ =>
    terms.foldlM (fun sum term => do
      let p ← Product.mulPowers s.single s.arguments term.exponents (.data term.coefficient)
      p.addTo sum) (x.map (0 * ·))

mutual

/-- The values of a field as an array of data. -/
def values (s : Sample α) : Field α → Except (Error α) (DataArray α)
  | polynomial terms => (sumTerms terms s).map .ofReals
  | vector components =>
    match componentValues s components with
    | .error e => .error e
    | .ok arrays => DataArray.stack arrays
  | constant value => DataArray.ofDatum value
  | function f => (f s).map .ofReals

def componentValues (s : Sample α) : List (Field α) → Except (Error α) (List (DataArray α))
  | [] => .ok []
  | f :: fs => do
    let a ← values s f
    let arrays ← componentValues s fs
    pure (a :: arrays)

end

/-- The real values of a field. A given value that stands alone is read item by item. -/
def eval (s : Sample α) : Field α → Except (Error α) (Tensor α)
  | constant value => value.toReals
  | f => (f.values s).bind DataArray.toReals

end Field
end WeakForm

import WeakForm.Linear.Elimination
import WeakForm.Value.NumberArray

/-!
# Powers of matrices

A square matrix has a power for every whole exponent, a negative one by way of its inverse. The
inverse of a complex matrix is found as a real one of twice the size.
-/

namespace WeakForm

namespace DenseMatrix

variable {α : Type} [Scalar α]

/-- The real matrix `[X, -Y; Y, X]` of a complex matrix `X + iY`. -/
def ofComplex (A : DenseMatrix (ComplexPair α)) : DenseMatrix α :=
  ofFn (2 * A.rows) (2 * A.cols) fun i j =>
    let z := A.entry (i % A.rows) (j % A.cols)
    if i < A.rows then
      if j < A.cols then z.re else -z.im
    else if j < A.cols then z.im else z.re

def complexInverse? (A : DenseMatrix (ComplexPair α)) : Option (DenseMatrix (ComplexPair α)) :=
  (ofComplex A).inverse?.map fun B =>
    ofFn A.rows A.cols fun i j => ⟨B.entry i j, B.entry (A.rows + i) j⟩

end DenseMatrix

namespace NumberArray

variable {α : Type} [Scalar α]

/-- The product of the repeated squares that the binary digits of the exponent select, the last
digit first; `fuel` bounds their number. -/
def squarings : (fuel exponent : Nat) → (product : Option (NumberArray α)) →
    (square : NumberArray α) → Except (Error α) (NumberArray α)
  | 0, _, product, square => .ok (product.getD square)
  | fuel + 1, n, product, square => do
    let next ←
      if n % 2 = 0 then pure product
      else
        match product with
        | none => pure (some square)
        | some p => (p.mul square).map some
    if n ≤ 1 then pure (next.getD square)
    else
      let squared ← square.mul square
      squarings fuel (n / 2) next squared

/-- The identity matrices of the size and kind of a stack of square matrices. -/
def identities (a : NumberArray α) : Except (Error α) (NumberArray α) :=
  orShapeMismatch <|
    match a with
    | flags t => (t.mapMatrices? fun A => some (.identity A.rows)).map flags
    | integers t => (t.mapMatrices? fun A => some (.identity A.rows)).map integers
    | naturals t => (t.mapMatrices? fun A => some (.identity A.rows)).map naturals
    | reals t => (t.mapMatrices? fun A => some (.identity A.rows)).map reals
    | complexes t => (t.mapMatrices? fun A => some (.identity A.rows)).map complexes
    | mixed t => (t.mapMatrices? fun A => some (.identity A.rows)).map mixed

/-- Natural powers of a square matrix or of a stack of them. The third power is the square times
the matrix. -/
def naturalPower (a : NumberArray α) (n : Nat) : Except (Error α) (NumberArray α) :=
  if n = 0 then a.identities
  else if n = 3 then do
    let squared ← a.mul a
    squared.mul a
  else squarings n n none a

/-- The inverse of every matrix of a stack; mixed arrays have none. -/
def inverse (a : NumberArray α) : Except (Error α) (NumberArray α) :=
  let inverted : Option (NumberArray α) :=
    match a with
    | complexes t => (t.mapMatrices? DenseMatrix.complexInverse?).map complexes
    | a => (a.realParts.mapMatrices? DenseMatrix.inverse?).map reals
  match a, inverted with
  | mixed _, _ => .error .wrongType
  | _, some b => .ok b
  | _, none => .error .singularMatrix

/-- Powers of square matrices. Stacks of them must not be mixed. -/
def power (a : NumberArray α) (n : Int) : Except (Error α) (NumberArray α) :=
  match Tensor.lastTwo? a.shape with
  | none => .error .nonSquareMatrix
  | some (lead, rows, cols) =>
    if rows ≠ cols then .error .nonSquareMatrix
    else if a.kind = .mixed ∧ lead ≠ [] then .error .mixedStack
    else if 0 ≤ n then a.naturalPower n.toNat
    else
      match a.inverse with
      | .error e => .error e
      | .ok b => b.naturalPower (-n).toNat

end NumberArray
end WeakForm

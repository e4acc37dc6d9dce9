import WeakForm.Datum.Entries
import WeakForm.Linear.Elimination
import WeakForm.Value.NumberArray

/-!
# Matrices of numbers

All entries of a sparse matrix are of one kind. As for arrays, two matrices are combined in the
wider of their kinds, where whole entries wrap around at the length of a word. A complex system of
equations is a real one of twice the size.
-/

namespace WeakForm

namespace SparseMatrix

variable {α : Type} [Scalar α]

/-- The real matrix `[X, -Y; Y, X]` of a complex matrix `X + iY`. -/
def ofComplex (A : SparseMatrix (ComplexPair α)) : SparseMatrix α :=
  let upper := A.data.map fun row =>
    (row.map fun e => (e.1, e.2.re)) ++ row.map fun e => (A.cols + e.1, -e.2.im)
  let lower := A.data.map fun row =>
    (row.map fun e => (e.1, e.2.im)) ++ row.map fun e => (A.cols + e.1, e.2.re)
  ⟨2 * A.rows, 2 * A.cols, upper ++ lower⟩

/-- The solution of a complex system. -/
def complexSolve? (A : SparseMatrix (ComplexPair α)) (b : List (ComplexPair α)) :
    Option (List (ComplexPair α)) :=
  ((ofComplex A).solve? ((b.map ComplexPair.re) ++ b.map ComplexPair.im)).map fun x =>
    List.zipWith ComplexPair.mk (x.take A.cols) (x.drop A.cols)

end SparseMatrix

namespace NumberArray

variable {α : Type} [Scalar α]

/-- The array of a datum, in the kind in which its numbers are put together. Leaves that are no
numbers are an error. -/
def ofData (d : Datum α) : Except (Error α) (NumberArray α) := do
  let t ← d.entries fun leaf =>
    match Number.ofDatum? leaf with
    | some x => .ok x
    | none => .error .nonNumeric
  match t.data.toList.map fun x => (ofNumber x).kind with
  | [] => pure (reals (t.map fun x => x.toComplex.re))
  | kind :: kinds => pure ((mixed t).castTo (kinds.foldl NumberKind.wider kind))

end NumberArray

inductive NumberMatrix (α : Type) where
  | flags (A : SparseMatrix Truth)
  | wholes (A : SparseMatrix (Whole α))
  | naturals (A : SparseMatrix (Natural α))
  | reals (A : SparseMatrix α)
  | complexes (A : SparseMatrix (ComplexPair α))

namespace NumberMatrix

variable {α : Type}

def kind : NumberMatrix α → NumberKind
  | flags _ => .flag
  | wholes _ => .integer
  | naturals _ => .natural
  | reals _ => .real
  | complexes _ => .complex

/-- The entries as plain numbers. -/
def numbers : NumberMatrix α → SparseMatrix (Number α)
  | flags A => A.map fun b => .flag b.holds
  | wholes A => A.map fun n => .integer n.value
  | naturals A => A.map fun n => .integer n.value
  | reals A => A.map .real
  | complexes A => A.map .complex

def rows : NumberMatrix α → Nat
  | flags A => A.rows
  | wholes A => A.rows
  | naturals A => A.rows
  | reals A => A.rows
  | complexes A => A.rows

def cols : NumberMatrix α → Nat
  | flags A => A.cols
  | wholes A => A.cols
  | naturals A => A.cols
  | reals A => A.cols
  | complexes A => A.cols

variable [Scalar α]

def toWholes : NumberMatrix α → SparseMatrix (Whole α)
  | wholes A => A
  | A => A.numbers.map fun x => .wrap x.wholePart

def toNaturals : NumberMatrix α → SparseMatrix (Natural α)
  | naturals A => A
  | A => A.numbers.map fun x => .wrap x.wholePart

/-- The entries as real numbers; of complex ones the real part. -/
def toReals : NumberMatrix α → SparseMatrix α
  | reals A => A
  | A => A.numbers.map fun x => x.toComplex.re

def toComplexes : NumberMatrix α → SparseMatrix (ComplexPair α)
  | complexes A => A
  | A => A.numbers.map Number.toComplex

/-- An array with at most two axes as a matrix: a scalar has one entry, a vector is a row. Mixed
arrays have no matrix. -/
def ofArray : NumberArray α → Except (Error α) (NumberMatrix α)
  | .mixed _ => .error .nonNumeric
  | .flags t => ofTensor flags (fun b => !b.holds) t
  | .integers t => ofTensor wholes (fun n => n.value == 0) t
  | .naturals t => ofTensor naturals (fun n => n.value == 0) t
  | .reals t => ofTensor reals (Scalar.same · 0) t
  | .complexes t => ofTensor complexes ComplexPair.isZero t
where
  ofTensor {β : Type} [Zero β] (make : SparseMatrix β → NumberMatrix α) (isZero : β → Bool)
      (t : Tensor β) : Except (Error α) (NumberMatrix α) :=
    orShapeMismatch (t.atLeast2.toMatrix?.map fun M => make (.ofDenseBy isZero M))

/-- The product with a number. A whole number times whole entries has to be a word of theirs. -/
def scale (w : Number α) (A : NumberMatrix α) : Except (Error α) (NumberMatrix α) :=
  match w.counted, A with
  | .integer n, naturals A =>
    if Scalar.isNaturalWord α n then .ok (naturals (A.map fun e => .wrap (n * e.value)))
    else .error .overflow
  | x, complexes A => x.toReal.map fun c => complexes (A.map (ComplexPair.ofReal c * ·))
  | .integer n, reals A => (Number.realOfInteger n).map fun c => reals (A.scale c)
  | .integer n, A =>
    if Scalar.isWord α n then .ok (wholes (A.toWholes.map fun e => .wrap (n * e.value)))
    else .error .overflow
  | x, A => x.toReal.map fun c => reals (A.toReals.scale c)

/-- Combines two matrices of one size in the wider of their kinds, at least in whole numbers. -/
def combine (f : {β : Type} → [Add β] → [Sub β] → β → β → β) (A B : NumberMatrix α) :
    Except (Error α) (NumberMatrix α) :=
  if A.rows = B.rows ∧ A.cols = B.cols then
    .ok <|
      match A.kind.wider B.kind with
      | .flag | .integer => wholes (.combineBy (fun n => n.value == 0) f A.toWholes B.toWholes)
      | .natural => naturals (.combineBy (fun n => n.value == 0) f A.toNaturals B.toNaturals)
      | .real | .mixed => reals (.combine f A.toReals B.toReals)
      | .complex => complexes (.combineBy ComplexPair.isZero f A.toComplexes B.toComplexes)
  else .error .shapeMismatch

/-- Adds two matrices of one size. -/
def add (A B : NumberMatrix α) : Except (Error α) (NumberMatrix α) := combine (· + ·) A B

/-- Subtracts two matrices of one size. -/
def sub (A B : NumberMatrix α) : Except (Error α) (NumberMatrix α) := combine (· - ·) A B

/-- The product with a real vector of matching length. -/
def apply (A : NumberMatrix α) (u : Array α) : Except (Error α) (NumberArray α) :=
  if A.cols ≠ u.size then .error .shapeMismatch
  else
    match A with
    | complexes A => .ok (.complexes (.ofArray (A.mulVec (u.map ComplexPair.ofReal))))
    | A => .ok (.reals (.ofArray (A.toReals.mulVec u)))

end NumberMatrix
end WeakForm

import WeakForm.Linear.Sparse

/-!
# Elimination

Linear systems are solved by elimination with partial pivoting. An equation is a list of
coefficients and a value. The equation with the largest leading coefficient eliminates the first
unknown from all others, the smaller system is solved, and the first unknown follows by back
substitution. A system may fall apart into blocks that share no unknown; a value that is infinite or
undefined spreads over its own block, but not into others.
-/

namespace WeakForm

/-- The equation `Σ coefficients i * x i = value`. -/
structure Equation (α : Type) where
  /-- In the order of the unknowns; those that are left out at the end are zero. -/
  coefficients : List α
  value : α
  /-- The number of the block; all coefficients of unknowns of other blocks are zero. -/
  block : Nat
  /-- Whether no other unknown is in the block. -/
  alone : Bool

/-- How a system is stored. In a dense one an undefined coefficient is a pivot like any other, and
pivots divide; in a sparse one it is none, and equations are multiplied by the reciprocals of pivots
unless there is nothing to eliminate. -/
inductive Storage where
  | dense
  | sparse
  deriving DecidableEq, Repr

namespace Storage

variable {α : Type} [Scalar α]

/-- The size of a coefficient by which a pivot is chosen. -/
def size (storage : Storage) (c : α) : α :=
  if storage == .sparse && !Scalar.same c c then 0 else Scalar.abs c

/-- The quotient of a number and a pivot. -/
def quotient (storage : Storage) (alone : Bool) (x pivot : α) : α :=
  if storage == .sparse && !alone then x * (1 / pivot) else x / pivot

end Storage

namespace Equation

variable {α : Type} [Scalar α]

def lead (e : Equation α) : α := e.coefficients.headD 0

def isFinite (e : Equation α) : Bool :=
  e.coefficients.all Scalar.isFinite && Scalar.isFinite e.value

/-- The first equation with the largest leading coefficient, the number of equations before it,
and the other equations in their order. -/
def pivot? (storage : Storage) :
    List (Equation α) → Option (Nat × Equation α × List (Equation α))
  | [] => none
  | e :: rest =>
    match pivot? storage rest with
    | none => some (0, e, [])
    | some (k, p, others) =>
      if Scalar.less (storage.size e.lead) (storage.size p.lead) then some (k + 1, p, e :: others)
      else some (0, e, rest)

/-- Whether taking zero times an equation off another one changes nothing. -/
def isHarmless (storage : Storage) (p : Equation α) : Bool :=
  p.isFinite && Scalar.isFinite (storage.quotient p.alone 0 p.lead)

/-- The coefficients `cs - factor * qs`. -/
def subtract (factor : α) : (cs qs : List α) → List α
  | cs, [] => cs
  | [], q :: qs => (0 - factor * q) :: subtract factor [] qs
  | c :: cs, q :: qs => (c - factor * q) :: subtract factor cs qs

/-- All of `n` coefficients. -/
def padded (n : Nat) (cs : List α) : List α := cs ++ List.replicate (n - cs.length) 0

/-- Eliminates the first unknown of `e` with the help of `p`; `n` unknowns are left. Only a finite
factor makes nothing of coefficients that are zero. -/
def reduce (storage : Storage) (n : Nat) (harmless : Bool) (p e : Equation α) : Equation α :=
  if Scalar.same e.lead 0 && (harmless || e.block != p.block) then
    { e with coefficients := e.coefficients.tail }
  else
    let factor := storage.quotient p.alone e.lead p.lead
    let qs := p.coefficients.tail
    { e with
      coefficients := subtract factor e.coefficients.tail
        (if Scalar.isFinite factor then qs else padded n qs)
      value := e.value - factor * p.value }

/-- Sum of the products of coefficients and unknowns, of which those of other blocks take no
part. -/
def dot (block : Nat) : (blocks : List Nat) → List α → List α → α
  | b :: bs, cs, x :: xs =>
    let c := cs.headD 0
    if Scalar.same c 0 && b != block then dot block bs cs.tail xs
    else c * x + dot block bs cs.tail xs
  | _, _, _ => 0

/-- The first unknown of `p` when the others are known. -/
def backSubstitute (storage : Storage) (p : Equation α) (blocks : List Nat) (xs : List α) : α :=
  storage.quotient p.alone (p.value - dot p.block blocks p.coefficients.tail xs) p.lead

/-- The solution of as many equations as there are unknowns, given by their blocks; none when a
pivot is zero. -/
def solve (storage : Storage) : (blocks : List Nat) → List (Equation α) → Option (List α)
  | [], _ => some []
  | _ :: blocks, equations =>
    match pivot? storage equations with
    | none => none
    | some (_, p, others) =>
      if Scalar.same (storage.size p.lead) 0 then none
      else
        let reduced := others.map (reduce storage blocks.length (p.isHarmless storage) p)
        match solve storage blocks reduced with
        | none => none
        | some xs => some (backSubstitute storage p blocks xs :: xs)

/-- The product of the pivots, with a sign for their moves; none when a pivot is zero. -/
def pivotProduct : (n : Nat) → List (Equation α) → Option α
  | 0, _ => some 1
  | n + 1, equations =>
    match pivot? .dense equations with
    | none => none
    | some (k, p, others) =>
      if Scalar.same p.lead 0 then none
      else
        let reduced := others.map (reduce .dense n (p.isHarmless .dense) p)
        (pivotProduct n reduced).map fun minor =>
          if k % 2 == 0 then p.lead * minor else -(p.lead * minor)

end Equation

namespace DenseMatrix

variable {α : Type} [Scalar α]

/-- The equations `A x = b`, which are all in one block. -/
def equations (A : DenseMatrix α) (b : Nat → α) : List (Equation α) :=
  (List.range A.rows).map fun i => ⟨A.row i, b i, 0, false⟩

/-- The determinant of a square matrix. -/
def det (A : DenseMatrix α) : α := (Equation.pivotProduct A.rows (A.equations fun _ => 0)).getD 0

/-- The solution of `A x = b` for a square matrix. -/
def solve? (A : DenseMatrix α) (b : Nat → α) : Option (List α) :=
  Equation.solve .dense (List.replicate A.rows 0) (A.equations b)

/-- The matrix `X` with `A X = B` for a square matrix `A`. -/
def solveMatrix? (A B : DenseMatrix α) : Option (DenseMatrix α) :=
  ((List.range B.cols).mapM fun j => A.solve? fun i => B.entry i j).map fun columns =>
    ofFn A.rows B.cols fun i j => (columns.getD j []).getD i 0

def inverse? (A : DenseMatrix α) : Option (DenseMatrix α) := A.solveMatrix? (identity A.rows)

end DenseMatrix

/-!
## Sparse systems

Two columns of a sparse matrix are in one block when a row stores an entry in both, or when a chain
of such columns links them. The entries of a row are all in one block, so the system falls apart
into its blocks.
-/

namespace SparseMatrix

/-- Makes the labels of the listed columns equal, and with them those of all columns that had one of
these labels. -/
def joinLabels (labels : Array Nat) (columns : List Nat) : Array Nat :=
  match columns.map fun j => labels.getD j 0 with
  | [] => labels
  | l :: others =>
    if others.all (· == l) then labels else labels.map fun k => if others.contains k then l else k

variable {α : Type}

/-- The label of each column; columns have the same one when they are in one block. -/
def columnLabels (A : SparseMatrix α) : Array Nat :=
  A.data.foldl (fun labels row => joinLabels labels row.columns) (Array.range A.cols)

variable [Scalar α]

/-- The equations `A x = b`, where blocks have the labels of their columns. -/
def equations (A : SparseMatrix α) (labels : Array Nat) (b : List α) : List (Equation α) :=
  let all := labels.toList
  let values := b.toArray
  (List.range A.rows).map fun i =>
    let columns := (A.data.getD i []).columns
    let block := (columns.head?.map fun j => labels.getD j 0).getD A.cols
    let width := (columns.map (· + 1)).foldl max 0
    ⟨(List.range width).map (A.entry i), values.getD i 0, block, all.count block == 1⟩

/-- The solution of `A x = b` for a square matrix; none when it is singular. -/
def solve? (A : SparseMatrix α) (b : List α) : Option (List α) :=
  let labels := A.columnLabels
  Equation.solve .sparse labels.toList (A.equations labels b)

end SparseMatrix
end WeakForm

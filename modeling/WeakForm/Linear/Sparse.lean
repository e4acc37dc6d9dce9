import WeakForm.Linear.Dense

/-!
# Sparse matrices

A sparse matrix stores some of its entries, row by row, and all others are zero. Which entries are
stored matters: a product with a vector skips the others, so an unstored entry hides even an
undefined value. `stored?` is the view through which all operations are described.
-/

namespace WeakForm

/-- One row: columns with their stored entries. -/
abbrev SparseRow (α : Type) := List (Nat × α)

structure SparseMatrix (α : Type) where
  rows : Nat
  cols : Nat
  data : Array (SparseRow α)

namespace SparseRow

variable {α : Type}

/-- The row that stores `g j` in the listed columns `j`, where it is defined. -/
def tabulate (columns : List Nat) (g : Nat → Option α) : SparseRow α :=
  columns.filterMap fun j => (g j).map fun v => (j, v)

theorem lookup_tabulate (columns : List Nat) (g : Nat → Option α) (j : Nat) :
    (tabulate columns g).lookup j = if j ∈ columns then g j else none := by
  induction columns with
  | nil => rfl
  | cons k ks ih =>
    rw [tabulate, List.filterMap_cons] at *
    by_cases hjk : j = k
    · subst hjk
      cases hg : g j with
      | none =>
        simp only [Option.map_none]
        rw [show (List.filterMap (fun j => (g j).map fun v => (j, v)) ks).lookup j =
          if j ∈ ks then g j else none from ih]
        simp [hg]
      | some v => simp
    · cases hg : g k with
      | none =>
        simp only [Option.map_none]
        rw [show (List.filterMap (fun j => (g j).map fun v => (j, v)) ks).lookup j =
          if j ∈ ks then g j else none from ih]
        simp [hjk]
      | some v =>
        simp only [Option.map_some, List.lookup_cons]
        rw [show (j == k) = false by simpa using hjk]
        simp only
        rw [show (List.filterMap (fun j => (g j).map fun v => (j, v)) ks).lookup j =
          if j ∈ ks then g j else none from ih]
        simp [hjk]

def columns (row : SparseRow α) : List Nat := row.map Prod.fst

/-- Changes the entry in column `j`, which may become unstored. -/
def alter (row : SparseRow α) (j : Nat) (f : Option α → Option α) : SparseRow α :=
  tabulate (if row.columns.contains j then row.columns else row.columns ++ [j]) fun k =>
    if k = j then f (row.lookup j) else row.lookup k

end SparseRow

namespace SparseMatrix

variable {α : Type}

/-- The stored entry in row `i` and column `j`. -/
def stored? (A : SparseMatrix α) (i j : Nat) : Option α := (A.data.getD i []).lookup j

def entry [Zero α] (A : SparseMatrix α) (i j : Nat) : α := (A.stored? i j).getD 0

/-- The matrix that stores nothing. -/
def empty (m n : Nat) : SparseMatrix α := ⟨m, n, Array.replicate m []⟩

/-- Changes the entry in row `i` and column `j`. -/
def alter (A : SparseMatrix α) (i j : Nat) (f : Option α → Option α) : SparseMatrix α :=
  ⟨A.rows, A.cols, A.data.modify i fun row => row.alter j f⟩

/-- A row, a column and a value. -/
structure Triplet (α : Type) where
  row : Nat
  col : Nat
  value : α

/-- Adds a value to an entry and stores the sum. -/
def accumulate [Zero α] [Add α] (A : SparseMatrix α) (t : Triplet α) : SparseMatrix α :=
  A.alter t.row t.col fun old => some (old.getD 0 + t.value)

/-- The matrix of a list of triplets; values at the same place add up. -/
def ofTriplets [Zero α] [Add α] (m n : Nat) (ts : List (Triplet α)) : SparseMatrix α :=
  ts.foldl accumulate (empty m n)

/-- Applies a function to the stored entries. -/
def map {β : Type} (f : α → β) (A : SparseMatrix α) : SparseMatrix β :=
  ⟨A.rows, A.cols, A.data.map fun row => row.map fun e => (e.1, f e.2)⟩

section Entries

variable [Zero α] (isZero : α → Bool)

/-- A value that is stored unless it is zero. -/
def unlessZero (v : α) : Option α := if isZero v then none else some v

/-- Stores the nonzero entries of a dense matrix. -/
def ofDenseBy (A : DenseMatrix α) : SparseMatrix α :=
  ⟨A.rows, A.cols, Array.ofFn fun i : Fin A.rows =>
    SparseRow.tabulate (List.range A.cols) fun j => unlessZero isZero (A.entry i j)⟩

/-- Combines two matrices of the same size entry by entry where either stores one; zero results
are not stored. -/
def combineBy (f : α → α → α) (A B : SparseMatrix α) : SparseMatrix α :=
  ⟨A.rows, A.cols, Array.ofFn fun i : Fin A.rows =>
    let a := A.data.getD i []
    let b := B.data.getD i []
    SparseRow.tabulate (a.columns ++ b.columns) fun j =>
      unlessZero isZero (f (A.entry i j) (B.entry i j))⟩

end Entries

section Products

variable [Zero α] [Add α] [Mul α]

/-- The product with a vector in row `i`; entries that are not stored take no part. -/
def rowDot (A : SparseMatrix α) (x : Nat → α) (i : Nat) : α :=
  sumTo A.cols fun j =>
    match A.stored? i j with
    | some v => v * x j
    | none => 0

def mulVec (A : SparseMatrix α) (x : Array α) : Array α :=
  Array.ofFn fun i : Fin A.rows => A.rowDot (fun j => x.getD j 0) i

end Products

section Arithmetic

variable [Scalar α]

def nonzero? (v : α) : Option α := unlessZero (Scalar.same · 0) v

def ofDense (A : DenseMatrix α) : SparseMatrix α := ofDenseBy (Scalar.same · 0) A

def toDense (A : SparseMatrix α) : DenseMatrix α := DenseMatrix.ofFn A.rows A.cols A.entry

/-- Overwrites an entry; a zero leaves nothing stored. -/
def assign (A : SparseMatrix α) (t : Triplet α) : SparseMatrix α :=
  A.alter t.row t.col fun _ => nonzero? t.value

def scale (c : α) (A : SparseMatrix α) : SparseMatrix α := A.map (c * ·)

def combine (f : α → α → α) (A B : SparseMatrix α) : SparseMatrix α :=
  combineBy (Scalar.same · 0) f A B

def add (A B : SparseMatrix α) : SparseMatrix α := combine (· + ·) A B

def sub (A B : SparseMatrix α) : SparseMatrix α := combine (· - ·) A B

end Arithmetic

end SparseMatrix
end WeakForm

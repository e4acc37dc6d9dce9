import WeakForm.Linear.Dense

/-!
# Pseudo-inverses

The Moore-Penrose inverse of a matrix with at most two rows or at most two columns. The rows are
scaled by their largest entry. Of two rows the shorter one is split into a multiple of the longer
one and a part orthogonal to it; where that part is negligible the rows count as parallel.
-/

namespace WeakForm

namespace DenseMatrix

variable {α : Type} [Scalar α]

def inner (u v : List α) : α := (List.zipWith (· * ·) u v).foldl (· + ·) 0

/-- The vector `u - c v`. -/
def subScaled (u : List α) (c : α) (v : List α) : List α :=
  List.zipWith (fun x y => x - c * y) u v

/-- The multiple of `p` and the vector orthogonal to `p` that add up to `o`. What rounding left of
`p` in the vector is split off once more. -/
def split (p o : List α) : α × List α :=
  let c := inner p o / inner p p
  let q := subScaled o c p
  let d := inner p q / inner p p
  (c + d, subScaled q d p)

/-- Whether two orthogonal vectors `p` and `q` span a plane only by rounding, where `s` is the
squared norm of the matrix that they come from. -/
def negligible (p q : List α) (s : α) : Bool :=
  Scalar.atMost (inner p p * inner q q) (Scalar.precision * Scalar.precision * (s * s))

/-- The two columns of the pseudo-inverse of the matrix with the rows `p` and `o`, of which `p` is
not shorter than `o`. -/
def pairInverse (p o : List α) : List α × List α :=
  let (c, q) := split p o
  let s := inner p p + inner o o
  if negligible p q s then (p.map fun x => x / s, o.map fun x => x / s)
  else
    let second := q.map fun x => x / inner q q
    (subScaled (p.map fun x => x / inner p p) c second, second)

/-- The largest size of an entry. -/
def largest (A : DenseMatrix α) : α :=
  A.data.foldl (fun m x => if Scalar.less m (Scalar.abs x) then Scalar.abs x else m) 0

/-- The pseudo-inverse of a matrix with at most two rows. A Jacobian has a row for each of the one or two
dimensions of its reference element, so the last case is met for matrices without rows only. -/
def wideInverse (A : DenseMatrix α) : DenseMatrix α :=
  let m := A.largest
  if Scalar.same m 0 then zero A.cols A.rows
  else
    match A.toRows.map fun r => r.map fun x => x / m with
    | [r] =>
      let length := Scalar.sqrt (inner r r)
      let stretch := 1 / (length * m)
      ofFn A.cols 1 fun i _ => r.getD i 0 / length * stretch
    | [r, s] =>
      let columns :=
        if Scalar.less (inner r r) (inner s s) then (pairInverse s r).swap else pairInverse r s
      ofFn A.cols 2 fun i j => (if j = 0 then columns.1 else columns.2).getD i 0 / m
    | _ => zero A.cols A.rows

/-- The Moore-Penrose inverse of a matrix with at most two rows or at most two columns. -/
def pseudoInverse (A : DenseMatrix α) : DenseMatrix α :=
  if A.rows ≤ A.cols then A.wideInverse else A.transpose.wideInverse.transpose

end DenseMatrix
end WeakForm

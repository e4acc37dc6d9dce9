import WeakForm.Assembly.Block
import WeakForm.Linear.Sparse

/-!
# Assembly

The global matrix is assembled in one of two ways. Direct assembly adds each block to the matrix at
once: it reads the entries at the places of the block, adds the block and writes the sums back,
entry by entry. Triplet assembly first collects the rows, columns and values of all blocks and adds
up the values at each place. Vectors are always added up.
-/

/-!
## Index lists

Blocks of different sizes are stored one after the other. `dof` holds the indices of all blocks and
`ptr` the place where each block starts, followed by the end of the last one. The index lists name
the row and the column of every entry of every block, row by row; they are written into arrays of
the final length at a running place.
-/

namespace WeakForm
namespace Assembly

/-- Index lists that are filled from the front; `next` is the next free place. -/
structure IndexLists where
  rows : Array Nat
  cols : Array Nat
  next : Nat
  deriving DecidableEq, Repr

namespace IndexLists

def blank (size : Nat) : IndexLists := ⟨Array.replicate size 0, Array.replicate size 0, 0⟩

/-- Writes a row and a column at the next place. -/
def write (lists : IndexLists) (row col : Nat) : IndexLists :=
  ⟨lists.rows.setIfInBounds lists.next row, lists.cols.setIfInBounds lists.next col,
    lists.next + 1⟩

end IndexLists

/-- The positions from `a` up to `b`, the latter excluded. -/
def span (a b : Nat) : List Nat := List.range' a (b - a)

/-- How a loop reads arrays, and how it writes a row and a column at the next place of its lists. -/
structure Access (m : Type → Type) (σ : Type) where
  read : Array Nat → Nat → m Nat
  write : σ → Nat → Nat → m σ

namespace Access

variable {m : Type → Type} [Monad m] {σ : Type} (access : Access m σ) (dof ptr : Array Nat)

/-- Number of entries of all blocks. -/
def entryCount : m Nat :=
  (List.range (ptr.size - 1)).foldlM (fun count e => do
    let n := (← access.read ptr (e + 1)) - (← access.read ptr e)
    pure (count + n * n)) 0

/-- Writes the indices of all entries of a block. -/
def writeBlock (lists : σ) (e : Nat) : m σ := do
  let positions := span (← access.read ptr e) (← access.read ptr (e + 1))
  positions.foldlM (fun lists i =>
    positions.foldlM (fun lists j => do
      access.write lists (← access.read dof i) (← access.read dof j)) lists) lists

/-- Writes the row and the column of every entry of every block into lists of just this length. -/
def writeBlocks (blank : Nat → σ) : m σ := do
  (List.range (ptr.size - 1)).foldlM (access.writeBlock dof ptr) (blank (← access.entryCount ptr))

end Access

/-- Nothing is checked when an array is read or written. -/
def unchecked : Access Id IndexLists := ⟨fun xs i => pure (xs.getD i 0), fun lists row col =>
  pure (lists.write row col)⟩

/-- The row and the column of every entry of every block. -/
def tripletIndices (dof ptr : Array Nat) : IndexLists := (unchecked.writeBlocks dof ptr .blank).run

/-- The places where blocks of the given sizes start, and the end of the last one. -/
def starts (sizes : List Nat) : Array Nat :=
  sizes.foldl (fun ptr n => ptr.push (ptr.back?.getD 0 + n)) #[0]

end Assembly
end WeakForm

/-!
## Direct and triplet assembly
-/

namespace WeakForm

inductive AssemblyMethod where
  | triplet
  | direct
  deriving DecidableEq, Repr

namespace AssemblyMethod

def name : AssemblyMethod → String
  | triplet => "triplet"
  | direct => "direct"

def ofName? : String → Option AssemblyMethod
  | "triplet" => some triplet
  | "direct" => some direct
  | _ => none

end AssemblyMethod

namespace Assembly

variable {α : Type} [Scalar α]

/-- Pairs of positions in a list of `n` items, row by row. -/
def positionPairs (n : Nat) : List (Nat × Nat) :=
  (List.range n).flatMap fun p => (List.range n).map fun q => (p, q)

/-- Adds a block to a matrix: all entries are read before any is written. -/
def addDirect (A : SparseMatrix α) (b : Block (DenseMatrix α)) : SparseMatrix α :=
  (positionPairs b.dofs.length).foldl (fun B pq =>
    let i := b.dofs.getD pq.1 0
    let j := b.dofs.getD pq.2 0
    B.assign ⟨i, j, A.entry i j + b.entries.entry pq.1 pq.2⟩) A

/-- The matrix of a list of blocks, added one after the other. -/
def direct (n : Nat) (blocks : List (Block (DenseMatrix α))) : SparseMatrix α :=
  blocks.foldl addDirect (.empty n n)

/-- The rows, columns and values of all entries of a list of blocks. -/
def triplets (blocks : List (Block (DenseMatrix α))) : List (SparseMatrix.Triplet α) :=
  let dof := (blocks.flatMap Block.dofs).toArray
  let lists := tripletIndices dof (starts (blocks.map fun b => b.dofs.length))
  let values := blocks.flatMap fun b => b.entries.data.toList
  List.zipWith (fun ij v => ⟨ij.1, ij.2, v⟩) (lists.rows.toList.zip lists.cols.toList) values

/-- The matrix of a list of blocks; values at the same place add up. -/
def triplet (n : Nat) (blocks : List (Block (DenseMatrix α))) : SparseMatrix α :=
  .ofTriplets n n (triplets blocks)

/-- Adds a vector to the entries at its indices, one after the other. -/
def scatter (f : Array α) (b : Block (Array α)) : Array α :=
  (b.dofs.zip b.entries.toList).foldl (fun f dv => f.modify dv.1 (· + dv.2)) f

/-- The global matrix of a kernel over all cells or over a tagged boundary. -/
def matrix (m : Mesh α) (kernel : Kernel α) (boundary : Option TagId) (method : AssemblyMethod) :
    Except (Error α) (SparseMatrix α) :=
  match method with
  | .direct => do
    checkCapacity 8 m.dofs
    let blocks ← matrixBlocks m kernel boundary
    pure (direct m.dofs blocks)
  | .triplet => do
    let blocks ← matrixBlocks m kernel boundary
    if blocks.isEmpty then m.zeroMatrix else pure (triplet m.dofs blocks)

/-- The global matrix for the method that a text names. -/
def matrixBy (m : Mesh α) (kernel : Kernel α) (boundary : Option TagId) (method : String) :
    Except (Error α) (SparseMatrix α) :=
  match AssemblyMethod.ofName? method with
  | some method => matrix m kernel boundary method
  | none => .error (.unknownMethod method)

/-- The global vector of a kernel over all cells or over a tagged boundary. -/
def vector (m : Mesh α) (kernel : Kernel α) (boundary : Option TagId) :
    Except (Error α) (Array α) := do
  checkCapacity 8 m.dofs
  let blocks ← vectorBlocks m kernel boundary
  pure (blocks.foldl scatter (Array.replicate m.dofs 0))

end Assembly
end WeakForm

import WeakForm.Integration
import WeakForm.Mesh.Selection

/-!
# Local blocks

The global system is a sum of local blocks, one per cell, each with the indices of its degrees of
freedom. Over a tagged boundary the integrals of all sides of a cell are first added up in a block
of the cell.
-/

namespace WeakForm
namespace Assembly

/-- Entries with their global indices. -/
structure Block (β : Type) where
  dofs : List Nat
  entries : β

variable {α : Type}

/-- The global indices of the degrees of freedom of an element. -/
def globalDofs (e : Element α) : List Nat := e.getDof.map Int.toNat

/-- Groups sides by their cells, in the order in which the cells first occur. -/
def groupSides (sides : List (Nat × Nat)) : List (Nat × List Nat) :=
  (sides.map Prod.fst).eraseDups.map fun id =>
    (id, (sides.filter fun s => s.1 == id).map Prod.snd)

variable [Scalar α]

/-- The block of an element, provided that there may be so many indices. -/
def blockOf {β : Type} (entries : Element α → Except (Error α) β) (e : Element α) :
    Except (Error α) (Block β) := do
  checkCapacity 8 e.dofs
  let values ← entries e
  pure ⟨globalDofs e, values⟩

/-- Adds a matrix at the given places of a larger one. -/
def addAt (A : DenseMatrix α) (places : List Nat) (K : DenseMatrix α) : DenseMatrix α :=
  .ofFn A.rows A.cols fun i j =>
    match places.idxOf? i, places.idxOf? j with
    | some p, some q => A.entry i j + K.entry p q
    | _, _ => A.entry i j

/-- Adds a vector at the given places of a larger one. -/
def addVectorAt (v : Array α) (places : List Nat) (k : Array α) : Array α :=
  v.mapIdx fun i x =>
    match places.idxOf? i with
    | some p => x + k.getD p 0
    | none => x

/-- The integral over side `s` of a cell, with the places of its entries in those of the cell. -/
def sidePart {β : Type} (integral : Element α → Except (Error α) β) (e : Element α) (s : Nat) :
    Except (Error α) (Block β) := do
  let side ← e.buildSide s
  let places ← e.sideDof s
  let entries ← integral side
  pure ⟨places.map Int.toNat, entries⟩

/-- The cells of a tagged boundary with their tagged sides. -/
def boundaryGroups (m : Mesh α) (tag : TagId) :
    Except (Error α) (List (Element α × List Nat)) := do
  let r ← m.boundary tag
  (groupSides r.sides).mapM fun g => (m.cell g.1).map fun c => (c.element, g.2)

/-- The matrix of a cell for some of its sides. -/
def sideMatrix (kernel : Kernel α) (e : Element α) (sides : List Nat) :
    Except (Error α) (DenseMatrix α) := do
  checkCapacity 8 (e.dofs * e.dofs)
  let parts ← sides.mapM (sidePart kernel.localMatrix e)
  pure (parts.foldl (fun A p => addAt A p.dofs p.entries) (.zero e.dofs e.dofs))

/-- The vector of a cell for some of its sides. -/
def sideVector (kernel : Kernel α) (e : Element α) (sides : List Nat) :
    Except (Error α) (Array α) := do
  checkCapacity 8 e.dofs
  let parts ← sides.mapM (sidePart kernel.localVector e)
  pure (parts.foldl (fun v p => addVectorAt v p.dofs p.entries) (Array.replicate e.dofs 0))

/-- The blocks of all cells, or of those on a tagged boundary. -/
def matrixBlocks (m : Mesh α) (kernel : Kernel α) (boundary : Option TagId) :
    Except (Error α) (List (Block (DenseMatrix α))) :=
  match boundary with
  | none => m.cells.mapM fun c => blockOf kernel.localMatrix c.element
  | some tag => do
    let groups ← boundaryGroups m tag
    groups.mapM fun g => blockOf (sideMatrix kernel · g.2) g.1

/-- The vectors of all cells, or of those on a tagged boundary. -/
def vectorBlocks (m : Mesh α) (kernel : Kernel α) (boundary : Option TagId) :
    Except (Error α) (List (Block (Array α))) :=
  match boundary with
  | none => m.cells.mapM fun c => blockOf kernel.localVector c.element
  | some tag => do
    let groups ← boundaryGroups m tag
    groups.mapM fun g => blockOf (sideVector kernel · g.2) g.1

end Assembly
end WeakForm

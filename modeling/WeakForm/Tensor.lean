import WeakForm.Linear.Dense

/-!
# Arrays of any dimension

A tensor has a shape and stores its entries row by row. Two tensors of different shapes work
together when, read from the last axis, their lengths agree or one of them is one; the shorter one
is then repeated. Products contract the last axis with the last but one, and stacks of matrices
are multiplied matrix by matrix.
-/

namespace WeakForm

/-- Number of entries of a shape. -/
def volume : List Nat → Nat
  | [] => 1
  | n :: s => n * volume s

structure Tensor (β : Type) where
  shape : List Nat
  data : Array β
  size_data : data.size = volume shape

namespace Tensor

/-- No tensor is made with more axes. -/
def mostAxes : Nat := 64

/-- The indices of entry number `k`. -/
def unravel : (shape : List Nat) → (k : Nat) → List Nat
  | [], _ => []
  | _ :: s, k => (k / volume s) :: unravel s (k % volume s)

/-- The number of the entry with the given indices. -/
def ravel : (shape indices : List Nat) → Nat
  | _ :: s, i :: is => i * volume s + ravel s is
  | _, _ => 0

variable {β γ δ : Type}

def ofFn (shape : List Nat) (f : List Nat → β) : Tensor β :=
  ⟨shape, Array.ofFn fun k : Fin (volume shape) => f (unravel shape k), Array.size_ofFn⟩

def get [Zero β] (t : Tensor β) (indices : List Nat) : β := t.data.getD (ravel t.shape indices) 0

/-- The tensor without axes that holds one entry. -/
def scalar (x : β) : Tensor β := ⟨[], #[x], rfl⟩

def ofArray (data : Array β) : Tensor β := ⟨[data.size], data, by simp [volume]⟩

def map (f : β → γ) (t : Tensor β) : Tensor γ :=
  ⟨t.shape, t.data.map f, by rw [Array.size_map, t.size_data]⟩

/-- The only entry of a tensor with one entry. -/
def item? (t : Tensor β) : Option β := if t.data.size = 1 then t.data[0]? else none

def reshape? (t : Tensor β) (shape : List Nat) : Option (Tensor β) :=
  if h : t.data.size = volume shape then some ⟨shape, t.data, h⟩ else none

/-- The common shape of two shapes read from the last axis. -/
def broadcastReversed : List Nat → List Nat → Option (List Nat)
  | [], t => some t
  | s, [] => some s
  | m :: s, n :: t =>
    if m = n ∨ n = 1 then (broadcastReversed s t).map (m :: ·)
    else if m = 1 then (broadcastReversed s t).map (n :: ·)
    else none

def broadcastShape (s t : List Nat) : Option (List Nat) :=
  (broadcastReversed s.reverse t.reverse).map List.reverse

/-- Indices into a tensor of the given shape that is repeated along missing axes and axes of
length one. -/
def project (shape indices : List Nat) : List Nat :=
  List.zipWith (fun n i => if n = 1 then 0 else i) shape
    (indices.drop (indices.length - shape.length))

/-- Combines two tensors entry by entry. -/
def zipWith [Zero β] [Zero γ] (f : β → γ → δ) (a : Tensor β) (b : Tensor γ) :
    Option (Tensor δ) :=
  if h : a.shape = b.shape then
    some ⟨a.shape, Array.zipWith f a.data b.data, by
      rw [Array.size_zipWith, a.size_data, b.size_data, h, Nat.min_self]⟩
  else
    (broadcastShape a.shape b.shape).map fun shape =>
      ofFn shape fun is => f (a.get (project a.shape is)) (b.get (project b.shape is))

/-- The tensor repeated to a given shape, which its own shape must not exceed. -/
def broadcastTo? [Zero β] (t : Tensor β) (shape : List Nat) : Option (Tensor β) :=
  if broadcastShape t.shape shape = some shape then
    some (ofFn shape fun is => t.get (project t.shape is))
  else none

/-- Reverses the axes. A tensor with one axis becomes a row. -/
def transpose [Zero β] (t : Tensor β) : Tensor β :=
  match t.shape with
  | [n] => ofFn [1, n] fun is => t.get (is.drop 1)
  | shape => ofFn shape.reverse fun is => t.get is.reverse

def ofMatrix (A : DenseMatrix β) : Tensor β :=
  ⟨[A.rows, A.cols], A.data, by simp [volume, A.size_data]⟩

/-- A tensor with at least two axes: missing axes in front have length one. -/
def atLeast2 (t : Tensor β) : Tensor β :=
  match h : t.shape with
  | [] => ⟨[1, 1], t.data, by rw [t.size_data, h]; rfl⟩
  | [n] => ⟨[1, n], t.data, by rw [t.size_data, h]; simp [volume]⟩
  | _ => t

/-- A tensor with two axes as a matrix. -/
def toMatrix? (t : Tensor β) : Option (DenseMatrix β) :=
  match h : t.shape with
  | [m, n] => some ⟨m, n, t.data, by rw [t.size_data, h]; simp [volume]⟩
  | _ => none

/-- The leading axes, the last but one and the last. -/
def lastTwo? (shape : List Nat) : Option (List Nat × Nat × Nat) :=
  match shape.reverse with
  | n :: m :: lead => some (lead.reverse, m, n)
  | _ => none

/-- Matrix number `s` of a stack of matrices with `m` rows and `n` columns. -/
def matrixAt [Zero β] (t : Tensor β) (m n s : Nat) : DenseMatrix β :=
  DenseMatrix.ofFn m n fun i j => t.data.getD ((s * m + i) * n + j) 0

/-- Applies a function to every matrix of a stack. -/
def mapMatrices? [Zero β] (f : DenseMatrix β → Option (DenseMatrix γ)) (t : Tensor β) :
    Option (Tensor γ) := do
  let (lead, m, n) ← lastTwo? t.shape
  let images ← (List.range (volume lead)).mapM fun s => f (t.matrixAt m n s)
  (ofArray (images.flatMap fun A => A.data.toList).toArray).reshape? t.shape

/-- Products of stacks of matrices. -/
def mulStacks [Zero β] [Add β] [Mul β] (a b : Tensor β) : Option (Tensor β) := do
  let (leadA, m, k) ← lastTwo? a.shape
  let (leadB, k', n) ← lastTwo? b.shape
  if k = k' then
    let lead ← broadcastShape leadA leadB
    some <| ofFn (lead ++ [m, n]) fun is =>
      let stack := is.take lead.length
      let i := is.getD lead.length 0
      let j := is.getD (lead.length + 1) 0
      sumTo k fun l =>
        a.get (project leadA stack ++ [i, l]) * b.get (project leadB stack ++ [l, j])
  else none

/-- The product of two tensors with axes. A left factor with one axis is a row, a right factor
with one axis a column, and the product has no axis in their place. -/
def mul? [Zero β] [Add β] [Mul β] (a b : Tensor β) : Option (Tensor β) :=
  match a.toMatrix?, b.toMatrix? with
  | some A, some B => if A.cols = B.rows then some (ofMatrix (A.mul B)) else none
  | _, _ =>
    let asRow : Option (Tensor β) :=
      if a.shape.length = 1 then a.reshape? (1 :: a.shape) else some a
    let asColumn : Option (Tensor β) :=
      if b.shape.length = 1 then b.reshape? (b.shape ++ [1]) else some b
    match asRow, asColumn with
    | some a', some b' => do
      let p ← mulStacks a' b'
      let (lead, m, n) ← lastTwo? p.shape
      p.reshape? (lead ++ (if a.shape.length = 1 then [] else [m]) ++
        (if b.shape.length = 1 then [] else [n]))
    | _, _ => none

/-- Two tensors side by side along the last axis. -/
def beside? [Zero β] (a b : Tensor β) : Option (Tensor β) := do
  let (lead, m, n) ← lastTwo? a.shape
  let (lead', m', n') ← lastTwo? b.shape
  if lead = lead' ∧ m = m' then
    some <| ofFn (lead ++ [m, n + n']) fun is =>
      let front := is.take (lead.length + 1)
      let j := is.getD (lead.length + 1) 0
      if j < n then a.get (front ++ [j]) else b.get (front ++ [j - n])
  else none

/-- Two tensors on top of each other along the last axis but one. -/
def above? [Zero β] (a b : Tensor β) : Option (Tensor β) := do
  let (lead, m, n) ← lastTwo? a.shape
  let (lead', m', n') ← lastTwo? b.shape
  if lead = lead' ∧ n = n' then
    some <| ofFn (lead ++ [m + m', n]) fun is =>
      let front := is.take lead.length
      let i := is.getD lead.length 0
      let j := is.getD (lead.length + 1) 0
      if i < m then a.get (front ++ [i, j]) else b.get (front ++ [i - m, j])
  else none

/-- Folds a non-empty list of tensors. -/
def joinWith (f : Tensor β → Tensor β → Option (Tensor β)) :
    List (Tensor β) → Option (Tensor β)
  | [] => none
  | t :: ts => ts.foldlM f t

/-- Tensors of one shape along a new last axis. -/
def stackLast? (ts : List (Tensor β)) : Option (Tensor β) :=
  match ts with
  | [] => none
  | t :: rest =>
    if rest.all fun u => u.shape == t.shape then
      let entries := (List.range t.data.size).flatMap fun k => ts.filterMap fun u => u.data[k]?
      (ofArray entries.toArray).reshape? (t.shape ++ [ts.length])
    else none

/-- A tensor with at least `k` axes. -/
def padTo? (k : Nat) (t : Tensor β) : Option (Tensor β) :=
  t.reshape? (List.replicate (k - t.shape.length) 1 ++ t.shape)

/-- Puts blocks together: the tensors of each row side by side, the rows on top of each other. -/
def blocks? [Zero β] (rows : List (List (Tensor β))) : Option (Tensor β) := do
  let axes := (rows.flatten.map fun t => t.shape.length).foldl max 2
  let rows ← rows.mapM fun row => do
    let row ← row.mapM (padTo? axes)
    joinWith beside? row
  joinWith above? rows

end Tensor
end WeakForm

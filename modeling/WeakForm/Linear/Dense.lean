import WeakForm.Scalar

/-!
# Dense matrices

A dense matrix stores its entries row by row. Every operation is given by a formula for the entries
of its result; `entry_ofFn` reads such a formula back, and `ext` says that a matrix is determined
by its size and its entries.
-/

namespace WeakForm

structure DenseMatrix (α : Type) where
  rows : Nat
  cols : Nat
  data : Array α
  size_data : data.size = rows * cols

namespace DenseMatrix

variable {α β : Type}

def ofFn (m n : Nat) (f : Nat → Nat → α) : DenseMatrix α :=
  ⟨m, n, Array.ofFn fun k : Fin (m * n) => f (k / n) (k % n), Array.size_ofFn⟩

/-- The entry in row `i` and column `j`; zero outside the matrix. -/
def entry [Zero α] (A : DenseMatrix α) (i j : Nat) : α :=
  if j < A.cols then A.data.getD (i * A.cols + j) 0 else 0

@[simp] theorem rows_ofFn (m n : Nat) (f : Nat → Nat → α) : (ofFn m n f).rows = m := rfl

@[simp] theorem cols_ofFn (m n : Nat) (f : Nat → Nat → α) : (ofFn m n f).cols = n := rfl

theorem index_lt {m n i j : Nat} (hi : i < m) (hj : j < n) : i * n + j < m * n :=
  calc i * n + j < i * n + n := Nat.add_lt_add_left hj _
    _ = (i + 1) * n := (Nat.succ_mul i n).symm
    _ ≤ m * n := Nat.mul_le_mul_right n hi

/-- The row and the column of a place. -/
theorem index_div_mod {n j : Nat} (hj : j < n) (i : Nat) : (i * n + j) / n = i ∧ (i * n + j) % n = j := by
  rw [Nat.mul_comm, Nat.mul_add_div (Nat.zero_lt_of_lt hj), Nat.mul_add_mod, Nat.div_eq_of_lt hj,
    Nat.mod_eq_of_lt hj]
  exact ⟨rfl, rfl⟩

theorem entry_ofFn [Zero α] {m n i j : Nat} (f : Nat → Nat → α) (hi : i < m) (hj : j < n) :
    (ofFn m n f).entry i j = f i j := by
  have hk : i * n + j < m * n := index_lt hi hj
  obtain ⟨hd, hm⟩ := index_div_mod hj i
  simp only [entry, ofFn, hj, if_true]
  rw [Array.getD_eq_getD_getElem?, Array.getElem?_ofFn]
  simp [hk, hd, hm]

theorem entry_of_rows_le [Zero α] (A : DenseMatrix α) {i j : Nat} (hi : A.rows ≤ i) :
    A.entry i j = 0 := by
  unfold entry
  split
  · have : A.data.size ≤ i * A.cols + j := by
      rw [A.size_data]
      exact Nat.le_trans (Nat.mul_le_mul_right _ hi) (Nat.le_add_right _ _)
    rw [Array.getD_eq_getD_getElem?, Array.getElem?_eq_none this]
    rfl
  · rfl

theorem entry_of_cols_le [Zero α] (A : DenseMatrix α) {i j : Nat} (hj : A.cols ≤ j) :
    A.entry i j = 0 := by
  simp [entry, Nat.not_lt.mpr hj]

theorem ext [Zero α] {A B : DenseMatrix α} (hr : A.rows = B.rows) (hc : A.cols = B.cols)
    (h : ∀ i j, i < A.rows → j < A.cols → A.entry i j = B.entry i j) : A = B := by
  obtain ⟨m, n, a, ha⟩ := A
  obtain ⟨m', n', b, hb⟩ := B
  simp only at hr hc ha hb
  subst hr hc
  have hab : a = b := by
    apply Array.ext (by rw [ha, hb])
    intro k hka hkb
    have hn : 0 < n := Nat.pos_of_ne_zero fun h0 => by
      rw [ha, h0] at hka
      exact Nat.not_lt_zero _ hka
    have hi : k / n < m := (Nat.div_lt_iff_lt_mul hn).mpr (ha ▸ hka)
    have hj : k % n < n := Nat.mod_lt _ hn
    have hk : k / n * n + k % n = k := Nat.div_add_mod' k n
    have := h (k / n) (k % n) hi hj
    simpa [entry, hj, hk, hka, hkb] using this
  subst hab
  rfl

def map (f : α → β) (A : DenseMatrix α) : DenseMatrix β :=
  ⟨A.rows, A.cols, A.data.map f, by rw [Array.size_map, A.size_data]⟩

def toArray (A : DenseMatrix α) : Array α := A.data

section Formulas

variable [Zero α]

def transpose (A : DenseMatrix α) : DenseMatrix α :=
  ofFn A.cols A.rows fun i j => A.entry j i

def zero (m n : Nat) : DenseMatrix α := ofFn m n fun _ _ => 0

def identity [One α] (n : Nat) : DenseMatrix α := ofFn n n fun i j => if i = j then 1 else 0

def mul [Add α] [Mul α] (A B : DenseMatrix α) : DenseMatrix α :=
  ofFn A.rows B.cols fun i j => sumTo A.cols fun k => A.entry i k * B.entry k j

def add [Add α] (A B : DenseMatrix α) : DenseMatrix α :=
  ofFn A.rows A.cols fun i j => A.entry i j + B.entry i j

def scale [Mul α] (c : α) (A : DenseMatrix α) : DenseMatrix α :=
  ofFn A.rows A.cols fun i j => c * A.entry i j

def row (A : DenseMatrix α) (i : Nat) : List α := (List.range A.cols).map (A.entry i)

def column (A : DenseMatrix α) (j : Nat) : List α := (List.range A.rows).map (A.entry · j)

def toRows (A : DenseMatrix α) : List (List α) := (List.range A.rows).map A.row

/-- The matrix with `cols` columns and the given rows. -/
def ofRows (cols : Nat) (rows : List (List α)) : DenseMatrix α :=
  ofFn rows.length cols fun i j => (rows.getD i []).getD j 0

/-- The listed rows, in this order. -/
def selectRows (A : DenseMatrix α) (rows : List Nat) : DenseMatrix α :=
  ofFn rows.length A.cols fun i j => A.entry (rows.getD i 0) j

/-- The matrix times the column vector `v`. -/
def mulVec [Add α] [Mul α] (A : DenseMatrix α) (v : List α) : List α :=
  (List.range A.rows).map fun i => sumTo A.cols fun j => A.entry i j * v.getD j 0

/-- The row vector `v` times the matrix. -/
def vecMul [Add α] [Mul α] (v : List α) (A : DenseMatrix α) : List α :=
  (List.range A.cols).map fun j => sumTo A.rows fun i => v.getD i 0 * A.entry i j

end Formulas

end DenseMatrix
end WeakForm

import Mathlib.LinearAlgebra.Matrix.ZPow
import WeakForm.Proofs.Tensor.Matrices
import WeakForm.Proofs.Value.RealValues

/-!
# Matrices as values

A value holds a matrix if its entries are those of the matrix. A plain number holds the matrix with
this one entry, and so does an array with one entry, whatever its axes. Arithmetic on values that hold
matrices is matrix algebra: every operation succeeds where the sizes fit and holds what it gives
there. That a value with one entry acts as a scalar makes no difference where matrices can be
multiplied.
-/

namespace WeakForm

/-- A matrix over the reals with its size. -/
structure SizedMatrix where
  rows : ℕ
  cols : ℕ
  entries : Matrix (Fin rows) (Fin cols) ℝ

namespace SizedMatrix

/-- A number as a matrix with one entry. -/
def scalar (x : ℝ) : SizedMatrix := ⟨1, 1, .of fun _ _ => x⟩

/-- Matrices of one height side by side. -/
inductive IsRow : List SizedMatrix → SizedMatrix → Prop
  | single (M : SizedMatrix) : IsRow [M] M
  | beside {m n k : ℕ} {blocks : List SizedMatrix} {A : Matrix (Fin m) (Fin n) ℝ}
      (h : IsRow blocks ⟨m, n, A⟩) (B : Matrix (Fin m) (Fin k) ℝ) :
      IsRow (blocks ++ [⟨m, k, B⟩]) ⟨m, n + k, besideBlock A B⟩

/-- Matrices of one width on top of each other. -/
inductive IsColumn : List SizedMatrix → SizedMatrix → Prop
  | single (M : SizedMatrix) : IsColumn [M] M
  | above {m n k : ℕ} {blocks : List SizedMatrix} {A : Matrix (Fin m) (Fin n) ℝ}
      (h : IsColumn blocks ⟨m, n, A⟩) (B : Matrix (Fin k) (Fin n) ℝ) :
      IsColumn (blocks ++ [⟨k, n, B⟩]) ⟨m + k, n, aboveBlock A B⟩

/-- Rows of blocks that fit together, and the matrix that they make up. -/
def IsBlock (rows : List (List SizedMatrix)) (M : SizedMatrix) : Prop :=
  ∃ whole, List.Forall₂ IsRow rows whole ∧ IsColumn whole M

theorem IsRow.ne_nil {blocks : List SizedMatrix} {M : SizedMatrix} (h : IsRow blocks M) :
    blocks ≠ [] := by
  cases h <;> simp

theorem IsColumn.ne_nil {blocks : List SizedMatrix} {M : SizedMatrix} (h : IsColumn blocks M) :
    blocks ≠ [] := by
  cases h <;> simp

/-- Every block matrix has a block. -/
theorem IsBlock.exists_mem {rows : List (List SizedMatrix)} {M : SizedMatrix} (h : IsBlock rows M) :
    ∃ row ∈ rows, ∃ N, N ∈ row := by
  obtain ⟨whole, hrows, hcolumn⟩ := h
  obtain ⟨N, hN⟩ := List.exists_mem_of_ne_nil _ hcolumn.ne_nil
  obtain ⟨row, hmem, hrow⟩ := exists_mem_of_forall₂ hrows hN
  exact ⟨row, hmem, List.exists_mem_of_ne_nil _ hrow.ne_nil⟩

theorem eq_scalar {x : ℝ} {A : Matrix (Fin 1) (Fin 1) ℝ} (h : ∀ i j, A i j = x) :
    (⟨1, 1, A⟩ : SizedMatrix) = scalar x :=
  congrArg (SizedMatrix.mk 1 1) (Matrix.ext h)

/-- Powers of a matrix with one entry are those of the entry. -/
theorem single_zpow {x : ℝ} {p : ℤ} (hx : p < 0 → x ≠ 0) :
    (.of fun _ _ => x : Matrix (Fin 1) (Fin 1) ℝ) ^ p = .of fun _ _ => x ^ p := by
  have hmul (y z : ℝ) : (.of fun _ _ => y * z : Matrix (Fin 1) (Fin 1) ℝ) =
      (.of fun _ _ => y) * .of fun _ _ => z := by
    ext i j
    simp [Matrix.mul_apply]
  have hone : (1 : Matrix (Fin 1) (Fin 1) ℝ) = .of fun _ _ => 1 := by
    ext i j
    simp [Matrix.one_apply, Subsingleton.elim i j]
  have hpow (n : ℕ) : (.of fun _ _ => x : Matrix (Fin 1) (Fin 1) ℝ) ^ n = .of fun _ _ => x ^ n := by
    induction n with
    | zero => simpa using hone
    | succ n ih => rw [pow_succ, ih, pow_succ, hmul]
  obtain ⟨n, rfl | rfl⟩ := p.eq_nat_or_neg
  · rw [zpow_natCast, zpow_natCast, hpow]
  · rw [Matrix.zpow_neg_natCast, hpow, zpow_neg, zpow_natCast]
    refine Matrix.inv_eq_right_inv ?_
    rw [← hmul, hone]
    rcases Nat.eq_zero_or_pos n with rfl | hn
    · simp
    · rw [mul_inv_cancel₀ (pow_ne_zero n (hx (by omega)))]

end SizedMatrix

namespace Tensor

/-- The entries of an array are those of a matrix. -/
inductive Holds : Tensor ℝ → SizedMatrix → Prop
  | matrix {m n : ℕ} (A : Matrix (Fin m) (Fin n) ℝ) : Holds (ofMatrix (.stored A)) ⟨m, n, A⟩
  | scalar (x : ℝ) : Holds (.scalar x) (.scalar x)

namespace Holds

variable {a b : Tensor ℝ} {m n k : ℕ} {A B : Matrix (Fin m) (Fin n) ℝ} {M : SizedMatrix} {x : ℝ}

theorem zipWith (f : ℝ → ℝ → ℝ) (ha : a.Holds ⟨m, n, A⟩) (hb : b.Holds ⟨m, n, B⟩) :
    ∃ c, Tensor.zipWith f a b = some c ∧ c.Holds ⟨m, n, .of fun i j => f (A i j) (B i j)⟩ := by
  cases ha with
  | matrix =>
    cases hb with
    | matrix => exact ⟨_, zipWith_ofMatrix f A B, .matrix _⟩
    | scalar y =>
      refine ⟨_, zipWith_scalar f _ y, ?_⟩
      rw [map_ofMatrix]
      exact .matrix _
  | scalar x =>
    cases hb with
    | matrix =>
      refine ⟨_, scalar_zipWith f x _, ?_⟩
      rw [map_ofMatrix]
      exact .matrix _
    | scalar y =>
      refine ⟨_, zipWith_scalar f _ y, ?_⟩
      rw [map_scalar]
      exact .scalar _

theorem map (f : ℝ → ℝ) (ha : a.Holds ⟨m, n, A⟩) : (a.map f).Holds ⟨m, n, A.map f⟩ := by
  cases ha with
  | matrix =>
    rw [map_ofMatrix]
    exact .matrix _
  | scalar x =>
    rw [map_scalar]
    exact .scalar _

theorem transpose (ha : a.Holds ⟨m, n, A⟩) : a.transpose.Holds ⟨n, m, A.transpose⟩ := by
  cases ha with
  | matrix =>
    rw [transpose_ofMatrix, DenseMatrix.transpose_stored]
    exact .matrix _
  | scalar x =>
    have htranspose : (Tensor.scalar x).transpose = .scalar x := rfl
    rw [htranspose]
    exact .scalar x

/-- With at least two axes there is no difference between a number and a matrix. -/
theorem atLeast2 (ha : a.Holds M) : a.atLeast2 = ofMatrix (.stored M.entries) := by
  cases ha with
  | matrix A => rfl
  | scalar x =>
    have hscalar : (Tensor.scalar x).atLeast2 = ofMatrix ⟨1, 1, #[x], rfl⟩ := rfl
    rw [hscalar]
    have hentry := DenseMatrix.entry_stored (.of fun _ _ => x : Matrix (Fin 1) (Fin 1) ℝ) 0 0
    refine congrArg ofMatrix (DenseMatrix.ext rfl rfl fun i j hi hj => ?_)
    obtain rfl : i = 0 := Nat.lt_one_iff.mp hi
    obtain rfl : j = 0 := Nat.lt_one_iff.mp hj
    exact hentry.symm

/-- An array with one entry holds a matrix with one entry. -/
theorem eq_scalar (ha : a.Holds M) (hx : a.item? = some x) : M = .scalar x := by
  cases ha with
  | matrix A =>
    obtain ⟨rfl, rfl, hentry⟩ := item?_ofMatrix A hx
    exact SizedMatrix.eq_scalar hentry
  | scalar y =>
    have hx : some y = some x := hx
    rw [Option.some.inj hx]

theorem eq_ofMatrix (ha : a.Holds M) (hnone : a.item? = none) :
    a = ofMatrix (.stored M.entries) := by
  cases ha with
  | matrix A => rfl
  | scalar x => cases hnone

theorem size_eq (ha : a.Holds M) : a.data.size = M.rows * M.cols := by
  cases ha with
  | matrix A => exact DenseMatrix.size_data _
  | scalar x => rfl

theorem item?_eq (ha : a.Holds (.scalar x)) : a.item? = some x := by
  have hsize : a.data.size = 1 := ha.size_eq
  obtain ⟨y, hy⟩ : ∃ y, a.item? = some y := ⟨a.data[0], by simp [item?, hsize]⟩
  have hentries := SizedMatrix.mk.inj (ha.eq_scalar hy)
  obtain rfl : x = y := congrFun (congrFun (eq_of_heq hentries.2.2) 0) 0
  exact hy

end Holds

section Blocks

variable {rows : List (List (Tensor ℝ))} {blocks : List (List SizedMatrix)} {M : SizedMatrix}

/-- The tensor that a matrix is stored in. -/
noncomputable def ofSized (M : SizedMatrix) : Tensor ℝ := ofMatrix (.stored M.entries)

theorem joinWith_append {f : Tensor ℝ → Tensor ℝ → Option (Tensor ℝ)} {ts : List (Tensor ℝ)}
    {s : Tensor ℝ} (h : joinWith f ts = some s) (t : Tensor ℝ) : joinWith f (ts ++ [t]) = f s t := by
  cases ts with
  | nil => cases h
  | cons t₀ ts =>
    change (ts ++ [t]).foldlM f t₀ = f s t
    change ts.foldlM f t₀ = some s at h
    simp [List.foldlM_append, h]

theorem joinWith_beside? {Ms : List SizedMatrix} (h : SizedMatrix.IsRow Ms M) :
    joinWith beside? (Ms.map ofSized) = some (ofSized M) := by
  induction h with
  | single M => rfl
  | beside _ B ih =>
    rw [List.map_append, List.map_singleton, joinWith_append ih]
    exact beside?_ofMatrix _ B

theorem joinWith_above? {Ms : List SizedMatrix} (h : SizedMatrix.IsColumn Ms M) :
    joinWith above? (Ms.map ofSized) = some (ofSized M) := by
  induction h with
  | single M => rfl
  | above _ B ih =>
    rw [List.map_append, List.map_singleton, joinWith_append ih]
    exact above?_ofMatrix _ B

/-- Blocks that fit together are put together. -/
theorem blocks?_ofSized (h : SizedMatrix.IsBlock blocks M) :
    blocks? (blocks.map fun row => row.map ofSized) = some (ofSized M) := by
  obtain ⟨whole, hrows, hcolumn⟩ := h
  have haxes : ((blocks.map fun row => row.map ofSized).flatten.map fun t => t.shape.length).foldl
      max 2 = 2 := by
    rw [← List.map_flatten, List.map_map]
    induction blocks.flatten with
    | nil => rfl
    | cons N Ns ih => exact ih
  have hpad (row : List SizedMatrix) :
      (row.map ofSized).mapM (padTo? 2) = some (row.map ofSized) := by
    induction row with
    | nil => rfl
    | cons N row ih =>
      have hpad : (ofSized N).padTo? 2 = some (ofSized N) :=
        dif_pos (ofSized N).size_data
      rw [List.map_cons, List.mapM_cons, hpad, ih]
      rfl
  unfold blocks?
  rw [haxes]
  dsimp only
  have hjoined : (blocks.map fun row => row.map ofSized).mapM
      (fun row => row.mapM (padTo? 2) >>= joinWith beside?) = some (whole.map ofSized) := by
    clear hcolumn haxes
    induction hrows with
    | nil => rfl
    | cons hrow _ ih =>
      rw [List.map_cons, List.mapM_cons, ih, hpad]
      simp [joinWith_beside? hrow]
  rw [hjoined]
  exact joinWith_above? hcolumn

end Blocks

end Tensor

namespace Value

variable {v : Value ℝ} {M M' : SizedMatrix}

/-- The value is a number or an array of numbers, none of them truth values, and its entries are those
of the matrix. -/
structure Holds (v : Value ℝ) (M : SizedMatrix) : Prop where
  isNumeric : v.IsNumeric
  tensor_holds : v.tensor.Holds M

theorem holds_plain {x : Number ℝ} (hx : x.IsNumeric) : (plain x).Holds (.scalar x.value) := by
  refine ⟨hx, ?_⟩
  rw [tensor_plain hx.isReal]
  exact .scalar _

theorem holds_ofTensor {m n : ℕ} (A : Matrix (Fin m) (Fin n) ℝ) :
    (ofTensor (.ofMatrix (.stored A))).Holds ⟨m, n, A⟩ := ⟨.inr rfl, .matrix A⟩

/-- A value holds one matrix at most. -/
theorem Holds.unique (h : v.Holds M) (h' : v.Holds M') : M = M' := by
  have hstored : DenseMatrix.stored M.entries = DenseMatrix.stored M'.entries := by
    have htensors := h.tensor_holds.atLeast2.symm.trans h'.tensor_holds.atLeast2
    exact Option.some.inj (congrArg Tensor.toMatrix? htensors)
  obtain ⟨m, n, A⟩ := M
  obtain ⟨m', n', A'⟩ := M'
  obtain rfl : m = m' := congrArg DenseMatrix.rows hstored
  obtain rfl : n = n' := congrArg DenseMatrix.cols hstored
  exact congrArg (SizedMatrix.mk m n) (DenseMatrix.stored_injective hstored)

end Value
end WeakForm

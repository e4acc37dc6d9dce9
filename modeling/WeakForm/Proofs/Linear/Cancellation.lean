import Mathlib.Algebra.BigOperators.Ring.Finset
import Mathlib.Data.List.GetD
import WeakForm.Proofs.Lists
import WeakForm.Proofs.Linear.Elimination
import WeakForm.Proofs.Value.RealMatrices

/-!
# Rows and columns that add up to zero

Products keep weighted sums of the columns of their left factor and of the rows of their right factor
at zero. The solutions of systems with a common matrix add up to the solution of the sum of the
systems, so where the right-hand sides cancel the solutions do so, too.
-/

namespace WeakForm

open Finset

namespace Equation

variable {storage : Storage} {es : List (Equation ℝ)}

/-- Where elimination finds a solution, only zeros make nothing of all equations. -/
theorem eq_zero_of_solve {blocks : List ℕ} {xs ys : List ℝ} (h : solve storage blocks es = some xs)
    (hlen : es.length = blocks.length) (hys : ys.length = blocks.length)
    (hzero : ∀ e ∈ es, combination e.coefficients ys = 0) : ∀ y ∈ ys, y = 0 := by
  induction blocks generalizing es xs ys with
  | nil => simp [List.length_eq_zero_iff.mp hys]
  | cons b blocks ih =>
    rw [solve] at h
    cases hpivot : pivot? storage es with
    | none =>
      rw [hpivot] at h
      cases h
    | some found =>
      obtain ⟨k, p, others⟩ := found
      obtain ⟨hperm, -⟩ := pivot?_eq_some hpivot
      rw [hpivot] at h
      simp only [size_eq, same_real, abs_eq_zero, decide_eq_true_eq] at h
      split_ifs at h with hp
      have hothers : others.length = blocks.length := by
        have hlength := hperm.length_eq
        rw [hlen, List.length_cons, List.length_cons] at hlength
        exact (Nat.succ.inj hlength).symm
      cases hsolve : solve storage blocks
          (others.map (reduce storage blocks.length (p.isHarmless storage) p)) with
      | none =>
        rw [hsolve] at h
        cases h
      | some zs =>
        obtain ⟨y, ys, rfl⟩ := List.exists_cons_of_length_eq_add_one hys
        have hpzero := hzero p (hperm.mem_iff.mpr List.mem_cons_self)
        -- the smaller system makes nothing of the other unknowns either
        have hrest : ∀ y ∈ ys, y = 0 := by
          refine ih hsolve (by rw [List.length_map, hothers]) (Nat.succ.inj hys) ?_
          intro e he
          obtain ⟨d, hd, rfl⟩ := List.mem_map.mp he
          have hdzero := hzero d (hperm.mem_iff.mpr (List.mem_cons_of_mem _ hd))
          rw [combination_reduce hp _ _ y, hdzero, hpzero, mul_zero, sub_zero]
        have htail : combination p.coefficients.tail ys = 0 := by
          rw [combination_eq_sum]
          refine sum_eq_zero fun k hk => ?_
          have hk : k < ys.length := mem_range.mp hk
          rw [List.getD_eq_getElem _ _ hk, hrest _ (List.getElem_mem hk), mul_zero]
        rw [combination_coefficients, htail, add_zero] at hpzero
        exact List.forall_mem_cons.mpr ⟨(mul_eq_zero.mp hpzero).resolve_left hp, hrest⟩

end Equation

namespace DenseMatrix

section Sums

variable {β γ : Type}

theorem entry_ofFn_eq [Zero β] (m n : ℕ) (f : ℕ → ℕ → β) (i j : ℕ) :
    (ofFn m n f).entry i j = if i < m ∧ j < n then f i j else 0 := by
  split_ifs with h
  · exact entry_ofFn f h.1 h.2
  · by_cases hi : i < m
    · exact entry_of_cols_le _ (not_lt.mp fun hj => h ⟨hi, hj⟩)
    · exact entry_of_rows_le _ (not_lt.mp hi)

theorem entry_ofRows [Zero β] {cols i j : ℕ} {rows : List (List β)} (hi : i < rows.length)
    (hj : j < cols) : (ofRows cols rows).entry i j = (rows.getD i []).getD j 0 := entry_ofFn _ hi hj

theorem getD_row [Zero β] (A : DenseMatrix β) (i j : ℕ) : (A.row i).getD j 0 = A.entry i j := by
  by_cases hj : j < A.cols
  · simp [row, hj]
  · simp [row, hj, entry]

section Weights

variable [AddCommMonoid β] [Module ℝ β] [AddCommMonoid γ] [Module ℝ γ] {A : DenseMatrix β} {x : ℕ → ℝ}

/-- Every row adds up to zero when its entries have the given weights. -/
def RowsCancel (A : DenseMatrix β) (x : ℕ → ℝ) : Prop :=
  ∀ i, ∑ j ∈ range A.cols, x j • A.entry i j = 0

/-- Every column adds up to zero when its entries have the given weights. -/
def ColumnsCancel (A : DenseMatrix β) (x : ℕ → ℝ) : Prop :=
  ∀ j, ∑ i ∈ range A.rows, x i • A.entry i j = 0

theorem RowsCancel.congr {y : ℕ → ℝ} (h : A.RowsCancel x) (hxy : ∀ j < A.cols, x j = y j) :
    A.RowsCancel y := fun i =>
  (sum_congr rfl fun j hj => by rw [hxy j (mem_range.mp hj)]).symm.trans (h i)

theorem RowsCancel.transpose (h : A.RowsCancel x) : A.transpose.ColumnsCancel x := by
  intro j
  rw [← h j]
  refine sum_congr rfl fun i hi => ?_
  rw [DenseMatrix.transpose, entry_ofFn_eq]
  split_ifs with hij
  · rfl
  · have hj : A.rows ≤ j := not_lt.mp fun hj => hij ⟨mem_range.mp hi, hj⟩
    rw [A.entry_of_rows_le hj]

theorem ColumnsCancel.map (h : A.ColumnsCancel x) (φ : β →ₗ[ℝ] γ) : (A.map φ).ColumnsCancel x := by
  intro j
  simp only [entry_map (map_zero φ), ← map_smul]
  exact (map_sum φ _ _).symm.trans ((congrArg φ (h j)).trans (map_zero φ))

theorem RowsCancel.map (h : A.RowsCancel x) (φ : β →ₗ[ℝ] γ) : (A.map φ).RowsCancel x := by
  intro i
  simp only [entry_map (map_zero φ), ← map_smul]
  exact (map_sum φ _ _).symm.trans ((congrArg φ (h i)).trans (map_zero φ))

end Weights

variable [NonUnitalNonAssocSemiring β] {A B : DenseMatrix β}

theorem entry_mul (A B : DenseMatrix β) (i j : ℕ) :
    (A.mul B).entry i j = ∑ k ∈ range A.cols, A.entry i k * B.entry k j := by
  rw [mul, entry_ofFn_eq]
  split_ifs with h
  · exact sumTo_eq_sum _ _
  · refine (sum_eq_zero fun k _ => ?_).symm
    by_cases hi : i < A.rows
    · rw [B.entry_of_cols_le (not_lt.mp fun hj => h ⟨hi, hj⟩), mul_zero]
    · rw [A.entry_of_rows_le (not_lt.mp hi), zero_mul]

/-- The matrix times a vector that is given by its entries. -/
def times (A : DenseMatrix β) (x : ℕ → β) (i : ℕ) : β := ∑ j ∈ range A.cols, A.entry i j * x j

theorem times_congr (A : DenseMatrix β) {x y : ℕ → β} (h : ∀ j < A.cols, x j = y j) (i : ℕ) :
    A.times x i = A.times y i :=
  sum_congr rfl fun j hj => by rw [h j (mem_range.mp hj)]

theorem times_eq_zero (A : DenseMatrix β) {x : ℕ → β} (h : ∀ j < A.cols, x j = 0) (i : ℕ) :
    A.times x i = 0 :=
  sum_eq_zero fun j hj => by rw [h j (mem_range.mp hj), mul_zero]

theorem times_mul [NonUnitalSemiring γ] (A B : DenseMatrix γ) (x : ℕ → γ) (i : ℕ) :
    (A.mul B).times x i = A.times (B.times x) i := by
  have hcols : (A.mul B).cols = B.cols := rfl
  simp only [times, hcols, entry_mul, mul_sum, sum_mul, mul_assoc]
  exact sum_comm

variable [Module ℝ β] {x : ℕ → ℝ}

theorem ColumnsCancel.mul [IsScalarTower ℝ β β] (h : A.ColumnsCancel x) (B : DenseMatrix β) :
    (A.mul B).ColumnsCancel x := by
  intro j
  have hrows : (A.mul B).rows = A.rows := rfl
  simp only [hrows, entry_mul, smul_sum]
  rw [sum_comm]
  refine sum_eq_zero fun k _ => ?_
  simp only [← smul_mul_assoc]
  rw [← sum_mul, h k, zero_mul]

theorem RowsCancel.mul [SMulCommClass ℝ β β] (h : B.RowsCancel x) (A : DenseMatrix β) :
    (A.mul B).RowsCancel x := by
  intro i
  have hcols : (A.mul B).cols = B.cols := rfl
  simp only [hcols, entry_mul, smul_sum]
  rw [sum_comm]
  refine sum_eq_zero fun k _ => ?_
  simp only [← mul_smul_comm]
  rw [← mul_sum, h k, mul_zero]

end Sums

section Systems

variable {A B X : DenseMatrix ℝ} {x : ℕ → ℝ}

/-- Rows of real numbers cancel if the matrix takes the weights to zero. -/
theorem rowsCancel_iff : A.RowsCancel x ↔ ∀ i, A.times x i = 0 :=
  forall_congr' fun i => by simp only [times, smul_eq_mul, mul_comm]

/-- Where the rows cancel, a constant adds nothing to the products with affine values. -/
theorem RowsCancel.times_affine (h : A.RowsCancel 1) (B : DenseMatrix ℝ) (c : ℝ) (s : ℕ → ℝ) (i : ℕ) :
    A.times (fun p => c + B.times s p) i = (A.mul B).times s i := by
  have hconstant : ∑ p ∈ range A.cols, A.entry i p * c = 0 := by
    simpa [sum_mul] using congrArg (· * c) (h i)
  rw [times_mul, times, times]
  simp only [mul_add, sum_add_distrib, hconstant, zero_add]

/-- The columns of the solution solve the systems of the columns. -/
theorem solveMatrix?_eq_some (h : A.solveMatrix? B = some X) :
    X.rows = A.rows ∧ X.cols = B.cols ∧ ∀ j < B.cols, ∃ xs,
      A.solve? (fun i => B.entry i j) = some xs ∧ ∀ k < A.rows, xs.getD k 0 = X.entry k j := by
  obtain ⟨columns, hcolumns, rfl⟩ := Option.map_eq_some_iff.mp h
  have hsolved := mapM_eq_some_iff.mp hcolumns
  refine ⟨rfl, rfl, fun j hj => ?_⟩
  have hj' : j < columns.length := hsolved.length_eq ▸ (by simpa using hj)
  have hxs := hsolved.get (by simpa using hj) hj'
  simp only [List.get_eq_getElem, List.getElem_range] at hxs
  refine ⟨columns[j], hxs, fun k hk => ?_⟩
  rw [entry_ofFn _ hk hj, List.getD_eq_getElem _ [] hj']

theorem length_equations (A : DenseMatrix ℝ) (b : ℕ → ℝ) :
    (A.equations b).length = (List.replicate A.rows 0).length := by
  simp [equations]

/-- The product with the solution is the right-hand side. -/
theorem sum_of_solveMatrix? (h : A.solveMatrix? B = some X) {i j : ℕ} (hi : i < A.rows)
    (hj : j < B.cols) : ∑ k ∈ range A.rows, A.entry i k * X.entry k j = B.entry i j := by
  obtain ⟨-, -, hsolved⟩ := solveMatrix?_eq_some h
  obtain ⟨xs, hxs, hentry⟩ := hsolved j hj
  obtain ⟨hlen, hresidual⟩ := Equation.residual_of_solve hxs (A.length_equations _)
  rw [List.length_replicate] at hlen
  have hrow := hresidual _ (List.mem_map_of_mem (List.mem_range.mpr hi))
  rw [Equation.residual, Equation.combination_eq_sum, hlen] at hrow
  refine (sum_congr rfl fun k hk => ?_).trans (sub_eq_zero.mp hrow)
  rw [getD_row, hentry k (mem_range.mp hk)]

theorem mul_of_solveMatrix? (h : A.solveMatrix? B = some X) (hsquare : A.rows = A.cols)
    (hrows : A.rows = B.rows) : A.mul X = B := by
  refine ext hrows (solveMatrix?_eq_some h).2.1 fun i j hi hj => ?_
  rw [entry_mul, ← hsquare]
  exact sum_of_solveMatrix? h hi ((solveMatrix?_eq_some h).2.1 ▸ hj)

/-- A matrix that has been divided by takes only zeros to zeros. -/
theorem eq_zero_of_solveMatrix? (h : A.solveMatrix? B = some X) (hcols : 0 < B.cols) {v : ℕ → ℝ}
    (hv : ∀ i < A.rows, ∑ k ∈ range A.rows, A.entry i k * v k = 0) {k : ℕ} (hk : k < A.rows) :
    v k = 0 := by
  obtain ⟨-, -, hsolved⟩ := solveMatrix?_eq_some h
  obtain ⟨xs, hxs, -⟩ := hsolved 0 hcols
  let ys := (List.range A.rows).map v
  have hys : ys.length = A.rows := by simp [ys]
  have hzero : ∀ e ∈ A.equations fun i => B.entry i 0,
      Equation.combination e.coefficients ys = 0 := by
    intro e he
    obtain ⟨i, hi, rfl⟩ := List.mem_map.mp he
    rw [Equation.combination_eq_sum, hys]
    refine (sum_congr rfl fun k hk => ?_).trans (hv i (List.mem_range.mp hi))
    rw [getD_row]
    simp [ys, mem_range.mp hk]
  apply Equation.eq_zero_of_solve hxs (A.length_equations _) _ hzero
  · exact List.mem_map_of_mem (List.mem_range.mpr hk)
  · rw [hys, List.length_replicate]

/-- The solutions of systems that cancel each other cancel, too. -/
theorem RowsCancel.of_solveMatrix? (hB : B.RowsCancel x) (h : A.solveMatrix? B = some X) :
    X.RowsCancel x := by
  obtain ⟨hrows, hcols, -⟩ := solveMatrix?_eq_some h
  intro i
  rw [hcols]
  by_cases hi : A.rows ≤ i
  · exact sum_eq_zero fun j _ => by rw [X.entry_of_rows_le (hrows.trans_le hi), smul_zero]
  rcases Nat.eq_zero_or_pos B.cols with hnone | hsome
  · rw [hnone, range_zero, sum_empty]
  -- the sums of the rows solve the sum of all systems, which has zeros only
  have hsums : ∀ l < A.rows,
      ∑ k ∈ range A.rows, A.entry l k * ∑ j ∈ range B.cols, x j • X.entry k j = 0 := by
    intro l hl
    calc ∑ k ∈ range A.rows, A.entry l k * ∑ j ∈ range B.cols, x j • X.entry k j
        = ∑ j ∈ range B.cols, x j • ∑ k ∈ range A.rows, A.entry l k * X.entry k j := by
          simp only [mul_sum, smul_sum, mul_smul_comm]
          exact sum_comm
      _ = ∑ j ∈ range B.cols, x j • B.entry l j :=
          sum_congr rfl fun j hj => by rw [sum_of_solveMatrix? h hl (mem_range.mp hj)]
      _ = 0 := hB l
  exact eq_zero_of_solveMatrix? h hsome hsums (not_le.mp hi)

/-- A matrix that takes only zeros to zeros can be divided by. -/
theorem exists_solveMatrix? (hregular : ∀ xs : List ℝ, xs.length = A.rows →
    (∀ i < A.rows, ∑ k ∈ range A.rows, A.entry i k * xs.getD k 0 = 0) → ∀ x ∈ xs, x = 0)
    (B : DenseMatrix ℝ) : ∃ X, A.solveMatrix? B = some X := by
  have hsolved (b : ℕ → ℝ) : ∃ xs, A.solve? b = some xs := by
    by_contra hnone
    rw [not_exists] at hnone
    obtain ⟨xs, hxs, ⟨x, hx, hne⟩, hzero⟩ :=
      Equation.exists_of_solve_eq_none (Option.eq_none_iff_forall_not_mem.mpr hnone)
        (A.length_equations b)
    rw [List.length_replicate] at hxs
    refine hne (hregular xs hxs (fun i hi => ?_) x hx)
    have hi := hzero _ (List.mem_map_of_mem (List.mem_range.mpr hi))
    rw [Equation.combination_eq_sum, hxs] at hi
    simpa only [getD_row] using hi
  choose columns hcolumns using hsolved
  have hall : (List.range B.cols).mapM (fun j => A.solve? fun i => B.entry i j) =
      some ((List.range B.cols).map fun j => columns fun i => B.entry i j) :=
    mapM_eq_some_iff.mpr (List.forall₂_map_right_iff.mpr (List.forall₂_same.mpr fun j _ =>
      hcolumns _))
  exact ⟨_, congrArg (Option.map _) hall⟩

end Systems

end DenseMatrix
end WeakForm

import Mathlib.LinearAlgebra.Matrix.NonsingularInverse
import WeakForm.Proofs.RealScalar
import WeakForm.Proofs.Tensor.Broadcasting

/-!
# Matrices as they are stored

A matrix is stored row by row. Sums, multiples, products, transposes, inverses and blocks of stored
matrices are the stored sums, multiples, products, transposes, inverses and blocks.
-/

namespace WeakForm

variable {β γ δ : Type} {m n k : ℕ}

/-- Two matrices side by side. -/
def besideBlock (A : Matrix (Fin m) (Fin n) β) (B : Matrix (Fin m) (Fin k) β) :
    Matrix (Fin m) (Fin (n + k)) β :=
  .of fun i => Fin.append (A i) (B i)

/-- Two matrices on top of each other. -/
def aboveBlock (A : Matrix (Fin m) (Fin n) β) (B : Matrix (Fin k) (Fin n) β) :
    Matrix (Fin (m + k)) (Fin n) β :=
  .of (Fin.append A B)

namespace DenseMatrix

def stored (A : Matrix (Fin m) (Fin n) β) : DenseMatrix β :=
  ⟨m, n, Array.ofFn fun k => A k.divNat k.modNat, Array.size_ofFn⟩

theorem ofFn_eq_stored {f : ℕ → ℕ → β} {A : Matrix (Fin m) (Fin n) β}
    (h : ∀ (i : Fin m) (j : Fin n), f i j = A i j) : ofFn m n f = stored A := by
  unfold ofFn stored
  congr 1
  exact congrArg Array.ofFn (funext fun k => h k.divNat k.modNat)

@[simp] theorem entry_stored [Zero β] (A : Matrix (Fin m) (Fin n) β) (i : Fin m) (j : Fin n) :
    (stored A).entry i j = A i j := by
  have hfn : ofFn m n (fun i j => if h : i < m ∧ j < n then A ⟨i, h.1⟩ ⟨j, h.2⟩ else 0) =
      stored A := ofFn_eq_stored fun i j => dif_pos ⟨i.isLt, j.isLt⟩
  rw [← hfn, entry_ofFn _ i.isLt j.isLt, dif_pos ⟨i.isLt, j.isLt⟩]

theorem stored_injective [Zero β] : Function.Injective (stored : Matrix (Fin m) (Fin n) β → DenseMatrix β) := by
  intro A B h
  ext i j
  rw [← entry_stored A, h, entry_stored]

theorem exists_eq_stored [Zero β] {D : DenseMatrix β} (hrows : D.rows = m) (hcols : D.cols = n) :
    ∃ A : Matrix (Fin m) (Fin n) β, D = stored A := by
  subst hrows hcols
  refine ⟨.of fun i j => D.entry i j, ext rfl rfl fun i j hi hj => ?_⟩
  exact (entry_stored (.of fun i j => D.entry i j) ⟨i, hi⟩ ⟨j, hj⟩).symm

theorem map_stored (f : β → γ) (A : Matrix (Fin m) (Fin n) β) :
    (stored A).map f = stored (A.map f) := by
  simp only [map, stored, Array.map_ofFn]
  rfl

theorem transpose_stored [Zero β] (A : Matrix (Fin m) (Fin n) β) :
    (stored A).transpose = stored A.transpose :=
  ofFn_eq_stored fun i j => entry_stored A j i

theorem identity_eq_stored [Zero β] [One β] (n : ℕ) :
    (identity n : DenseMatrix β) = stored (1 : Matrix (Fin n) (Fin n) β) :=
  ofFn_eq_stored fun i j => by simp only [Matrix.one_apply, Fin.ext_iff]

theorem mul_stored [NonUnitalNonAssocSemiring β] (A : Matrix (Fin m) (Fin k) β)
    (B : Matrix (Fin k) (Fin n) β) : (stored A).mul (stored B) = stored (A * B) := by
  refine ofFn_eq_stored fun i j => ?_
  calc sumTo k (fun l => (stored A).entry i l * (stored B).entry l j)
      = ∑ l : Fin k, (stored A).entry i l * (stored B).entry l j := by
        rw [sumTo_eq_sum, Finset.sum_range]
    _ = ∑ l : Fin k, A i l * B l j :=
        Finset.sum_congr rfl fun l _ => by rw [entry_stored A i l, entry_stored B l j]
    _ = (A * B) i j := (Matrix.mul_apply).symm

theorem det_stored (hn : 0 < n ∧ n ≤ 2) (A : Matrix (Fin n) (Fin n) ℝ) : (stored A).det = A.det := by
  obtain rfl | rfl : n = 1 ∨ n = 2 := by omega
  · rw [det_one rfl rfl, Matrix.det_fin_one]
    exact entry_stored A 0 0
  · rw [det_two rfl rfl, Matrix.det_fin_two]
    exact congrArg₂ (· - ·) (congrArg₂ (· * ·) (entry_stored A 0 0) (entry_stored A 1 1))
      (congrArg₂ (· * ·) (entry_stored A 0 1) (entry_stored A 1 0))

/-- Elimination finds the inverse of every matrix that has one. -/
theorem inverse?_stored {A : Matrix (Fin n) (Fin n) ℝ} (hA : IsUnit A.det) :
    (stored A).inverse? = some (stored A⁻¹) := by
  -- a regular matrix takes only zeros to zeros
  have hregular (xs : List ℝ) (hlength : xs.length = (stored A).rows)
      (hzero : ∀ i < n, ∑ k ∈ Finset.range n, (stored A).entry i k * xs.getD k 0 = 0) :
      ∀ x ∈ xs, x = 0 := by
    have hproduct : A.mulVec (fun k : Fin n => xs.getD k 0) = 0 := by
      funext i
      refine Eq.trans ?_ (hzero i i.isLt)
      rw [Finset.sum_range, Matrix.mulVec, dotProduct]
      exact Finset.sum_congr rfl fun k _ => by rw [entry_stored]
    have hvanish := Matrix.eq_zero_of_mulVec_eq_zero hA.ne_zero hproduct
    intro x hx
    obtain ⟨k, hk, rfl⟩ := List.getElem_of_mem hx
    have hentry := congrFun hvanish ⟨k, hk.trans_eq hlength⟩
    rwa [List.getD_eq_getElem _ _ hk] at hentry
  obtain ⟨X, hX⟩ := exists_solveMatrix? hregular (identity n)
  obtain ⟨hrows, hcols, -⟩ := solveMatrix?_eq_some hX
  obtain ⟨B, rfl⟩ : ∃ B : Matrix (Fin n) (Fin n) ℝ, X = stored B :=
    exists_eq_stored hrows hcols
  have hmul : stored (A * B) = stored (1 : Matrix (Fin n) (Fin n) ℝ) := by
    rw [← mul_stored, ← identity_eq_stored]
    exact mul_of_solveMatrix? hX rfl rfl
  rw [Matrix.inv_eq_right_inv (stored_injective hmul)]
  exact hX

end DenseMatrix

namespace Tensor

theorem zipWith_ofMatrix [Zero β] [Zero γ] (f : β → γ → δ) (A : Matrix (Fin m) (Fin n) β)
    (B : Matrix (Fin m) (Fin n) γ) :
    zipWith f (ofMatrix (.stored A)) (ofMatrix (.stored B)) =
      some (ofMatrix (.stored (.of fun i j => f (A i j) (B i j)))) := by
  have hshape : (ofMatrix (.stored A)).shape = (ofMatrix (.stored B)).shape := rfl
  rw [zipWith, dif_pos hshape]
  refine congrArg some (ext rfl (Array.ext ?_ fun i _ _ => ?_))
  · simp [ofMatrix, DenseMatrix.stored]
  · simp [ofMatrix, DenseMatrix.stored]

theorem map_ofMatrix (f : β → γ) (A : Matrix (Fin m) (Fin n) β) :
    (ofMatrix (.stored A)).map f = ofMatrix (.stored (A.map f)) := by
  rw [← DenseMatrix.map_stored]
  rfl

theorem mul?_matrices [NonUnitalNonAssocSemiring β] (A : Matrix (Fin m) (Fin k) β)
    (B : Matrix (Fin k) (Fin n) β) : (ofMatrix (.stored A)).mul? (ofMatrix (.stored B)) =
      some (ofMatrix (.stored (A * B))) := by
  have hinner : (DenseMatrix.stored A).cols = (DenseMatrix.stored B).rows := rfl
  rw [mul?_ofMatrix, if_pos hinner, DenseMatrix.mul_stored]

theorem item?_ofMatrix (A : Matrix (Fin m) (Fin n) β) {x : β}
    (h : (ofMatrix (.stored A)).item? = some x) :
    m = 1 ∧ n = 1 ∧ ∀ i j, A i j = x := by
  unfold item? at h
  split_ifs at h with hsize
  have hvolume : m * n = 1 := by simpa [ofMatrix, DenseMatrix.stored] using hsize
  obtain ⟨rfl, rfl⟩ : m = 1 ∧ n = 1 := mul_eq_one.mp hvolume
  refine ⟨rfl, rfl, fun i j => ?_⟩
  have hentry : A (0 : Fin (1 * 1)).divNat (0 : Fin (1 * 1)).modNat = x := by
    simpa [ofMatrix, DenseMatrix.stored] using h
  exact (congrArg₂ A (Subsingleton.elim _ _) (Subsingleton.elim _ _)).trans hentry

/-- A single matrix is a stack of one. -/
theorem mapMatrices?_ofMatrix [Zero β] (f : DenseMatrix β → Option (DenseMatrix γ))
    (D : DenseMatrix β) (h : ∀ E, f D = some E → E.rows = D.rows ∧ E.cols = D.cols) :
    (ofMatrix D).mapMatrices? f = (f D).map ofMatrix := by
  have hmatrix : (ofMatrix D).matrixAt D.rows D.cols 0 = D := by
    refine DenseMatrix.ext rfl rfl fun i j hi hj => ?_
    change i < D.rows at hi
    change j < D.cols at hj
    rw [matrixAt, DenseMatrix.entry_ofFn _ hi hj, DenseMatrix.entry, if_pos hj]
    simp [ofMatrix]
  have hlast : lastTwo? (ofMatrix D).shape = some ([], D.rows, D.cols) := rfl
  have hone : List.range (volume []) = [0] := rfl
  unfold mapMatrices?
  rw [hlast]
  simp only [Option.bind_eq_bind, Option.bind_some, hone, List.mapM_cons, List.mapM_nil, hmatrix]
  cases hE : f D with
  | none => rfl
  | some E =>
    obtain ⟨hrows, hcols⟩ := h E hE
    have hsize : E.data.size = volume [D.rows, D.cols] := by
      rw [E.size_data, hrows, hcols]
      simp [volume]
    have hreshape : (ofArray E.data).reshape? [D.rows, D.cols] = some (ofMatrix E) := by
      rw [reshape?, dif_pos (by exact hsize)]
      exact congrArg some (ext (by simp [ofMatrix, hrows, hcols]) rfl)
    simpa [ofMatrix] using hreshape

section Blocks

variable [Zero β]

theorem beside?_ofMatrix (A : Matrix (Fin m) (Fin n) β) (B : Matrix (Fin m) (Fin k) β) :
    (ofMatrix (.stored A)).beside? (ofMatrix (.stored B)) =
      some (ofMatrix (.stored (besideBlock A B))) := by
  have hbeside : (ofMatrix (.stored A)).beside? (ofMatrix (.stored B)) =
      some (ofFn [m, n + k] fun is =>
        if is.getD 1 0 < n then (ofMatrix (.stored A)).get (is.take 1 ++ [is.getD 1 0])
        else (ofMatrix (.stored B)).get (is.take 1 ++ [is.getD 1 0 - n])) := by
    simp [beside?, lastTwo?, ofMatrix, DenseMatrix.stored]
  rw [hbeside, ofFn_pair]
  refine congrArg (fun D => some (ofMatrix D)) (DenseMatrix.ofFn_eq_stored fun i j => ?_)
  refine Fin.addCases (fun j => ?_) (fun j => ?_) j
  · have hentry := get_ofMatrix (.stored A) i j.isLt
    simpa [besideBlock] using hentry
  · have hentry := get_ofMatrix (.stored B) i j.isLt
    simpa [besideBlock] using hentry

theorem above?_ofMatrix (A : Matrix (Fin m) (Fin n) β) (B : Matrix (Fin k) (Fin n) β) :
    (ofMatrix (.stored A)).above? (ofMatrix (.stored B)) =
      some (ofMatrix (.stored (aboveBlock A B))) := by
  have habove : (ofMatrix (.stored A)).above? (ofMatrix (.stored B)) =
      some (ofFn [m + k, n] fun is =>
        if is.getD 0 0 < m then (ofMatrix (.stored A)).get [is.getD 0 0, is.getD 1 0]
        else (ofMatrix (.stored B)).get [is.getD 0 0 - m, is.getD 1 0]) := by
    simp [above?, lastTwo?, ofMatrix, DenseMatrix.stored]
  rw [habove, ofFn_pair]
  refine congrArg (fun D => some (ofMatrix D)) (DenseMatrix.ofFn_eq_stored fun i j => ?_)
  refine Fin.addCases (fun i => ?_) (fun i => ?_) i
  · have hentry := get_ofMatrix (.stored A) i j.isLt
    have hblock : aboveBlock A B (Fin.castAdd k i) j = A i j :=
      congrFun (Fin.append_left A B i) j
    simpa [hblock] using hentry
  · have hentry := get_ofMatrix (.stored B) i j.isLt
    have hblock : aboveBlock A B (Fin.natAdd m i) j = B i j :=
      congrFun (Fin.append_right A B i) j
    simpa [hblock] using hentry

end Blocks

end Tensor
end WeakForm

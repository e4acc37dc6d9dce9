import Mathlib.Data.Matrix.Mul
import WeakForm.Proofs.Value.RealMatrices

/-!
# Square matrices of real numbers

A square matrix of numbers represents a matrix over the reals. Multiples, sums and differences of
such matrices exist and represent those over the reals, and so do products with vectors of matching
length, which are given by their entries.
-/

namespace WeakForm

open Matrix

theorem zipWith_ofFn {β γ δ : Type} {n : ℕ} (f : β → γ → δ) (u : Fin n → β) (v : Fin n → γ) :
    Array.zipWith f (Array.ofFn u) (Array.ofFn v) = Array.ofFn fun i => f (u i) (v i) := by
  apply Array.ext
  · simp
  · intro i hi _
    simp

theorem ofFn_injective {β : Type} {n : ℕ} {u v : Fin n → β} (h : Array.ofFn u = Array.ofFn v) :
    u = v := by
  funext i
  have hentry := congrArg (fun w : Array β => w[(i : ℕ)]?) h
  simpa using hentry

namespace Tensor

theorem ofArray_zipWith {β γ δ : Type} [Zero β] [Zero γ] (f : β → γ → δ) {v : Array β} {w : Array γ}
    (h : v.size = w.size) : zipWith f (ofArray v) (ofArray w) = some (ofArray (v.zipWith f w)) := by
  have hshape : (ofArray v).shape = (ofArray w).shape := congrArg (fun n => [n]) h
  have hsize : v.size = (v.zipWith f w).size := by simp [h]
  rw [zipWith, dif_pos hshape]
  simp only [ofArray, mk.injEq, Option.some.injEq, and_true]
  exact congrArg (fun n => [n]) hsize

end Tensor

namespace NumberArray

variable {n : ℕ} (u v : Fin n → ℝ)

theorem add_ofVector : (ofVector (Array.ofFn u)).add (ofVector (Array.ofFn v)) =
    .ok (ofVector (Array.ofFn (u + v))) := by
  have hsum := Tensor.ofArray_zipWith (· + ·) (v := Array.ofFn u) (w := Array.ofFn v) (by simp)
  have hadd : (ofVector (Array.ofFn u)).add (ofVector (Array.ofFn v)) = orShapeMismatch
      ((Tensor.zipWith (· + ·) (.ofArray (Array.ofFn u)) (.ofArray (Array.ofFn v))).map reals) := rfl
  rw [hadd, hsum, zipWith_ofFn]
  rfl

theorem sub_ofVector : (ofVector (Array.ofFn u)).sub (ofVector (Array.ofFn v)) =
    .ok (ofVector (Array.ofFn (u - v))) := by
  have hdifference := Tensor.ofArray_zipWith (· - ·) (v := Array.ofFn u) (w := Array.ofFn v) (by simp)
  have hsub : (ofVector (Array.ofFn u)).sub (ofVector (Array.ofFn v)) = orShapeMismatch
      ((Tensor.zipWith (· - ·) (.ofArray (Array.ofFn u)) (.ofArray (Array.ofFn v))).map reals) := rfl
  rw [hsub, hdifference, zipWith_ofFn]
  rfl

end NumberArray

theorem SparseMatrix.entry_ofDense (D : DenseMatrix ℝ) (i j : ℕ) :
    (ofDense D).entry i j = D.entry i j := by
  have hstored (v : ℝ) : (unlessZero (Scalar.same · 0) v).getD 0 = v := by
    by_cases h : v = 0 <;> simp [unlessZero, h]
  by_cases hi : i < D.rows
  · have hrow : (ofDense D).data.getD i [] = SparseRow.tabulate (List.range D.cols) fun j =>
        unlessZero (Scalar.same · 0) (D.entry i j) := by
      simp [ofDense, ofDenseBy, hi]
    rw [entry, stored?, hrow, SparseRow.lookup_tabulate]
    split_ifs with hj
    · exact hstored _
    · rw [List.mem_range, not_lt] at hj
      exact (D.entry_of_cols_le hj).symm
  · rw [D.entry_of_rows_le (not_lt.mp hi)]
    simp [entry, stored?, ofDense, ofDenseBy, hi]

/-- The first `n` rows and columns as a matrix over the reals. -/
noncomputable def SparseMatrix.matrix (A : SparseMatrix ℝ) (n : ℕ) : Matrix (Fin n) (Fin n) ℝ :=
  .of fun i j => A.entry i j

namespace NumberMatrix

variable {n : ℕ} {A B : NumberMatrix ℝ} {X Y : Matrix (Fin n) (Fin n) ℝ}

/-- A real square matrix with the given entries. -/
structure Represents (A : NumberMatrix ℝ) (X : Matrix (Fin n) (Fin n) ℝ) : Prop where
  isReal : A.kind ≠ .complex
  rows_eq : A.rows = n
  cols_eq : A.cols = n
  value_eq : ∀ i j : Fin n, A.value i j = X i j

theorem HasValues.represents {f : ℕ → ℕ → ℝ} (h : A.HasValues n n f) :
    A.Represents (Matrix.of fun i j : Fin n => f i j) :=
  ⟨h.isReal, h.rows_eq, h.cols_eq, fun i j => h.value_eq i j i.isLt⟩

theorem Represents.congr (h : A.Represents X) (hXY : ∀ i j, X i j = Y i j) : A.Represents Y :=
  ⟨h.isReal, h.rows_eq, h.cols_eq, fun i j => (h.value_eq i j).trans (hXY i j)⟩

/-- A matrix over the reals as a matrix of numbers. -/
noncomputable def ofMatrix (X : Matrix (Fin n) (Fin n) ℝ) : NumberMatrix ℝ :=
  .reals (.ofDense (.ofFn n n fun i j => if h : i < n ∧ j < n then X ⟨i, h.1⟩ ⟨j, h.2⟩ else 0))

theorem represents_ofMatrix (X : Matrix (Fin n) (Fin n) ℝ) : (ofMatrix X).Represents X := by
  refine ⟨by simp [ofMatrix, kind], rfl, rfl, fun i j => ?_⟩
  rw [ofMatrix, value, toReals, SparseMatrix.entry_ofDense, DenseMatrix.entry_ofFn _ i.isLt j.isLt,
    dif_pos ⟨i.isLt, j.isLt⟩]

theorem represents_reals {A : SparseMatrix ℝ} (hrows : A.rows = n) (hcols : A.cols = n) :
    (reals A).Represents (A.matrix n) :=
  ⟨by simp [kind], hrows, hcols, fun _ _ => rfl⟩

theorem exists_scale {w : Number ℝ} (hw : w.IsReal) (hA : A.kind ≠ .complex) :
    ∃ B, A.scale w = .ok B := by
  have hword (n : ℤ) : Scalar.isWord ℝ n = true := by simp [Scalar.isWord, Scalar.word]
  have hnatural (n : ℤ) : Scalar.isNaturalWord ℝ n = true := by
    simp [Scalar.isNaturalWord, Scalar.naturalWord]
  have hreal (x : ℝ) : (Number.real x).toReal = .ok x := rfl
  unfold scale
  rcases Number.counted_cases hw with ⟨n, hn, -⟩ | ⟨x, hx, -⟩
  · rw [hn]
    cases A <;> simp [hword, hnatural, Except.map, kind] at hA ⊢
  · rw [hx]
    cases A <;> simp [hreal, Except.map, kind] at hA ⊢

namespace Represents

theorem scale (h : A.Represents X) {w : Number ℝ} (hw : w.IsReal) :
    ∃ B, A.scale w = .ok B ∧ B.Represents (w.value • X) := by
  obtain ⟨B, hB⟩ := exists_scale hw h.isReal
  have hvalues := scale_hasValues hw h.isReal hB
  rw [h.rows_eq, h.cols_eq] at hvalues
  refine ⟨B, hB, hvalues.represents.congr fun i j => ?_⟩
  rw [Matrix.of_apply, h.value_eq]
  rfl

theorem add (hA : A.Represents X) (hB : B.Represents Y) :
    ∃ C, A.add B = .ok C ∧ C.Represents (X + Y) := by
  have hsize : A.rows = B.rows ∧ A.cols = B.cols :=
    ⟨hA.rows_eq.trans hB.rows_eq.symm, hA.cols_eq.trans hB.cols_eq.symm⟩
  obtain ⟨C, hC⟩ : ∃ C, A.add B = .ok C := ⟨_, if_pos hsize⟩
  obtain ⟨-, -, hvalues⟩ := add_hasValues hA.isReal hB.isReal hC
  rw [hA.rows_eq, hA.cols_eq] at hvalues
  refine ⟨C, hC, hvalues.represents.congr fun i j => ?_⟩
  rw [Matrix.of_apply, hA.value_eq, hB.value_eq]
  rfl

theorem sub (hA : A.Represents X) (hB : B.Represents Y) :
    ∃ C, A.sub B = .ok C ∧ C.Represents (X - Y) := by
  have hsize : A.rows = B.rows ∧ A.cols = B.cols :=
    ⟨hA.rows_eq.trans hB.rows_eq.symm, hA.cols_eq.trans hB.cols_eq.symm⟩
  obtain ⟨C, hC⟩ : ∃ C, A.sub B = .ok C := ⟨_, if_pos hsize⟩
  obtain ⟨-, -, hvalues⟩ := sub_hasValues hA.isReal hB.isReal hC
  rw [hA.rows_eq, hA.cols_eq] at hvalues
  refine ⟨C, hC, hvalues.represents.congr fun i j => ?_⟩
  rw [Matrix.of_apply, hA.value_eq, hB.value_eq]
  rfl

theorem rowProduct_eq (h : A.Represents X) (u : Fin n → ℝ) (i : Fin n) :
    A.rowProduct (Array.ofFn u) i = (X *ᵥ u) i := by
  rw [rowProduct, h.cols_eq, Finset.sum_range]
  refine Finset.sum_congr rfl fun j _ => ?_
  rw [h.value_eq]
  simp

theorem apply (h : A.Represents X) (u : Fin n → ℝ) :
    A.apply (Array.ofFn u) = .ok (.ofVector (Array.ofFn (X *ᵥ u))) := by
  have hsize : ¬ A.cols ≠ (Array.ofFn u).size := by simp [h.cols_eq]
  obtain ⟨v, hv⟩ : ∃ v, A.apply (Array.ofFn u) = .ok v := by
    unfold NumberMatrix.apply
    rw [if_neg hsize]
    cases A <;> exact ⟨_, rfl⟩
  obtain ⟨-, w, rfl, hrows, hentries⟩ := apply_spec h.isReal hv
  have hw : w = Array.ofFn (X *ᵥ u) := by
    rw [h.rows_eq] at hrows hentries
    apply Array.ext
    · simpa using hrows
    · intro i hi hi'
      have hentry := hentries i (hrows ▸ hi)
      rw [h.rowProduct_eq u ⟨i, hrows ▸ hi⟩] at hentry
      simpa [hi] using hentry
  rw [hv, hw]

end Represents
end NumberMatrix
end WeakForm

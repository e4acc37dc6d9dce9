import Mathlib.LinearAlgebra.Matrix.PosDef
import WeakForm.Proofs.RealScalar
import WeakForm.Proofs.Kernel.Integrals
import WeakForm.Proofs.Solver.Solutions

/-!
# Energies

The product of a global matrix with two vectors is the sum of the products of the local matrices
with the values that the elements take from the vectors. For a congruence of a positive weight it is
the integral of a square: it vanishes only if the derivatives of the vector vanish at every point of
every element. Where this leaves no vector but zero, the reduced matrix is positive definite.
-/

namespace WeakForm

open Finset Matrix

/-- A sum over a list may be taken item by item. -/
theorem sum_sum_map {ι β : Type} (s : Finset ι) (items : List β) (f : ι → β → ℝ) :
    ∑ i ∈ s, (items.map (f i)).sum = (items.map fun x => ∑ i ∈ s, f i x).sum := by
  induction items with
  | nil => simp
  | cons x items ih => simp [sum_add_distrib, ih]

theorem sum_map_mul_left {β : Type} (items : List β) (f : β → ℝ) (c : ℝ) :
    c * (items.map f).sum = (items.map fun x => c * f x).sum := (List.sum_map_mul_left items f c).symm

/-- Numbers that are not negative and add up to zero are zero. -/
theorem eq_zero_of_sum_map {β : Type} {items : List β} {f : β → ℝ} (h : ∀ x ∈ items, 0 ≤ f x)
    (hsum : (items.map f).sum = 0) : ∀ x ∈ items, f x = 0 := by
  induction items with
  | nil => simp
  | cons x items ih =>
    obtain ⟨hx, h⟩ := List.forall_mem_cons.mp h
    have hrest : 0 ≤ (items.map f).sum := List.sum_nonneg fun y hy => by
      obtain ⟨x, hx, rfl⟩ := List.mem_map.mp hy
      exact h x hx
    rw [List.map_cons, List.sum_cons] at hsum
    exact List.forall_mem_cons.mpr ⟨by linarith, ih h (by linarith)⟩

namespace DenseMatrix

/-- The product of two vectors with `r` entries and a weight. -/
noncomputable def pairing (W : ℕ → ℕ → ℝ) (r : ℕ) (x y : ℕ → ℝ) : ℝ :=
  ∑ k ∈ range r, ∑ l ∈ range r, x k * W k l * y l

/-- A symmetric and positive definite weight for vectors with `r` entries. -/
structure IsPositive (W : ℕ → ℕ → ℝ) (r : ℕ) : Prop where
  symm : ∀ k < r, ∀ l < r, W k l = W l k
  pos : ∀ x : ℕ → ℝ, (∃ k < r, x k ≠ 0) → 0 < pairing W r x x

/-- A positive definite weight, be it symmetric or not. -/
def IsDefinite (W : ℕ → ℕ → ℝ) (r : ℕ) : Prop :=
  ∀ x : ℕ → ℝ, (∃ k < r, x k ≠ 0) → 0 < pairing W r x x

variable {W : ℕ → ℕ → ℝ} {r : ℕ}

theorem IsPositive.isDefinite (hW : IsPositive W r) : IsDefinite W r := hW.pos

theorem IsDefinite.nonneg (hW : IsDefinite W r) (x : ℕ → ℝ) : 0 ≤ pairing W r x x := by
  by_cases hx : ∃ k < r, x k ≠ 0
  · exact (hW x hx).le
  · refine (sum_eq_zero fun k hk => sum_eq_zero fun l _ => ?_).ge
    have hzero : x k = 0 := by_contra fun hne => hx ⟨k, mem_range.mp hk, hne⟩
    rw [hzero, zero_mul, zero_mul]

theorem IsDefinite.eq_zero (hW : IsDefinite W r) {x : ℕ → ℝ} (h : pairing W r x x = 0) :
    ∀ k < r, x k = 0 :=
  fun k hk => by_contra fun hne => (hW x ⟨k, hk, hne⟩).ne' h

theorem pairing_scalarWeight (c : ℝ) (r : ℕ) (x y : ℕ → ℝ) :
    pairing (scalarWeight c) r x y = c * ∑ k ∈ range r, x k * y k := by
  rw [mul_sum]
  refine sum_congr rfl fun k hk => ?_
  simp only [scalarWeight, mul_ite, mul_zero, ite_mul, zero_mul, sum_ite_eq, hk, if_true]
  ring

theorem isPositive_scalarWeight {c : ℝ} (hc : 0 < c) (r : ℕ) : IsPositive (scalarWeight c) r := by
  refine ⟨fun k _ l _ => by simp only [scalarWeight, eq_comm], fun x hx => ?_⟩
  obtain ⟨k, hk, hne⟩ := hx
  rw [pairing_scalarWeight]
  exact mul_pos hc (sum_pos' (fun k _ => mul_self_nonneg _)
    ⟨k, mem_range.mpr hk, mul_self_pos.mpr hne⟩)

/-- The product of a congruence with two vectors is that of the weight with their images. -/
theorem sum_congruence (B : DenseMatrix ℝ) (x y : ℕ → ℝ) :
    ∑ p ∈ range B.cols, ∑ q ∈ range B.cols, x p * (congruence W B).entry p q * y q =
      pairing W B.rows (B.times x) (B.times y) := by
  have hproduct (k l : ℕ) : B.times x k * W k l * B.times y l =
      ∑ p ∈ range B.cols, ∑ q ∈ range B.cols, B.entry k p * x p * W k l * (B.entry l q * y q) := by
    rw [times, times, sum_mul, sum_mul_sum]
  calc ∑ p ∈ range B.cols, ∑ q ∈ range B.cols, x p * (congruence W B).entry p q * y q
      = ∑ p ∈ range B.cols, ∑ q ∈ range B.cols, ∑ k ∈ range B.rows, ∑ l ∈ range B.rows,
          B.entry k p * x p * W k l * (B.entry l q * y q) := by
        refine sum_congr rfl fun p _ => sum_congr rfl fun q _ => ?_
        simp only [entry_congruence, mul_sum, sum_mul]
        exact sum_congr rfl fun k _ => sum_congr rfl fun l _ => by ring
    _ = ∑ p ∈ range B.cols, ∑ k ∈ range B.rows, ∑ l ∈ range B.rows, ∑ q ∈ range B.cols,
          B.entry k p * x p * W k l * (B.entry l q * y q) := by
        refine sum_congr rfl fun p _ => ?_
        rw [sum_comm]
        exact sum_congr rfl fun k _ => sum_comm
    _ = ∑ k ∈ range B.rows, ∑ l ∈ range B.rows, ∑ p ∈ range B.cols, ∑ q ∈ range B.cols,
          B.entry k p * x p * W k l * (B.entry l q * y q) := by
        rw [sum_comm]
        exact sum_congr rfl fun k _ => sum_comm
    _ = pairing W B.rows (B.times x) (B.times y) := by simp only [pairing, hproduct]

end DenseMatrix

/-- The entries of a vector, followed by zeros. -/
noncomputable def padded {n : ℕ} (w : Fin n → ℝ) : ℕ → ℝ := Function.extend Fin.val w 0

theorem padded_coe {n : ℕ} (w : Fin n → ℝ) (i : Fin n) : padded w i = w i :=
  Fin.val_injective.extend_apply w 0 i

namespace Element

variable {n : ℕ} {e : Element ℝ} {w : Fin n → ℝ} {p : ℕ} {i : Fin n}

/-- The value that an element takes from a global vector at place `p`. -/
noncomputable def valuesOf (e : Element ℝ) (w : Fin n → ℝ) (p : ℕ) : ℝ :=
  ∑ i : Fin n, if e.getDof[p]? = some ((i : ℕ) : ℤ) then w i else 0

theorem valuesOf_eq (h : e.getDof[p]? = some ((i : ℕ) : ℤ)) : e.valuesOf w p = w i := by
  have hindex (j : Fin n) : e.getDof[p]? = some ((j : ℕ) : ℤ) ↔ i = j := by
    rw [h, Option.some.injEq, Nat.cast_inj, Fin.val_inj]
  simp only [valuesOf, hindex, sum_ite_eq, mem_univ, if_true]

/-- The components of a vector at the nodes of an element. -/
theorem valuesOf_padded (w : Fin n → ℝ) {p k i : ℕ} (hk : e.nodeIds[p]? = some ((k : ℤ) + 1))
    (hi : i < e.dofsPerNode) (hlt : k * e.dofsPerNode + i < n) :
    e.valuesOf w (p * e.dofsPerNode + i) = padded w (k * e.dofsPerNode + i) := by
  have hdof : e.getDof[p * e.dofsPerNode + i]? =
      some (((⟨k * e.dofsPerNode + i, hlt⟩ : Fin n) : ℕ) : ℤ) := by
    rw [e.getElem?_getDof p hi, hk, Option.map_some, dofIndex]
    congr 1
    push_cast
    ring
  rw [valuesOf_eq hdof, ← padded_coe w]

end Element

namespace Kernel

variable {k : Kernel ℝ} {es : List (Element ℝ)} {n : ℕ} {A : SparseMatrix ℝ}

/-- What the share of an element makes of a vector. -/
theorem sum_matrixShare_mul (k : Kernel ℝ) (e : Element ℝ) (i : ℕ) (v : Fin n → ℝ) :
    ∑ j : Fin n, k.matrixShare e i j * v j =
      ∑ p ∈ range e.dofs, if e.getDof[p]? = some (i : ℤ) then
        ∑ q ∈ range e.dofs, (k.matrixOf e).entry p q * e.valuesOf v q else 0 := by
  simp only [matrixShare, sum_mul]
  rw [sum_comm]
  refine sum_congr rfl fun p _ => ?_
  split_ifs with hp
  · rw [sum_comm]
    refine sum_congr rfl fun q _ => ?_
    simp only [hp, true_and, Element.valuesOf, mul_sum, ite_mul, zero_mul, mul_ite, mul_zero]
  · exact sum_eq_zero fun j _ => sum_eq_zero fun q _ => by simp [hp]

/-- An equation of the global system is the sum of the equations of the elements that belong there. -/
theorem IsMatrixOver.mulVec (hA : k.IsMatrixOver es n A) (v : Fin n → ℝ) (i : Fin n) :
    (A.matrix n *ᵥ v) i = (es.map fun e => ∑ p ∈ range e.dofs,
      if e.getDof[p]? = some ((i : ℕ) : ℤ) then
        ∑ q ∈ range e.dofs, (k.matrixOf e).entry p q * e.valuesOf v q else 0).sum := by
  have hentry (j : Fin n) : A.matrix n i j * v j =
      (es.map fun e => k.matrixShare e i j * v j).sum := by
    rw [SparseMatrix.matrix, Matrix.of_apply, hA.entry i j i.isLt j.isLt, List.sum_map_mul_right]
  rw [Matrix.mulVec, dotProduct, sum_congr rfl fun j _ => hentry j, sum_sum_map]
  simp only [sum_matrixShare_mul]

theorem IsMatrixOver.dotProduct_mulVec (hA : k.IsMatrixOver es n A) (w v : Fin n → ℝ) :
    w ⬝ᵥ A.matrix n *ᵥ v = (es.map fun e => ∑ p ∈ range e.dofs, ∑ q ∈ range e.dofs,
      e.valuesOf w p * (k.matrixOf e).entry p q * e.valuesOf v q).sum := by
  have hrow (i : Fin n) : w i * (A.matrix n *ᵥ v) i = (es.map fun e => ∑ p ∈ range e.dofs,
      (if e.getDof[p]? = some ((i : ℕ) : ℤ) then w i else 0) *
        ∑ q ∈ range e.dofs, (k.matrixOf e).entry p q * e.valuesOf v q).sum := by
    rw [hA.mulVec, sum_map_mul_left]
    simp only [mul_sum, mul_ite, mul_zero, ite_mul, zero_mul]
    refine congrArg List.sum (List.map_congr_left fun e _ => sum_congr rfl fun p _ => ?_)
    split_ifs <;> simp
  rw [dotProduct, sum_congr rfl fun i _ => hrow i, sum_sum_map]
  refine congrArg List.sum (List.map_congr_left fun e _ => ?_)
  rw [sum_comm]
  refine sum_congr rfl fun p _ => ?_
  rw [← sum_mul, mul_sum]
  exact sum_congr rfl fun q _ => (mul_assoc _ _ _).symm

/-- The product of a global vector with another one is the sum over the elements, too. -/
theorem IsVectorOver.dotProduct {f : Array ℝ} (hf : k.IsVectorOver es n f) (w : Fin n → ℝ) :
    (w ⬝ᵥ fun i : Fin n => f.getD i 0) = (es.map fun e => ∑ p ∈ range e.dofs,
      e.valuesOf w p * (k.vectorOf e).getD p 0).sum := by
  have hterm (i : Fin n) : w i * f.getD i 0 = (es.map fun e => ∑ p ∈ range e.dofs,
      (if e.getDof[p]? = some ((i : ℕ) : ℤ) then w i else 0) * (k.vectorOf e).getD p 0).sum := by
    rw [hf.entry i i.isLt, sum_map_mul_left]
    simp only [vectorShare, mul_sum, mul_ite, mul_zero, ite_mul, zero_mul]
  change ∑ i, w i * f.getD i 0 = _
  rw [sum_congr rfl fun i _ => hterm i, sum_sum_map]
  refine congrArg List.sum (List.map_congr_left fun e _ => ?_)
  rw [sum_comm]
  exact sum_congr rfl fun p _ => (sum_mul _ _ _).symm

section Congruences

variable {W : ℕ → ℕ → ℝ} {e : Element ℝ}

section Quadratic

variable {F : QuadraturePoint ℝ → DenseMatrix ℝ}

theorem IsQuadratic.entry_matrixOf (hk : k.IsQuadratic e W F) (i j : ℕ) : (k.matrixOf e).entry i j =
    (e.points.map fun q => e.weightAt q * ((F q).congruence W).entry i j).sum := by
  obtain ⟨K, hK, hentry⟩ := hk.localMatrix
  rw [matrixOf_eq hK, hentry]

/-- The product of the matrix of an element with two vectors. -/
theorem IsQuadratic.sum_matrixOf (hk : k.IsQuadratic e W F) (x y : ℕ → ℝ) :
    ∑ p ∈ range e.dofs, ∑ q ∈ range e.dofs, x p * (k.matrixOf e).entry p q * y q =
      (e.points.map fun q => e.weightAt q *
        DenseMatrix.pairing W (F q).rows ((F q).times x) ((F q).times y)).sum := by
  have hentry (p q : ℕ) : x p * (k.matrixOf e).entry p q * y q = (e.points.map fun s =>
      e.weightAt s * (x p * ((F s).congruence W).entry p q * y q)).sum := by
    rw [hk.entry_matrixOf, sum_map_mul_left, ← List.sum_map_mul_right]
    exact congrArg List.sum (List.map_congr_left fun s _ => by ring)
  simp only [hentry, sum_sum_map]
  refine congrArg List.sum (List.map_congr_left fun s hs => ?_)
  rw [← DenseMatrix.sum_congruence, hk.cols_eq s hs]
  simp only [mul_sum]

end Quadratic

theorem entry_matrixOf (hk : k.IsStiffness e W) (he : e.IsDifferentiable) (i j : ℕ) :
    (k.matrixOf e).entry i j =
      (e.points.map fun q => e.weightAt q * ((e.derivativeAt q).congruence W).entry i j).sum :=
  (hk.isQuadratic he).entry_matrixOf i j

/-- The energy of an element. -/
theorem sum_matrixOf (hk : k.IsStiffness e W) (he : e.IsDifferentiable) (x y : ℕ → ℝ) :
    ∑ p ∈ range e.dofs, ∑ q ∈ range e.dofs, x p * (k.matrixOf e).entry p q * y q =
      (e.points.map fun q => e.weightAt q * DenseMatrix.pairing W (e.derivativeAt q).rows
        ((e.derivativeAt q).times x) ((e.derivativeAt q).times y)).sum :=
  (hk.isQuadratic he).sum_matrixOf x y

/-- A positive weight makes a symmetric matrix. -/
theorem matrixOf_symm (hk : k.IsStiffness e W) (he : e.IsDifferentiable)
    (hW : ∀ q ∈ e.points, DenseMatrix.IsPositive W (e.derivativeAt q).rows) (i j : ℕ) :
    (k.matrixOf e).entry i j = (k.matrixOf e).entry j i := by
  rw [entry_matrixOf hk he, entry_matrixOf hk he]
  refine congrArg List.sum (List.map_congr_left fun q hq => congrArg (e.weightAt q * ·) ?_)
  rw [DenseMatrix.entry_congruence, DenseMatrix.entry_congruence, sum_comm]
  refine sum_congr rfl fun a ha => sum_congr rfl fun b hb => ?_
  rw [(hW q hq).symm b (mem_range.mp hb) a (mem_range.mp ha)]
  ring

section Signs

variable (hk : k.IsStiffness e W) (he : e.IsDifferentiable)
  (hW : ∀ q ∈ e.points, DenseMatrix.IsDefinite W (e.derivativeAt q).rows) {x : ℕ → ℝ}
include he hW

theorem energyAt_nonneg {q : QuadraturePoint ℝ} (hq : q ∈ e.points) :
    0 ≤ e.weightAt q * DenseMatrix.pairing W (e.derivativeAt q).rows ((e.derivativeAt q).times x)
      ((e.derivativeAt q).times x) :=
  mul_nonneg (he.isRegular.weightAt_pos hq).le ((hW q hq).nonneg _)

include hk

theorem energy_nonneg : 0 ≤ ∑ p ∈ range e.dofs, ∑ q ∈ range e.dofs,
    x p * (k.matrixOf e).entry p q * x q := by
  rw [sum_matrixOf hk he]
  refine List.sum_nonneg fun y hy => ?_
  obtain ⟨q, hq, rfl⟩ := List.mem_map.mp hy
  exact energyAt_nonneg he hW hq

/-- Without energy there are no derivatives at any point of the rule. -/
theorem times_eq_zero_of_energy (h : ∑ p ∈ range e.dofs, ∑ q ∈ range e.dofs,
      x p * (k.matrixOf e).entry p q * x q = 0) {q : QuadraturePoint ℝ} (hq : q ∈ e.points) :
    ∀ i < (e.derivativeAt q).rows, (e.derivativeAt q).times x i = 0 := by
  rw [sum_matrixOf hk he] at h
  have hpoint := eq_zero_of_sum_map (fun q hq => energyAt_nonneg he hW hq) h q hq
  exact (hW q hq).eq_zero ((mul_eq_zero.mp hpoint).resolve_left (he.isRegular.weightAt_pos hq).ne')

end Signs

end Congruences

/-- The global matrix of symmetric matrices is symmetric. -/
theorem IsMatrixOver.isHermitian (hA : k.IsMatrixOver es n A)
    (hsymm : ∀ e ∈ es, ∀ p q, (k.matrixOf e).entry p q = (k.matrixOf e).entry q p) :
    (A.matrix n).IsHermitian := by
  ext i j
  simp only [conjTranspose_apply, star_trivial, SparseMatrix.matrix, Matrix.of_apply]
  rw [hA.entry j i j.isLt i.isLt, hA.entry i j i.isLt j.isLt]
  refine congrArg List.sum (List.map_congr_left fun e he => ?_)
  rw [matrixShare, matrixShare, sum_comm]
  refine sum_congr rfl fun p _ => sum_congr rfl fun q _ => ?_
  rw [hsymm e he q p]
  exact if_congr and_comm rfl rfl

end Kernel

namespace Partition

variable {n : ℕ} {X : Matrix (Fin n) (Fin n) ℝ} {fixed : Fin n → Prop}

open scoped Classical in
/-- A vector that vanishes where it is fixed has the same product with the whole matrix and with the
reduced one. -/
theorem dotProduct_toBlock (X : Matrix (Fin n) (Fin n) ℝ) {w : Fin n → ℝ}
    (hw : ∀ i, fixed i → w i = 0) :
    (fun i : {i // ¬ fixed i} => w i) ⬝ᵥ X.toBlock (¬ fixed ·) (¬ fixed ·) *ᵥ (fun i => w i) =
      w ⬝ᵥ X *ᵥ w := by
  have hzero : ∑ i : {i // fixed i}, w i * (X *ᵥ w) i = 0 :=
    sum_eq_zero fun i _ => by rw [hw i i.property, zero_mul]
  have hsplit := Fintype.sum_subtype_add_sum_subtype fixed fun i => w i * (X *ᵥ w) i
  rw [hzero, zero_add] at hsplit
  refine Eq.trans ?_ hsplit
  exact sum_congr rfl fun i _ => by rw [mulVec_eq_toBlock X hw]

/-- The reduced matrix is positive definite if vectors that vanish where they are fixed have positive
energies. -/
theorem posDef_of_energy (hX : X.IsHermitian) (hpos : ∀ w : Fin n → ℝ, (∀ i, fixed i → w i = 0) →
    w ≠ 0 → 0 < w ⬝ᵥ X *ᵥ w) : (X.toBlock (¬ fixed ·) (¬ fixed ·)).PosDef := by
  classical
  refine .of_dotProduct_mulVec_pos (hX.submatrix _) fun x hx => ?_
  obtain ⟨w, hw, rfl⟩ : ∃ w : Fin n → ℝ, (∀ i, fixed i → w i = 0) ∧
      (fun i : {i // ¬ fixed i} => w i) = x :=
    ⟨fun i => if hi : ¬ fixed i then x ⟨i, hi⟩ else 0, fun i hi => dif_neg (not_not.mpr hi),
      funext fun i => dif_pos i.property⟩
  rw [star_trivial, dotProduct_toBlock X hw]
  exact hpos w hw fun hzero => hx (by rw [hzero]; rfl)

/-- A vector with the given values is a solution if it balances the right side against all vectors
that vanish where it is fixed. -/
theorem IsSolution.of_weak {b g u : Fin n → ℝ} (hvalues : ∀ i, fixed i → u i = g i)
    (hweak : ∀ w : Fin n → ℝ, (∀ i, fixed i → w i = 0) → w ⬝ᵥ X *ᵥ u = w ⬝ᵥ b) :
    IsSolution X b g fixed u := by
  classical
  refine ⟨hvalues, fun i hi => ?_⟩
  have hsingle := hweak (Pi.single i 1) fun j hj =>
    Pi.single_eq_of_ne (fun h : j = i => hi (h ▸ hj)) 1
  simpa only [single_one_dotProduct] using hsingle

theorem isRegular_of_posDef (h : (X.toBlock (¬ fixed ·) (¬ fixed ·)).PosDef) : IsRegular X fixed := by
  classical
  exact h.isUnit

end Partition

namespace Kernel

variable {k : Kernel ℝ} {es : List (Element ℝ)} {n : ℕ} {A : SparseMatrix ℝ} {W : ℕ → ℕ → ℝ}
  {fixed : Fin n → Prop}

section Definite

variable (hA : k.IsMatrixOver es n A) (hk : ∀ e ∈ es, k.IsStiffness e W)
  (hW : ∀ e ∈ es, ∀ q ∈ e.points, DenseMatrix.IsDefinite W (e.derivativeAt q).rows)
include hA hk hW

/-- The energy of a vector is that of all elements together. None has a negative one, and on an element
that has none the vector has no derivatives. -/
theorem IsMatrixOver.exists_energies (w : Fin n → ℝ) : ∃ energy : Element ℝ → ℝ,
    w ⬝ᵥ A.matrix n *ᵥ w = (es.map energy).sum ∧ (∀ e ∈ es, 0 ≤ energy e) ∧
      ∀ e ∈ es, energy e = 0 → ∀ q ∈ e.points, ∀ i < (e.derivativeAt q).rows,
        (e.derivativeAt q).times (e.valuesOf w) i = 0 := by
  have hdifferentiable : ∀ e ∈ es, e.IsDifferentiable := fun e he => by
    obtain ⟨K, hK, -⟩ := hA.exists_matrix e he
    exact (hk e he).isCongruence.isDifferentiable hK
  refine ⟨_, hA.dotProduct_mulVec w w, fun e he => ?_, fun e he hzero q hq => ?_⟩
  · exact energy_nonneg (hk e he) (hdifferentiable e he) (hW e he)
  · exact times_eq_zero_of_energy (hk e he) (hdifferentiable e he) (hW e he) hzero hq

theorem IsMatrixOver.energy_nonneg (w : Fin n → ℝ) : 0 ≤ w ⬝ᵥ A.matrix n *ᵥ w := by
  obtain ⟨energy, hsum, hnonneg, -⟩ := hA.exists_energies hk hW w
  rw [hsum]
  exact List.sum_nonneg (List.forall_mem_map.mpr hnonneg)

theorem IsMatrixOver.times_eq_zero_of_energy {w : Fin n → ℝ} (h : w ⬝ᵥ A.matrix n *ᵥ w = 0) :
    ∀ e ∈ es, ∀ q ∈ e.points, ∀ i < (e.derivativeAt q).rows,
      (e.derivativeAt q).times (e.valuesOf w) i = 0 := by
  obtain ⟨energy, hsum, hnonneg, hflat⟩ := hA.exists_energies hk hW w
  exact fun e he => hflat e he (eq_zero_of_sum_map hnonneg (hsum.symm.trans h) e he)

/-- If the weight is definite and, of the vectors that vanish where they are fixed, only zero has no
derivatives at all, the equations are regular. -/
theorem IsMatrixOver.isRegular_of_isDefinite
    (hdetect : ∀ w : Fin n → ℝ, (∀ i, fixed i → w i = 0) →
      (∀ e ∈ es, ∀ q ∈ e.points, ∀ i < (e.derivativeAt q).rows,
        (e.derivativeAt q).times (e.valuesOf w) i = 0) → w = 0) :
    Partition.IsRegular (A.matrix n) fixed := by
  refine Partition.isRegular_iff.mpr fun w hfixed hfree => hdetect w hfixed ?_
  refine hA.times_eq_zero_of_energy hk hW (sum_eq_zero fun i _ => ?_)
  by_cases hi : fixed i
  · rw [hfixed i hi, zero_mul]
  · rw [hfree i hi, mul_zero]

end Definite

/-- If the weight is symmetric, too, the reduced matrix is positive definite. -/
theorem IsMatrixOver.posDef_toBlock (hA : k.IsMatrixOver es n A)
    (hk : ∀ e ∈ es, k.IsStiffness e W)
    (hW : ∀ e ∈ es, ∀ q ∈ e.points, DenseMatrix.IsPositive W (e.derivativeAt q).rows)
    (hdetect : ∀ w : Fin n → ℝ, (∀ i, fixed i → w i = 0) →
      (∀ e ∈ es, ∀ q ∈ e.points, ∀ i < (e.derivativeAt q).rows,
        (e.derivativeAt q).times (e.valuesOf w) i = 0) → w = 0) :
    ((A.matrix n).toBlock (¬ fixed ·) (¬ fixed ·)).PosDef := by
  have hdifferentiable : ∀ e ∈ es, e.IsDifferentiable := fun e he => by
    obtain ⟨K, hK, -⟩ := hA.exists_matrix e he
    exact (hk e he).isCongruence.isDifferentiable hK
  have hdefinite := fun e he q hq => (hW e he q hq).isDefinite
  refine Partition.posDef_of_energy (hA.isHermitian fun e he => matrixOf_symm (hk e he)
    (hdifferentiable e he) (hW e he)) fun w hw hne => ?_
  exact lt_of_le_of_ne (hA.energy_nonneg hk hdefinite w) fun hsum =>
    hne (hdetect w hw (hA.times_eq_zero_of_energy hk hdefinite hsum.symm))

end Kernel
end WeakForm

import WeakForm.Proofs.RealScalar
import WeakForm.Proofs.Assembly.Diffusion
import WeakForm.Proofs.Assembly.Energy
import WeakForm.Proofs.Assembly.OverSides
import WeakForm.Proofs.Element.Columns

/-!
# Symmetric forms

The forms `B'*D*B` and `N'*c*N`, whose weight is a number that is not negative or a symmetric and
positive semidefinite matrix. Their values are such matrices at every point, so their integrals over
elements and over sides are, and the global matrix, too. In scalar spaces the rows and columns of the
matrix of `B'*D*B` add up to zero, whatever the weight is.
-/

namespace WeakForm

open Finset Matrix

namespace DenseMatrix

/-- A symmetric weight for vectors with `r` entries that makes no square negative. -/
structure IsSemidefinite (W : ℕ → ℕ → ℝ) (r : ℕ) : Prop where
  symm : ∀ k < r, ∀ l < r, W k l = W l k
  nonneg : ∀ x : ℕ → ℝ, 0 ≤ pairing W r x x

variable {W V : ℕ → ℕ → ℝ} {r : ℕ}

theorem IsSemidefinite.congr (hW : IsSemidefinite W r) (h : ∀ k < r, ∀ l < r, V k l = W k l) :
    IsSemidefinite V r := by
  refine ⟨fun k hk l hl => by rw [h k hk l hl, h l hl k hk, hW.symm k hk l hl], fun x => ?_⟩
  refine (hW.nonneg x).trans_eq (sum_congr rfl fun k hk => sum_congr rfl fun l hl => ?_)
  rw [h k (mem_range.mp hk) l (mem_range.mp hl)]

theorem IsSemidefinite.mul (hW : IsSemidefinite W r) {c : ℝ} (hc : 0 ≤ c) :
    IsSemidefinite (fun k l => c * W k l) r := by
  refine ⟨fun k hk l hl => by rw [hW.symm k hk l hl], fun x => ?_⟩
  have hpairing : pairing (fun k l => c * W k l) r x x = c * pairing W r x x := by
    simp only [pairing, mul_sum]
    exact sum_congr rfl fun k _ => sum_congr rfl fun l _ => by ring
  rw [hpairing]
  exact mul_nonneg hc (hW.nonneg x)

theorem IsSemidefinite.add (hW : IsSemidefinite W r) (hV : IsSemidefinite V r) :
    IsSemidefinite (fun k l => W k l + V k l) r := by
  refine ⟨fun k hk l hl => by rw [hW.symm k hk l hl, hV.symm k hk l hl], fun x => ?_⟩
  have hpairing : pairing (fun k l => W k l + V k l) r x x = pairing W r x x + pairing V r x x := by
    simp only [pairing, mul_add, add_mul, sum_add_distrib]
  rw [hpairing]
  exact add_nonneg (hW.nonneg x) (hV.nonneg x)

theorem isSemidefinite_scalarWeight {c : ℝ} (hc : 0 ≤ c) (r : ℕ) :
    IsSemidefinite (scalarWeight c) r := by
  refine ⟨fun k _ l _ => by simp only [scalarWeight, eq_comm], fun x => ?_⟩
  rw [pairing_scalarWeight]
  exact mul_nonneg hc (sum_nonneg fun k _ => mul_self_nonneg (x k))

/-- The congruence of a weight is one, too. -/
theorem IsSemidefinite.congruence {A : DenseMatrix ℝ} (hW : IsSemidefinite W A.rows) :
    IsSemidefinite (A.congruence W).entry A.cols := by
  refine ⟨fun k _ l _ => ?_, fun x => ?_⟩
  · rw [entry_congruence, entry_congruence, sum_comm]
    refine sum_congr rfl fun a ha => sum_congr rfl fun b hb => ?_
    rw [hW.symm b (mem_range.mp hb) a (mem_range.mp ha)]
    ring
  · rw [pairing, sum_congruence]
    exact hW.nonneg _

/-- A square matrix that is symmetric and positive semidefinite. -/
structure IsForm (K : DenseMatrix ℝ) (size : ℕ) : Prop where
  rows : K.rows = size
  cols : K.cols = size
  semidefinite : IsSemidefinite K.entry size

theorem IsForm.map_mul {K : DenseMatrix ℝ} (hK : K.IsForm r) {c : ℝ} (hc : 0 ≤ c) :
    (K.map (c * ·)).IsForm r :=
  ⟨hK.rows, hK.cols, (hK.semidefinite.mul hc).congr fun _ _ _ _ => entry_map (mul_zero c) K _ _⟩

theorem isForm_congruence {A : DenseMatrix ℝ} (hW : IsSemidefinite W A.rows) :
    (A.congruence W).IsForm A.cols := ⟨rfl, rfl, hW.congruence⟩

end DenseMatrix

open DenseMatrix

namespace Tensor

/-- A number that is not negative, or a symmetric and positive semidefinite matrix. -/
def IsWeight (t : Tensor ℝ) : Prop :=
  (∃ x, 0 ≤ x ∧ t = .scalar x) ∨ ∃ (M : DenseMatrix ℝ) (r : ℕ), M.IsForm r ∧ t = .ofMatrix M

/-- The product of two arrays. One with a single entry multiplies the entries of the other. -/
noncomputable def product? (s t : Tensor ℝ) : Option (Tensor ℝ) :=
  match s.item?, t.item? with
  | some x, _ => zipWith (· * ·) (.scalar x) t
  | none, some y => zipWith (· * ·) s (.scalar y)
  | none, none => s.mul? t

variable {s t r : Tensor ℝ} {A : DenseMatrix ℝ} {x : ℝ}

theorem product?_of_item (hs : s.item? = some x) :
    s.product? t = zipWith (· * ·) (.scalar x) t := by
  simp only [product?, hs]

theorem product?_of_right_item (hs : s.item? = none) (ht : t.item? = some x) :
    s.product? t = zipWith (· * ·) s (.scalar x) := by
  simp only [product?, hs, ht]

theorem product?_of_none (hs : s.item? = none) (ht : t.item? = none) :
    s.product? t = s.mul? t := by
  simp only [product?, hs, ht]

theorem item?_ofMatrix_single (hrows : A.rows = 1) (hcols : A.cols = 1) :
    (ofMatrix A).item? = some (A.entry 0 0) := by
  have hsize : A.data.size = 1 := by rw [A.size_data, hrows, hcols]
  simp [item?, ofMatrix, hsize, DenseMatrix.entry, hcols]

/-- A weight acts as a number or as a matrix. -/
theorem IsWeight.cases (ht : t.IsWeight) :
    (∃ x, 0 ≤ x ∧ t.item? = some x ∧
      ∀ a u, zipWith (· * ·) (.scalar a) t = some u → u.item? = some (a * x)) ∨
    ∃ (M : DenseMatrix ℝ) (r : ℕ), r ≠ 1 ∧ M.IsForm r ∧ t = .ofMatrix M := by
  obtain ⟨x, hx, rfl⟩ | ⟨M, r, hM, rfl⟩ := ht
  · refine .inl ⟨x, hx, rfl, fun a u hu => ?_⟩
    rw [Value.zipWith_scalar] at hu
    exact Option.some.inj hu ▸ rfl
  · by_cases hr : r = 1
    · subst hr
      have hpositive := hM.semidefinite.nonneg fun _ => 1
      simp only [pairing, range_one, sum_singleton, one_mul, mul_one] at hpositive
      refine .inl ⟨M.entry 0 0, hpositive, item?_ofMatrix_single hM.rows hM.cols, fun a u hu => ?_⟩
      rw [scalar_times] at hu
      rw [← Option.some.inj hu, item?_ofMatrix_single (A := M.map (a * ·)) hM.rows hM.cols,
        entry_map (φ := (a * ·)) (mul_zero a)]
    · exact .inr ⟨M, r, hr, hM, rfl⟩

/-- The array is a symmetric and positive semidefinite matrix. -/
def IsForm (t : Tensor ℝ) (size : ℕ) : Prop := ∃ K : DenseMatrix ℝ, t = .ofMatrix K ∧ K.IsForm size

section Products

variable (ht : t.IsWeight) (hs : (ofMatrix A.transpose).product? t = some s)
  (hr : s.product? (.ofMatrix A) = some r)
include ht hs hr

/-- A weight is multiplied by the square of a single entry. -/
theorem IsWeight.product_single (hrows : A.rows = 1) (hcols : A.cols = 1) : ∃ size, r.IsForm size := by
  have hleft : (ofMatrix A.transpose).item? = some (A.entry 0 0) := by
    rw [item?_ofMatrix_single (A := A.transpose) hcols hrows, entry_transpose]
  rw [product?_of_item hleft] at hs
  obtain ⟨x, hx, -, hitem⟩ | ⟨M, m, hm, hM, rfl⟩ := ht.cases
  · rw [product?_of_item (hitem _ s hs), scalar_times] at hr
    refine ⟨1, _, (Option.some.inj hr).symm, hrows, hcols, ?_⟩
    have hc : 0 ≤ A.entry 0 0 * x * A.entry 0 0 := by
      nlinarith [mul_nonneg hx (mul_self_nonneg (A.entry 0 0))]
    refine (isSemidefinite_scalarWeight hc 1).congr fun k hk l hl => ?_
    obtain rfl : k = 0 := by omega
    obtain rfl : l = 0 := by omega
    rw [entry_map (φ := (A.entry 0 0 * x * ·)) (mul_zero _)]
    simp [scalarWeight]
  · rw [scalar_times] at hs
    obtain rfl := Option.some.inj hs
    have hnone : (ofMatrix (M.map (A.entry 0 0 * ·))).item? = none :=
      item?_eq_none List.mem_cons_self (hM.rows.trans_ne hm)
    rw [product?_of_right_item hnone (item?_ofMatrix_single hrows hcols), times_scalar] at hr
    refine ⟨m, _, (Option.some.inj hr).symm, hM.rows, hM.cols, ?_⟩
    refine (hM.semidefinite.mul (mul_self_nonneg (A.entry 0 0))).congr fun k _ l _ => ?_
    rw [entry_map (φ := (· * A.entry 0 0)) (zero_mul _), entry_map (φ := (A.entry 0 0 * ·)) (mul_zero _)]
    ring

/-- A matrix with several entries takes a weight to a congruence. -/
theorem IsWeight.product_several (hne : A.rows ≠ 1 ∨ A.cols ≠ 1) : r.IsForm A.cols := by
  have hright : (ofMatrix A).item? = none := Value.item?_ofMatrix_eq_none hne
  have hleft : (ofMatrix A.transpose).item? = none := Value.item?_ofMatrix_eq_none hne.symm
  obtain ⟨x, hx, hitem, -⟩ | ⟨M, m, hm, hM, rfl⟩ := ht.cases
  · rw [product?_of_right_item hleft hitem, times_scalar] at hs
    obtain rfl := Option.some.inj hs
    have hnone : (ofMatrix (A.transpose.map (· * x))).item? = none :=
      Value.item?_ofMatrix_eq_none (A := A.transpose.map (· * x)) hne.symm
    have hinner : (A.transpose.map (· * x)).cols = A.rows := rfl
    rw [product?_of_none hnone hright, mul?_ofMatrix, if_pos hinner, scaled_mul_eq_congruence] at hr
    exact ⟨_, (Option.some.inj hr).symm, isForm_congruence (isSemidefinite_scalarWeight hx A.rows)⟩
  · have hmatrix : (ofMatrix M).item? = none := item?_eq_none List.mem_cons_self (hM.rows.trans_ne hm)
    rw [product?_of_none hleft hmatrix, mul?_ofMatrix] at hs
    split_ifs at hs with hsize
    obtain rfl := Option.some.inj hs
    have hrows : M.cols = A.rows := hM.cols.trans (hM.rows.symm.trans hsize.symm)
    have hnone : (ofMatrix (A.transpose.mul M)).item? = none :=
      Value.item?_ofMatrix_eq_none (A := A.transpose.mul M) (.inr (hM.cols.trans_ne hm))
    have hinner : (A.transpose.mul M).cols = A.rows := hrows
    rw [product?_of_none hnone hright, mul?_ofMatrix, if_pos hinner, mul_mul_eq_congruence hrows] at hr
    have hweight : IsSemidefinite M.entry A.rows := by
      rw [← hrows, hM.cols]
      exact hM.semidefinite
    exact ⟨_, (Option.some.inj hr).symm, isForm_congruence hweight⟩

end Products

theorem IsForm.map_mul {size : ℕ} (ht : t.IsForm size) {c : ℝ} (hc : 0 ≤ c) :
    (t.map (c * ·)).IsForm size := by
  obtain ⟨K, rfl, hK⟩ := ht
  exact ⟨_, rfl, hK.map_mul hc⟩

theorem IsForm.add {size : ℕ} (hs : s.IsForm size) (ht : t.IsForm size)
    (h : zipWith (· + ·) s t = some r) : r.IsForm size := by
  obtain ⟨K, rfl, hK⟩ := hs
  obtain ⟨L, rfl, hL⟩ := ht
  obtain ⟨M, hM, hrows, hcols, hentry⟩ :=
    plus_ofMatrix (hK.rows.trans hL.rows.symm) (hK.cols.trans hL.cols.symm)
  refine ⟨M, Option.some.inj (h.symm.trans hM), hrows.trans hK.rows, hcols.trans hK.cols, ?_⟩
  exact (hK.semidefinite.add hL.semidefinite).congr fun k _ l _ => hentry k l

end Tensor

namespace Value

variable {v w u : Value ℝ}

/-- A real number that is not negative, or an array of real numbers that is a symmetric and positive
semidefinite matrix. -/
structure IsWeight (v : Value ℝ) : Prop where
  isReal : v.IsReal
  isWeight : v.tensor.IsWeight

theorem product?_of_mul (hv : v.IsReal) (hw : w.IsReal) (h : v.mul w = .ok u) :
    u.IsReal ∧ v.tensor.product? w.tensor = some u.tensor := by
  have hyields : Yields (v.mul w) (v.tensor.product? w.tensor) := yields_mul hv hw
  cases hproduct : v.tensor.product? w.tensor with
  | none =>
    rw [hproduct] at hyields
    obtain ⟨err, herr⟩ := hyields
    cases h.symm.trans herr
  | some t =>
    rw [hproduct] at hyields
    obtain ⟨u', hu', hnumeric, htensor⟩ := hyields
    obtain rfl := Except.ok.inj (h.symm.trans hu')
    exact ⟨hnumeric.isReal, congrArg some htensor.symm⟩

end Value

namespace Kernel

section Values

variable {defs : Definitions ℝ} {label : String} {k : Kernel ℝ} {e : Element ℝ} {D : Value ℝ}
  {matrixAt : List ℝ → Except (Error ℝ) (DenseMatrix ℝ)} {t : Tensor ℝ}

/-- The values of the kernel are products of a matrix, which has a column for every degree of freedom,
with a weight from both sides. -/
theorem IsSandwich.exists_product (hk : k.IsSandwich e D matrixAt) (hD : D.IsWeight)
    (hcols : ∀ ξ A, matrixAt ξ = .ok A → A.cols = e.dofs) {ξ : Option (List ℝ)}
    (h : k.integrand (.regular e ξ) = .ok t) : ∃ A s, A.cols = e.dofs ∧
      (Tensor.ofMatrix A.transpose).product? D.tensor = some s ∧ s.product? (.ofMatrix A) = some t := by
  rw [hk] at h
  obtain ⟨A, hA, h⟩ := bind_eq_ok.mp h
  obtain ⟨u, hu, h⟩ := bind_eq_ok.mp h
  obtain ⟨v, hv, ht⟩ := bind_eq_ok.mp h
  have hreal (A : DenseMatrix ℝ) : (Value.ofTensor (.ofMatrix A)).IsReal := (Value.isMatrix_ofTensor A).isReal
  obtain ⟨hureal, hleft⟩ := Value.product?_of_mul (hreal _) hD.isReal hu
  obtain ⟨hvreal, hright⟩ := Value.product?_of_mul hureal (hreal _) hv
  rw [Value.toReals_eq hvreal] at ht
  exact ⟨A, u.tensor, hcols _ A hA, hleft, Except.ok.inj ht ▸ hright⟩

/-- An element with a single degree of freedom is a point, which has no rule. -/
theorem rule_of_dofs_eq_one (h : e.dofs = 1) : rule e = none := by
  have hcount : e.family.nodeCount = 1 := Nat.eq_one_of_mul_eq_one_right h
  have hpoint : e.family = .point := by
    revert hcount
    cases e.family <;> decide
  rw [rule, hpoint]
  rfl

namespace IsSandwich

variable (hk : k.IsSandwich e D matrixAt) (hD : D.IsWeight)
  (hsize : ∀ ξ A, matrixAt ξ = .ok A → A.cols = e.dofs)
include hk hD hsize

theorem isForm_integrand (hne : e.dofs ≠ 1) {ξ : Option (List ℝ)}
    (h : k.integrand (.regular e ξ) = .ok t) : t.IsForm e.dofs := by
  obtain ⟨A, s, hcols, hs, ht⟩ := hk.exists_product hD hsize h
  rw [← hcols]
  exact hD.isWeight.product_several hs ht (.inr (hcols.trans_ne hne))

/-- The integral over an element is symmetric and positive semidefinite. -/
theorem isForm_integrate (h : k.integrate e = .ok t) : ∃ size, t.IsForm size := by
  by_cases hdofs : e.dofs = 1
  · rw [integrate, rule_of_dofs_eq_one hdofs] at h
    obtain ⟨A, s, -, hs, ht⟩ := hk.exists_product hD hsize h
    by_cases hsingle : A.rows = 1 ∧ A.cols = 1
    · exact hD.isWeight.product_single hs ht hsingle.1 hsingle.2
    · exact ⟨_, hD.isWeight.product_several hs ht (not_and_or.mp hsingle)⟩
  · exact ⟨_, integrate_induction (P := fun t => t.IsForm e.dofs) (fun t c hc ht => ht.map_mul hc)
      (fun s t u hs ht hu => hs.add ht hu) (fun ξ t => hk.isForm_integrand hD hsize hdofs) h⟩

theorem isForm_localMatrix {K : DenseMatrix ℝ} (h : k.localMatrix e = .ok K) : K.IsForm e.dofs := by
  have hrows := (localMatrix_size h).1
  obtain ⟨t, ht, h⟩ := bind_eq_ok.mp h
  obtain ⟨size, L, rfl, hL⟩ := hk.isForm_integrate hD hsize ht
  have hmatrix : (Tensor.ofMatrix L).atLeast2.toMatrix? = some L := rfl
  dsimp only at h
  rw [hmatrix] at h
  dsimp only at h
  split_ifs at h
  cases h
  rw [← hrows, hL.rows]
  exact hL

end IsSandwich

end Values

section Global

variable {k : Kernel ℝ} {es : List (Element ℝ)} {n : ℕ} {A : SparseMatrix ℝ}

/-- The global matrix of symmetric and positive semidefinite matrices is one, too. -/
theorem IsMatrixOver.posSemidef (hA : k.IsMatrixOver es n A)
    (h : ∀ e ∈ es, ∀ K, k.localMatrix e = .ok K → K.IsForm e.dofs) : (A.matrix n).PosSemidef := by
  have hform : ∀ e ∈ es, (k.matrixOf e).IsForm e.dofs := fun e he => by
    obtain ⟨K, hK, -⟩ := hA.exists_matrix e he
    exact matrixOf_eq hK ▸ h e he K hK
  refine .of_dotProduct_mulVec_nonneg (hA.isHermitian fun e he p q => ?_) fun x => ?_
  · obtain ⟨hrows, hcols, hsemidefinite⟩ := hform e he
    by_cases hp : p < e.dofs
    · by_cases hq : q < e.dofs
      · exact hsemidefinite.symm p hp q hq
      · rw [entry_of_cols_le _ (hcols.trans_le (not_lt.mp hq)), entry_of_rows_le _ (hrows.trans_le (not_lt.mp hq))]
    · rw [entry_of_rows_le _ (hrows.trans_le (not_lt.mp hp)), entry_of_cols_le _ (hcols.trans_le (not_lt.mp hp))]
  · rw [star_trivial, hA.dotProduct_mulVec]
    refine List.sum_nonneg fun y hy => ?_
    obtain ⟨e, he, rfl⟩ := List.mem_map.mp hy
    exact (hform e he).semidefinite.nonneg _

end Global

end Kernel

namespace Assembly

variable {m : Mesh ℝ} {k : Kernel ℝ} {tag : Option TagId} {A : SparseMatrix ℝ}

/-- A matrix over the mesh or over a tagged boundary is the sum of those of elements of the mesh or of
their sides. -/
theorem exists_isMatrixOver (hm : m.Reachable) (hfrozen : m.frozen = true)
    (hA : matrix m k tag .triplet = .ok A) :
    ∃ es, k.IsMatrixOver es m.dofs A ∧ ∀ e ∈ es, e.IsPlaced := by
  have hcells : ∀ c ∈ m.cells, c.element.IsPlaced := fun c hc => hm.wellFormed.isPlaced hfrozen hc
  cases tag with
  | none =>
    refine ⟨_, isMatrixOver_cells (inRange hm hfrozen) hA, fun e he => ?_⟩
    obtain ⟨c, hc, rfl⟩ := List.mem_map.mp he
    exact hcells c hc
  | some tag =>
    obtain ⟨sides, ⟨r, -, -, hsides⟩, hover⟩ := isMatrixOver_tagged hm hfrozen hA
    refine ⟨sides, hover, fun e he => ?_⟩
    obtain ⟨x, -, hx⟩ := exists_of_mem_mapM hsides he
    obtain ⟨c, hc, hbuild⟩ := sideElement_eq_ok hx
    exact (hcells c (mem_cells_of_cell hc)).of_buildSide hbuild

/-- The matrix of a form is symmetric and positive semidefinite. -/
theorem symmetric_of_isForm (hm : m.Reachable) (hfrozen : m.frozen = true)
    (hk : ∀ (e : Element ℝ) K, e.IsPlaced → k.localMatrix e = .ok K → K.IsForm e.dofs)
    (hA : matrix m k tag .triplet = .ok A) : (A.matrix m.dofs).IsSymm ∧ (A.matrix m.dofs).PosSemidef := by
  obtain ⟨es, hover, hplaced⟩ := exists_isMatrixOver hm hfrozen hA
  have hform := hover.posSemidef fun e he K hK => hk e K (hplaced e he) hK
  exact ⟨(conjTranspose_eq_transpose_of_trivial _).symm.trans hform.isHermitian, hform⟩

/-- The matrices of the forms are symmetric and positive semidefinite, over the mesh and over every
tagged boundary. With one degree of freedom per node of Lagrange elements the rows and columns of the
matrix of `B'*D*B` add up to zero for every constant. -/
theorem symmetric_forms (hm : m.Reachable) (hfrozen : m.frozen = true) :
    (∀ label defs k D tag A, Kernel.compile label "B'*D*B" defs = .ok k →
      defs.lookup "D" = some (.constant D) → D.IsWeight → matrix m k tag .triplet = .ok A →
        (A.matrix m.dofs).IsSymm ∧ (A.matrix m.dofs).PosSemidef) ∧
    (∀ label defs k c tag A, Kernel.compile label "N'*c*N" defs = .ok k →
      defs.lookup "c" = some (.constant c) → c.IsWeight → matrix m k tag .triplet = .ok A →
        (A.matrix m.dofs).IsSymm ∧ (A.matrix m.dofs).PosSemidef) ∧
    (m.dofsPerNode = 1 → (∀ c ∈ m.cells, c.element.family.IsLagrange) →
      ∀ label defs k D A, Kernel.compile label "B'*D*B" defs = .ok k →
        defs.lookup "D" = some (.constant D) → matrix m k none .triplet = .ok A →
          (∀ i < m.dofs, ∑ j ∈ range m.dofs, A.entry i j = 0) ∧
          ∀ j < m.dofs, ∑ i ∈ range m.dofs, A.entry i j = 0) := by
  refine ⟨fun label defs k D tag A hk hD hweight hA => ?_, fun label defs k c tag A hk hc hweight hA => ?_,
    fun hscalar hfamilies label defs k D A hk hD hA => ⟨fun i hi => ?_, fun j hj => ?_⟩⟩
  · exact symmetric_of_isForm hm hfrozen (fun e K he hK =>
      (Kernel.isSandwich_derivative hk Kernel.parse_diffusion (by decide) hD).isForm_localMatrix hweight
        (fun _ _ => he.cols_shapeDerivative) hK) hA
  · exact symmetric_of_isForm hm hfrozen (fun e K he hK =>
      (Kernel.isSandwich_shape hk Kernel.parse_mass (by decide) hc).isForm_localMatrix hweight
        (fun _ _ => he.cols_shape) hK) hA
  · have hrow := congrFun (ones_of_derivatives hm hfrozen hscalar hfamilies hk hD hA).1 ⟨i, hi⟩
    rw [sum_range]
    simpa [Matrix.mulVec, dotProduct, SparseMatrix.matrix] using hrow
  · have hcolumn := congrFun (ones_of_derivatives hm hfrozen hscalar hfamilies hk hD hA).2 ⟨j, hj⟩
    rw [sum_range]
    simpa [Matrix.vecMul, dotProduct, SparseMatrix.matrix] using hcolumn

theorem isWeight_real {x : ℝ} (hx : 0 ≤ x) : (Value.plain (.real x) : Value ℝ).IsWeight :=
  ⟨trivial, .inl ⟨x, hx, Value.tensor_plain (x := .real x) trivial⟩⟩

theorem symmetric_forms_bar : ∃ k l K M,
    Kernel.compile "K" "B'*D*B" barConstants = .ok k ∧ Kernel.compile "M" "N'*c*N" barConstants = .ok l ∧
    matrix Mesh.bar k none .triplet = .ok K ∧ matrix Mesh.bar l none .triplet = .ok M ∧
    K.matrix 3 = !![3, -3, 0; -3, 3 + 3, -3; 0, -3, 3] ∧
    ((K.matrix 3).IsSymm ∧ (K.matrix 3).PosSemidef) ∧ ((M.matrix 3).IsSymm ∧ (M.matrix 3).PosSemidef) ∧
    (∀ i < 3, ∑ j ∈ range 3, K.entry i j = 0) ∧ ∀ j < 3, ∑ i ∈ range 3, K.entry i j = 0 := by
  obtain ⟨k, hk⟩ := exists_compile_bar Kernel.parse_diffusion (by decide) "K"
  obtain ⟨l, hl⟩ := exists_compile_bar Kernel.parse_mass (by decide) "M"
  have hfamilies : ∀ c ∈ Mesh.bar.cells, c.element.family.IsLagrange := fun c hc =>
    (Mesh.isStraight_bar hc).isLagrange
  obtain ⟨K, hK, hentries⟩ := exists_stiffness_bar fun c hc =>
    Kernel.isStiffness_scalar hk Kernel.parse_diffusion (by decide) rfl (hfamilies c hc)
      (Mesh.isStraight_bar hc).dofsPerNode_eq
  obtain ⟨M, hM⟩ := exists_matrix fun c hc => (Mesh.isStraight_bar hc).exists_mass
    (Kernel.isSandwich_shape hl Kernel.parse_mass (by decide) rfl) (x := .real 2) trivial
  obtain ⟨hstiffness, hmass, hsums⟩ := symmetric_forms Mesh.reachable_bar rfl
  exact ⟨k, l, K, M, hk, hl, hK, hM, hentries,
    hstiffness _ _ k _ none K hk rfl (isWeight_real (by norm_num)) hK,
    hmass _ _ l _ none M hl rfl (isWeight_real two_pos.le) hM, hsums rfl hfamilies _ _ k _ K hk rfl hK⟩

end Assembly

end WeakForm

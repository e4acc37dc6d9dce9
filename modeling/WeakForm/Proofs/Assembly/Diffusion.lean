import WeakForm.Proofs.RealScalar
import WeakForm.Proofs.Assembly.Energy
import WeakForm.Proofs.Assembly.OverCells
import WeakForm.Proofs.Element.Columns
import WeakForm.Proofs.Value.ComplexParts

/-!
# The diffusion form

The kernel of `B'*D*B` over elements of Lagrange families. The rows of its right factor add up to
zero, and so do the columns of its left one, which is the transpose. So do the rows and columns of
its values, whatever the constant `D` is: a scalar, a matrix, or anything else that has such a
product. Sums and multiples keep this up, and so do the rows and columns of the global matrix.
-/

namespace WeakForm

open Finset Matrix DenseMatrix

/-- An array with a fixed number of axes that, if it is a matrix, is a square one of the given size
whose rows and columns add up to zero when their entries have the given weights. -/
structure Tensor.IsConservative (x : ℕ → ℝ) (axes size : ℕ) (t : Tensor ℝ) : Prop where
  axes_eq : t.shape.length = axes
  matrix : ∀ X, t.toMatrix? = some X →
    X.rows = size ∧ X.cols = size ∧ X.ColumnsCancel x ∧ X.RowsCancel x

namespace Tensor.IsConservative

variable {x : ℕ → ℝ} {axes size : ℕ} {s t u : Tensor ℝ}

theorem of_ne_two (haxes : t.shape.length = axes) (hne : axes ≠ 2) : t.IsConservative x axes size :=
  ⟨haxes, fun X hX => by rw [toMatrix?_eq_none (haxes.trans_ne hne)] at hX; cases hX⟩

theorem map_mul (h : t.IsConservative x axes size) (c : ℝ) :
    (t.map (c * ·)).IsConservative x axes size := by
  refine ⟨h.axes_eq, fun X hX => ?_⟩
  rw [toMatrix?_map] at hX
  obtain ⟨Y, hY, rfl⟩ := Option.map_eq_some_iff.mp hX
  obtain ⟨hrows, hcols, hcancel, hcancel'⟩ := h.matrix Y hY
  exact ⟨hrows, hcols, hcancel.map (LinearMap.mulLeft ℝ c), hcancel'.map (LinearMap.mulLeft ℝ c)⟩

theorem add (hs : s.IsConservative x axes size) (ht : t.IsConservative x axes size)
    (h : zipWith (· + ·) s t = some u) : u.IsConservative x axes size := by
  have haxes := (length_shape_zipWith (hs.axes_eq.trans ht.axes_eq.symm) h).trans hs.axes_eq
  by_cases htwo : axes = 2
  · obtain ⟨X, rfl⟩ := exists_ofMatrix (hs.axes_eq.trans htwo)
    obtain ⟨Y, rfl⟩ := exists_ofMatrix (ht.axes_eq.trans htwo)
    obtain ⟨hrows, hcols, hX, hX'⟩ := hs.matrix X rfl
    obtain ⟨hrows', hcols', hY, hY'⟩ := ht.matrix Y rfl
    obtain ⟨Z, hZ, hZrows, hZcols, hentry⟩ :=
      plus_ofMatrix (hrows.trans hrows'.symm) (hcols.trans hcols'.symm)
    obtain rfl := Option.some.inj (hZ.symm.trans h)
    refine ⟨haxes, fun W hW => ?_⟩
    obtain rfl : Z = W := Option.some.inj hW
    refine ⟨hZrows.trans hrows, hZcols.trans hcols, fun j => ?_, fun i => ?_⟩
    · simp only [hentry, smul_add, sum_add_distrib]
      rw [hZrows, hX j, hrows, ← hrows', hY j, add_zero]
    · simp only [hentry, smul_add, sum_add_distrib]
      rw [hZcols, hX' i, hcols, ← hcols', hY' i, add_zero]
  · exact of_ne_two haxes htwo

/-- A matrix of the given size, which is none of fewer axes, is the array itself. -/
theorem atLeast2 (h : t.IsConservative x axes size) (hsize : size ≠ 1) {X : DenseMatrix ℝ}
    (hX : t.atLeast2.toMatrix? = some X) (hrows : X.rows = size) : X.ColumnsCancel x ∧ X.RowsCancel x := by
  obtain ⟨shape, data, hdata⟩ := t
  match shape with
  | [] =>
    cases hX
    exact absurd hrows.symm hsize
  | [n] =>
    cases hX
    exact absurd hrows.symm hsize
  | m :: n :: shape => exact (h.matrix X hX).2.2

end Tensor.IsConservative

namespace Kernel

variable {k : Kernel ℝ} {D : Value ℝ} {e : Element ℝ} {w : ℕ → ℝ}

/-- The number of axes of the product of a matrix with `D` and another matrix. -/
noncomputable def axesOf (D : Value ℝ) : ℕ :=
  if D.scalar?.isSome then 2 else D.complexParts.shape.length

/-- A matrix of real numbers as an array, and as an array of complex ones. -/
theorem complexParts_matrix (A : DenseMatrix ℝ) :
    (NumberArray.reals (.ofMatrix A)).complexParts = .ofMatrix (A.map Complex.ofReal) :=
  NumberArray.complexParts_reals _

theorem item?_matrix_eq_none {A : DenseMatrix ℝ} (h : A.rows ≠ 1 ∨ A.cols ≠ 1) :
    (NumberArray.reals (.ofMatrix A)).item? = none := by
  apply NumberArray.item?_eq_none
  rw [complexParts_matrix]
  rcases h with h | h
  · exact Tensor.item?_eq_none (List.mem_cons_self) h
  · exact Tensor.item?_eq_none (List.mem_cons_of_mem _ List.mem_cons_self) h

/-- The product of a matrix whose columns cancel and the constant. -/
theorem mul_constant_eq_ok {A : DenseMatrix ℝ} (hA : A.ColumnsCancel w) (hne : A.rows ≠ 1)
    {u : Value ℝ} (hu : Value.mul (.ofTensor (.ofMatrix A)) D = .ok u) :
    ∃ c, u = .array c ∧ c.kind.HoldsFractions ∧ c.complexParts.shape.length = axesOf D ∧
      A.rows ∈ c.complexParts.shape ∧
      ∀ P, c.complexParts = .ofMatrix P → P.rows = A.rows ∧ P.ColumnsCancel w := by
  have hcancel : (A.map Complex.ofReal).ColumnsCancel w := hA.map Complex.ofRealAm.toLinearMap
  obtain ⟨c, rfl, hkind, hproduct⟩ := Value.mul_eq_ok (.inl rfl) (item?_matrix_eq_none (.inl hne)) hu
  have hmatrix (P : DenseMatrix ℂ) (hc : c.complexParts = .ofMatrix P) (hrows : P.rows = A.rows)
      (hP : P.ColumnsCancel w) : A.rows ∈ c.complexParts.shape ∧
        ∀ P, c.complexParts = .ofMatrix P → P.rows = A.rows ∧ P.ColumnsCancel w := by
    rw [hc, ← hrows]
    refine ⟨List.mem_cons_self, fun Q hQ => ?_⟩
    obtain rfl : P = Q := Option.some.inj (congrArg Tensor.toMatrix? hQ)
    exact ⟨rfl, hP⟩
  have hall : c.complexParts.shape.length = axesOf D ∧ A.rows ∈ c.complexParts.shape ∧
      ∀ P, c.complexParts = .ofMatrix P → P.rows = A.rows ∧ P.ColumnsCancel w := by
    rw [complexParts_matrix] at hproduct
    rcases hproduct with ⟨x, hx, hproduct⟩ | ⟨hx, hproduct⟩
    · rw [Tensor.times_scalar] at hproduct
      have hc := (Option.some.inj hproduct).symm
      refine ⟨by rw [axesOf, hx, hc]; rfl, hmatrix _ hc rfl ?_⟩
      exact hcancel.map (LinearMap.mulRight ℝ x.complexValue)
    · rw [axesOf, hx]
      by_cases htwo : D.complexParts.shape.length = 2
      · obtain ⟨E, hE⟩ := Tensor.exists_ofMatrix htwo
        rw [hE, Tensor.mul?_ofMatrix] at hproduct
        split_ifs at hproduct
        have hc := (Option.some.inj hproduct).symm
        exact ⟨by rw [hc, hE]; rfl, hmatrix _ hc rfl (hcancel.mul E)⟩
      · obtain ⟨hlength, hmem⟩ := Tensor.shape_mul?_of_matrix_left htwo hproduct
        refine ⟨hlength, hmem, fun P hP => absurd ?_ htwo⟩
        rw [← hlength, hP]
        rfl
  exact ⟨c, Value.ofArray_of_shape_ne (List.ne_nil_of_mem hall.2.1), hkind, hall⟩

/-- The product of a matrix whose columns cancel with the constant and with another matrix. -/
theorem isConservative_of_product {A B : DenseMatrix ℝ} (hA : A.ColumnsCancel w) (hB : B.RowsCancel w)
    (hsize : A.rows = B.cols) (hne : B.cols ≠ 1) {u v : Value ℝ} {t : Tensor ℝ}
    (hu : Value.mul (.ofTensor (.ofMatrix A)) D = .ok u)
    (hv : u.mul (.ofTensor (.ofMatrix B)) = .ok v) (ht : v.toReals = .ok t) :
    t.IsConservative w (axesOf D) B.cols := by
  obtain ⟨c, rfl, hkind, hlength, hmem, hmatrix⟩ := mul_constant_eq_ok hA (hsize.trans_ne hne) hu
  have hitem := NumberArray.item?_eq_none (Tensor.item?_eq_none hmem (hsize.trans_ne hne))
  obtain ⟨d, rfl, -, hproduct⟩ := Value.mul_eq_ok hkind hitem hv
  have hscalar : (Value.ofTensor (.ofMatrix B)).scalar? = none := item?_matrix_eq_none (.inr hne)
  rcases hproduct with ⟨x, hx, -⟩ | ⟨-, hproduct⟩
  · rw [hscalar] at hx
    cases hx
  · have hparts : (Value.ofTensor (.ofMatrix B)).complexParts = .ofMatrix (B.map Complex.ofReal) :=
      complexParts_matrix B
    rw [hparts] at hproduct
    have hreals (hd : d.complexParts.shape ≠ []) : t = d.complexParts.map Complex.re := by
      rw [Value.ofArray_of_shape_ne hd] at ht
      exact NumberArray.toReals_eq_ok ht
    by_cases htwo : axesOf D = 2
    · obtain ⟨P, hP⟩ := Tensor.exists_ofMatrix (hlength.trans htwo)
      obtain ⟨hrows, hcancel⟩ := hmatrix P hP
      rw [hP, Tensor.mul?_ofMatrix] at hproduct
      split_ifs at hproduct
      have hd := (Option.some.inj hproduct).symm
      obtain rfl := hreals (by rw [hd]; exact List.cons_ne_nil _ _)
      rw [hd]
      refine ⟨htwo.symm, fun X hX => ?_⟩
      obtain rfl := Option.some.inj hX
      have hright : (B.map Complex.ofReal).RowsCancel w := hB.map Complex.ofRealAm.toLinearMap
      exact ⟨hrows.trans hsize, rfl, (hcancel.mul _).map Complex.reLm,
        (hright.mul P).map Complex.reLm⟩
    · have haxes := (Tensor.shape_mul?_of_matrix_right (hlength.trans_ne htwo) hproduct).trans hlength
      have hpos : 0 < axesOf D := hlength ▸ List.length_pos_of_mem hmem
      obtain rfl := hreals (List.ne_nil_of_length_pos (haxes ▸ hpos))
      exact .of_ne_two haxes htwo

/-- If the rows of the derivative matrix cancel, so do the rows and columns of the matrix of an element. -/
theorem IsSandwich.cancel_localMatrix (hk : k.IsSandwich e D e.shapeDerivative) (hdofs : e.dofs ≠ 1)
    (hB : ∀ ξ B, e.shapeDerivative ξ = .ok B → B.cols = e.dofs ∧ B.RowsCancel w)
    {K : DenseMatrix ℝ} (h : k.localMatrix e = .ok K) : K.ColumnsCancel w ∧ K.RowsCancel w := by
  have hvalue (ξ : Option (List ℝ)) (t : Tensor ℝ) (h : k.integrand (.regular e ξ) = .ok t) :
      t.IsConservative w (axesOf D) e.dofs := by
    rw [hk] at h
    obtain ⟨B, hderivative, h⟩ := bind_eq_ok.mp h
    obtain ⟨u, hu, h⟩ := bind_eq_ok.mp h
    obtain ⟨v, hv, ht⟩ := bind_eq_ok.mp h
    obtain ⟨hcols, hcancel⟩ := hB _ B hderivative
    exact hcols ▸ isConservative_of_product hcancel.transpose hcancel rfl (hcols.trans_ne hdofs) hu hv ht
  obtain ⟨t, ht, h⟩ := bind_eq_ok.mp h
  have hconservative := integrate_induction (P := fun t => t.IsConservative w (axesOf D) e.dofs)
    (fun t c _ h => h.map_mul c) (fun s t u hs ht hu => hs.add ht hu) hvalue ht
  dsimp only at h
  split at h
  · rename_i A hA
    split_ifs at h with hsize
    cases h
    exact hconservative.atLeast2 hdofs hA hsize.1
  · cases h

section Global

variable {es : List (Element ℝ)} {n : ℕ} {A : SparseMatrix ℝ} {v : Fin n → ℝ}

/-- The global matrix takes a vector to zero if the rows of all elements cancel with its values. -/
theorem IsMatrixOver.mulVec_eq_zero (hA : k.IsMatrixOver es n A)
    (h : ∀ e ∈ es, ∀ K, k.localMatrix e = .ok K → K.RowsCancel (e.valuesOf v)) :
    A.matrix n *ᵥ v = 0 := by
  funext i
  rw [hA.mulVec]
  refine List.sum_eq_zero fun y hy => ?_
  obtain ⟨e, he, rfl⟩ := List.mem_map.mp hy
  obtain ⟨K, hK, -, hcols⟩ := hA.exists_matrix e he
  have hcancel := rowsCancel_iff.mp (h e he K hK)
  rw [matrixOf_eq hK, ← hcols]
  refine sum_eq_zero fun p _ => ?_
  change (if _ then K.times (e.valuesOf v) p else 0) = 0
  rw [hcancel p, ite_self]

theorem IsMatrixOver.vecMul_eq_zero (hA : k.IsMatrixOver es n A)
    (h : ∀ e ∈ es, ∀ K, k.localMatrix e = .ok K → K.ColumnsCancel (e.valuesOf v)) :
    v ᵥ* A.matrix n = 0 := by
  refine dotProduct_eq_zero_iff.mp fun w => ?_
  rw [← Matrix.dotProduct_mulVec, hA.dotProduct_mulVec]
  refine List.sum_eq_zero fun y hy => ?_
  obtain ⟨e, he, rfl⟩ := List.mem_map.mp hy
  obtain ⟨K, hK, hrows, -⟩ := hA.exists_matrix e he
  rw [matrixOf_eq hK, sum_comm, ← hrows]
  refine sum_eq_zero fun q _ => ?_
  rw [← sum_mul]
  exact mul_eq_zero_of_left (h e he K hK q) _

end Global

end Kernel

namespace Assembly

variable {m : Mesh ℝ} {k : Kernel ℝ} {defs : Definitions ℝ} {label : String} {D : Value ℝ}
  {A : SparseMatrix ℝ}

/-- Vectors that the derivative matrices of all cells take to zero are taken to zero by the matrix of
`B'*D*B` from both sides, whatever the constant is. -/
theorem eq_zero_of_derivatives (hm : m.Reachable) (hfrozen : m.frozen = true)
    (hdofs : ∀ c ∈ m.cells, c.element.dofs ≠ 1) (hk : Kernel.compile label "B'*D*B" defs = .ok k)
    (hD : defs.lookup "D" = some (.constant D)) {v : Fin m.dofs → ℝ}
    (hv : ∀ c ∈ m.cells, ∀ ξ B, c.element.shapeDerivative ξ = .ok B →
      B.RowsCancel (c.element.valuesOf v))
    (hA : matrix m k none .triplet = .ok A) :
    A.matrix m.dofs *ᵥ v = 0 ∧ v ᵥ* A.matrix m.dofs = 0 := by
  have hover := isMatrixOver_cells (inRange hm hfrozen) hA
  have hcancel : ∀ e ∈ m.cells.map Cell.element, ∀ K, k.localMatrix e = .ok K →
      K.ColumnsCancel (e.valuesOf v) ∧ K.RowsCancel (e.valuesOf v) := by
    intro e he K hK
    obtain ⟨c, hc, rfl⟩ := List.mem_map.mp he
    have hplaced := hm.wellFormed.isPlaced hfrozen hc
    exact (Kernel.isSandwich_derivative hk Kernel.parse_diffusion (by decide) hD).cancel_localMatrix
      (hdofs c hc) (fun ξ B hB => ⟨hplaced.cols_shapeDerivative hB, hv c hc ξ B hB⟩) hK
  exact ⟨hover.mulVec_eq_zero fun e he K hK => (hcancel e he K hK).2,
    hover.vecMul_eq_zero fun e he K hK => (hcancel e he K hK).1⟩

/-- An element takes ones from a vector of ones. -/
theorem valuesOf_one {n : ℕ} {e : Element ℝ} (hrange : ∀ d ∈ e.getDof, 0 ≤ d ∧ d < n) {p : ℕ}
    (hp : p < e.dofs) : e.valuesOf (1 : Fin n → ℝ) p = 1 := by
  have hlt : p < e.getDof.length := by rwa [Element.length_getDof]
  obtain ⟨hnonneg, hbound⟩ := hrange _ (List.getElem_mem hlt)
  have hindex : e.getDof[p]? = some (((⟨(e.getDof[p]).toNat, by omega⟩ : Fin n) : ℕ) : ℤ) := by
    rw [List.getElem?_eq_getElem hlt, Int.toNat_of_nonneg hnonneg]
  rw [Element.valuesOf_eq hindex, Pi.one_apply]

/-- With one degree of freedom per node of Lagrange elements the rows and columns of the matrix of
`B'*D*B` add up to zero. -/
theorem ones_of_derivatives (hm : m.Reachable) (hfrozen : m.frozen = true) (hscalar : m.dofsPerNode = 1)
    (hfamilies : ∀ c ∈ m.cells, c.element.family.IsLagrange)
    (hk : Kernel.compile label "B'*D*B" defs = .ok k) (hD : defs.lookup "D" = some (.constant D))
    (hA : matrix m k none .triplet = .ok A) : A.matrix m.dofs *ᵥ 1 = 0 ∧ 1 ᵥ* A.matrix m.dofs = 0 := by
  have hone : ∀ c ∈ m.cells, c.element.dofsPerNode = 1 := fun c hc =>
    ((hm.wellFormed.built hfrozen).of_mem_cells hc).2.trans hscalar
  refine eq_zero_of_derivatives hm hfrozen (fun c hc => ?_) hk hD (fun c hc ξ B hB => ?_) hA
  · have htwo := (hfamilies c hc).two_le_nodeCount
    rw [Element.dofs, hone c hc]
    omega
  · obtain ⟨hcancel, hcols⟩ := Element.rowsCancel_shapeDerivative (hfamilies c hc) (hone c hc) hB
    exact hcancel.congr fun p hp => (valuesOf_one
      (inRange hm hfrozen _ (List.mem_map_of_mem hc)) (hcols ▸ hp)).symm

end Assembly
end WeakForm

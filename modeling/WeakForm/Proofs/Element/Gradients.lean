import WeakForm.Proofs.RealScalar
import WeakForm.Element
import WeakForm.Integration
import WeakForm.Proofs.Linear.Cancellation
import WeakForm.Proofs.Linear.Elimination
import WeakForm.Proofs.Outcome
import WeakForm.Proofs.Quadrature.TensorProducts

/-!
# Gradients of Lagrange families

The basis functions of a Lagrange family add up to one everywhere, so their derivatives in each
reference coordinate add up to zero. This carries over to the derivatives in physical coordinates,
whether the Jacobian is square or not.
-/

namespace WeakForm

open DenseMatrix

theorem DenseMatrix.rowsCancel_ofRows {cols : ℕ} {rows : List (List ℝ)}
    (h : ∀ row ∈ rows, ∑ j ∈ Finset.range cols, row.getD j 0 = 0) :
    (ofRows cols rows).RowsCancel 1 := by
  intro i
  simp only [Pi.one_apply, one_smul, ofRows, cols_ofFn, entry_ofFn_eq]
  by_cases hi : i < rows.length
  · refine (Finset.sum_congr rfl fun j hj => ?_).trans (h _ (List.getElem_mem hi))
    rw [if_pos ⟨hi, Finset.mem_range.mp hj⟩, List.getD_eq_getElem _ [] hi]
  · exact Finset.sum_eq_zero fun j _ => if_neg fun hij => hi hij.1

/-- A product with a matrix that is given by its rows. -/
theorem DenseMatrix.entry_ofRows_mul {cols i : ℕ} {rows : List (List ℝ)} (hi : i < rows.length)
    (A : DenseMatrix ℝ) (k : ℕ) : ((ofRows cols rows).mul A).entry i k =
      ∑ p ∈ Finset.range cols, (rows.getD i []).getD p 0 * A.entry p k := by
  rw [entry_mul]
  apply Finset.sum_congr rfl
  intro p hp
  have hp : p < cols := Finset.mem_range.mp hp
  rw [entry_ofRows hi hp]

namespace Family

/-- The families whose basis functions are polynomials that are one at a node and zero at the
others. -/
def IsLagrange (f : Family) : Prop := f ∈ [line2, line3, quad4, tri3, tri6]

instance (f : Family) : Decidable f.IsLagrange := inferInstanceAs (Decidable (f ∈ _))

variable {f : Family} {nodes J G b : DenseMatrix ℝ} {ξ : List ℝ}

theorem IsLagrange.cases (hf : f.IsLagrange) :
    f = line2 ∨ f = line3 ∨ f = quad4 ∨ f = tri3 ∨ f = tri6 := by
  simpa [IsLagrange] using hf

theorem IsLagrange.two_le_nodeCount (hf : f.IsLagrange) : 2 ≤ f.nodeCount := by
  revert hf
  cases f <;> decide

/-- The derivatives in a reference coordinate add up to zero. -/
theorem IsLagrange.sum_gradientRows (hf : f.IsLagrange) {rows : List (List ℝ)}
    (h : f.gradientRows ξ = .ok rows) :
    ∀ row ∈ rows, ∑ j ∈ Finset.range f.nodeCount, row.getD j 0 = 0 := by
  unfold gradientRows at h
  split at h
  case h_1 => exact absurd hf (by decide)
  case h_3 => exact absurd hf (by decide)
  case h_8 => cases h
  all_goals
    cases h
    simp only [Basis.line2Gradient, Basis.line3Gradient, Basis.quad4Gradient, Basis.tri3Gradient,
      Basis.tri6Gradient, List.forall_mem_cons, List.not_mem_nil, false_implies, implies_true,
      and_true, nodeCount]
    norm_num [Finset.sum_range_succ]
  · ring
  · constructor <;> ring

theorem localGradient_eq {rows : List (List ℝ)} (h : f.gradientRows ξ = .ok rows) :
    f.localGradient ξ = .ok (ofRows f.nodeCount rows) := by
  rw [localGradient, h]
  rfl

theorem IsLagrange.rowsCancel_localGradient (hf : f.IsLagrange) (h : f.localGradient ξ = .ok G) :
    G.RowsCancel 1 ∧ G.cols = f.nodeCount := by
  obtain ⟨rows, hrows, rfl⟩ := map_eq_ok.mp h
  exact ⟨rowsCancel_ofRows (hf.sum_gradientRows hrows), rfl⟩

/-- The change to physical coordinates keeps sums of derivatives at zero. -/
theorem rowsCancel_pullBack (hG : G.RowsCancel 1) (h : pullBack J G = .ok b) :
    b.RowsCancel 1 ∧ b.cols = G.cols := by
  unfold pullBack at h
  split_ifs at h with hsquare hfinite
  · split at h
    · rename_i X hX
      cases h
      exact ⟨hG.of_solveMatrix? hX, (solveMatrix?_eq_some hX).2.1⟩
    · cases h
  · cases h
    exact ⟨hG.mul _, rfl⟩

theorem IsLagrange.geometryBasis_eq (hf : f.IsLagrange) (nodes : DenseMatrix ℝ) (ξ : List ℝ) :
    f.geometryBasis nodes ξ = f.basis nodes ξ := by
  rcases hf.cases with rfl | rfl | rfl | rfl | rfl <;> rfl

theorem IsLagrange.gradient_eq (hf : f.IsLagrange) (nodes : DenseMatrix ℝ) (ξ : List ℝ) :
    f.gradient nodes ξ =
      f.localGradient ξ >>= fun G => f.jacobian nodes ξ >>= fun J => pullBack J G := by
  unfold gradient
  split
  · exact absurd hf (by decide)
  · exact absurd hf (by decide)
  · exact absurd hf (by decide)
  · rfl

theorem IsLagrange.jacobian_eq (hf : f.IsLagrange) (hG : f.localGradient ξ = .ok G)
    (hrows : nodes.rows = f.nodeCount) : f.jacobian nodes ξ = .ok (G.mul nodes) := by
  have hcols := (hf.rowsCancel_localGradient hG).2.trans hrows.symm
  unfold jacobian
  split
  · exact absurd hf (by decide)
  · exact absurd hf (by decide)
  · rw [hG, ok_bind, if_pos hcols]
    rfl

/-- Where there is a Jacobian, it is the product of the derivatives in reference coordinates and the nodes. -/
theorem IsLagrange.jacobian_eq_ok (hf : f.IsLagrange) (hrows : nodes.rows = f.nodeCount)
    (h : f.jacobian nodes ξ = .ok J) : ∃ G, f.localGradient ξ = .ok G ∧ J = G.mul nodes := by
  cases hG : f.localGradient ξ with
  | ok G => exact ⟨G, rfl, (Except.ok.inj ((hf.jacobian_eq hG hrows).symm.trans h)).symm⟩
  | error err =>
    unfold jacobian at h
    split at h
    · exact absurd hf (by decide)
    · exact absurd hf (by decide)
    · rw [hG] at h
      cases h

theorem IsLagrange.gradient_eq_pullBack (hf : f.IsLagrange) (hG : f.localGradient ξ = .ok G)
    (hrows : nodes.rows = f.nodeCount) : f.gradient nodes ξ = pullBack (G.mul nodes) G := by
  rw [hf.gradient_eq, hG, ok_bind, hf.jacobian_eq hG hrows, ok_bind]

theorem IsLagrange.gradient_eq_ok (hf : f.IsLagrange) (hrows : nodes.rows = f.nodeCount)
    (h : f.gradient nodes ξ = .ok b) : ∃ G, f.localGradient ξ = .ok G ∧ pullBack (G.mul nodes) G = .ok b := by
  have hbind := h
  rw [hf.gradient_eq] at hbind
  obtain ⟨G, hG, -⟩ := bind_eq_ok.mp hbind
  exact ⟨G, hG, hf.gradient_eq_pullBack hG hrows ▸ h⟩

theorem IsLagrange.dim_bounds (hf : f.IsLagrange) : 0 < f.dim ∧ f.dim ≤ 2 := by
  revert hf
  cases f <;> decide

theorem IsLagrange.fixedDofs_eq (hf : f.IsLagrange) : f.fixedDofs = none := by
  revert hf
  cases f <;> decide

/-- The derivatives in a physical coordinate add up to zero. -/
theorem IsLagrange.rowsCancel_gradient (hf : f.IsLagrange) (h : f.gradient nodes ξ = .ok b) :
    b.RowsCancel 1 ∧ b.cols = f.nodeCount := by
  rw [hf.gradient_eq] at h
  obtain ⟨G, hG, hpull⟩ := bind_eq_ok.mp h
  obtain ⟨J, -, hpull⟩ := bind_eq_ok.mp hpull
  obtain ⟨hcancel, hcols⟩ := hf.rowsCancel_localGradient hG
  exact (rowsCancel_pullBack hcancel hpull).imp_right fun h => h.trans hcols

end Family

namespace Element

variable {e : Element ℝ} {ξ : List ℝ}

/-- With one degree of freedom per node the derivative matrix holds the derivatives themselves. -/
theorem rowsCancel_shapeDerivative (hf : e.family.IsLagrange)
    (hscalar : e.dofsPerNode = 1) {B : DenseMatrix ℝ} (h : e.shapeDerivative ξ = .ok B) :
    B.RowsCancel 1 ∧ B.cols = e.dofs := by
  unfold shapeDerivative at h
  obtain ⟨b, hb, h⟩ := bind_eq_ok.mp h
  have hexpands : e.expands b.cols = false := by simp [expands, hscalar]
  rw [hexpands] at h
  cases h
  rw [dofs, hscalar, mul_one]
  exact hf.rowsCancel_gradient hb

end Element
end WeakForm

/-!
## Jacobians

An element is regular if its Jacobian is not degenerate at any point of its quadrature rule. For a
quadrilateral in the plane it suffices that the Jacobian is positive within the reference square,
where all points of the rule lie.
-/

namespace WeakForm
namespace Element

/-- The Jacobian is not degenerate at any point of the quadrature rule. -/
def IsRegular (e : Element ℝ) : Prop :=
  ∀ points, Kernel.rule e = some points → ∀ q ∈ points, ∃ d, e.detJ q.position = .ok d

theorem detJ_pos {e : Element ℝ} {ξ : List ℝ} {d : ℝ} (h : e.detJ ξ = .ok d) : 0 < d := by
  unfold detJ at h
  obtain ⟨J, -, h⟩ := bind_eq_ok.mp h
  dsimp only at h
  split at h
  · rename_i hpos
    cases h
    simpa using hpos
  · cases h

/-- The determinant is the measure of the Jacobian where that is positive. -/
theorem detJ_of_jacobian {e : Element ℝ} {ξ : List ℝ} {J : DenseMatrix ℝ} (hJ : e.jacobian ξ = .ok J) :
    e.detJ ξ = if 0 < measure J then .ok (measure J) else .error (.degenerate e.id (measure J)) := by
  simp only [detJ, hJ, ok_bind, less_real, decide_eq_true_eq]
  rfl

/-- Of as many directions as coordinates, the measure is the determinant. -/
theorem measure_of_square {J : DenseMatrix ℝ} (hsquare : J.rows = J.cols) (hpos : 0 < J.rows) :
    measure J = J.det := by
  rw [measure, if_neg (hsquare ▸ (Nat.mul_pos hpos hpos).ne'), if_pos hsquare]

theorem detJ_eq_ok {e : Element ℝ} {ξ : List ℝ} {J : DenseMatrix ℝ} (hJ : e.jacobian ξ = .ok J) {d : ℝ} :
    e.detJ ξ = .ok d ↔ 0 < measure J ∧ measure J = d := by
  rw [detJ_of_jacobian hJ]
  split_ifs with hpos <;> simp [hpos]

section Quadrilaterals

theorem abs_gaussPoint_lt_one : |(Scalar.sqrt (3 : ℝ))⁻¹| < 1 := by
  change |(Real.sqrt 3)⁻¹| < 1
  have hone : 1 < Real.sqrt 3 := by
    rw [Real.lt_sqrt (by norm_num)]
    norm_num
  rw [abs_of_pos (inv_pos.mpr (by linarith))]
  exact inv_lt_one_of_one_lt₀ hone

theorem quadrilateralRule_inside {points : List (QuadraturePoint ℝ)}
    (h : Kernel.familyRule .quad4 = some points) :
    ∀ q ∈ points, ∃ x y : ℝ, q.position = [x, y] ∧ |x| < 1 ∧ |y| < 1 := by
  have hin := abs_gaussPoint_lt_one
  have hneg : |-(Scalar.sqrt (3 : ℝ))⁻¹| < 1 := by rwa [abs_neg]
  simp [Kernel.familyRule, Family.rule, Quadrature.rule?, Quadrature.gaussLine,
    Quadrature.tensorProduct_eq, Quadrature.tuples, RuleKind.dim] at h
  subst h
  simp only [List.forall_mem_cons, List.not_mem_nil, false_implies, implies_true, and_true]
  norm_num
  exact ⟨⟨_, _, ⟨rfl, rfl⟩, hneg, hneg⟩, ⟨_, _, ⟨rfl, rfl⟩, hin, hneg⟩,
    ⟨_, _, ⟨rfl, rfl⟩, hneg, hin⟩, ⟨_, _, ⟨rfl, rfl⟩, hin, hin⟩⟩

variable {e : Element ℝ}

theorem jacobian_quad4 (hf : e.family = .quad4) (x y : ℝ) :
    e.jacobian [x, y] = .ok ((DenseMatrix.ofRows 4 (Basis.quad4Gradient x y)).mul e.nodes) := by
  have hlagrange : e.family.IsLagrange := by rw [hf]; decide
  exact hlagrange.jacobian_eq (by rw [hf]; rfl) e.rows_nodes

theorem measure_quad4 (hc : e.nodes.cols = 2) (x y : ℝ) :
    measure ((DenseMatrix.ofRows 4 (Basis.quad4Gradient x y)).mul e.nodes) =
      ((DenseMatrix.ofRows 4 (Basis.quad4Gradient x y)).mul e.nodes).det :=
  measure_of_square hc.symm Nat.two_pos

theorem detJ_quad4 (hf : e.family = .quad4) (hc : e.nodes.cols = 2) {x y : ℝ}
    (hpos : 0 < ((DenseMatrix.ofRows 4 (Basis.quad4Gradient x y)).mul e.nodes).det) :
    e.detJ [x, y] = .ok ((DenseMatrix.ofRows 4 (Basis.quad4Gradient x y)).mul e.nodes).det := by
  rw [detJ_eq_ok (jacobian_quad4 hf x y), measure_quad4 hc]
  exact ⟨hpos, rfl⟩

/-- A quadrilateral is regular if its Jacobian is positive within the reference square. -/
theorem isRegular_quad4 (hf : e.family = .quad4) (hc : e.nodes.cols = 2)
    (hpos : ∀ x y : ℝ, |x| < 1 → |y| < 1 →
      0 < ((DenseMatrix.ofRows 4 (Basis.quad4Gradient x y)).mul e.nodes).det) :
    e.IsRegular := by
  intro points hrule q hq
  rw [Kernel.rule, hf] at hrule
  obtain ⟨x, y, hxy, hx, hy⟩ := quadrilateralRule_inside hrule q hq
  rw [hxy]
  exact ⟨_, detJ_quad4 hf hc (hpos x y hx hy)⟩

end Quadrilaterals

end Element
end WeakForm

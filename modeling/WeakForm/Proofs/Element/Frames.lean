import WeakForm.Proofs.RealScalar
import WeakForm.Proofs.Element.AffineFields
import WeakForm.Proofs.Element.Areas
import WeakForm.Proofs.Kernel.Copies
import WeakForm.Proofs.Kernel.Mass
import WeakForm.Proofs.Linear.PseudoInverse
import WeakForm.Proofs.Tensor.Matrices

/-!
# Elements in other frames

A frame takes coordinates to a space of the same or of a higher dimension and keeps products. Derivatives that
are carried along by a frame are combinations of the rows of the Jacobian that is carried along.

An element of a Lagrange family that fills its own dimension can be moved by a frame and a translation, also
into a space of a higher dimension. The measure of the Jacobian stays the same, positions and derivatives
move along, and so the matrices of the usual weak forms do not change.
-/

namespace WeakForm

open Finset DenseMatrix
open scoped Matrix

namespace DenseMatrix

open Matrix

variable {d m : ℕ}

/-- The columns are orthonormal and, where there are as many of them as coordinates, not reflected. -/
structure IsFrame (Q : DenseMatrix ℝ) : Prop where
  orthonormal : Q.transpose.mul Q = identity Q.cols
  oriented : Q.cols < Q.rows ∨ Q.rows = Q.cols ∧ Q.det = 1

theorem IsFrame.transpose_mul_self {Q : Matrix (Fin m) (Fin d) ℝ} (hQ : (stored Q).IsFrame) : Qᵀ * Q = 1 := by
  apply stored_injective
  rw [← mul_stored, ← transpose_stored, ← identity_eq_stored]
  exact hQ.orthonormal

/-- A frame keeps the products of columns. -/
theorem IsFrame.gram {Q b : DenseMatrix ℝ} (hQ : Q.IsFrame) (hb : b.rows = Q.cols) :
    (Q.mul b).transpose.mul (Q.mul b) = b.transpose.mul b := by
  obtain ⟨M, hM⟩ : ∃ M : Matrix (Fin Q.rows) (Fin Q.cols) ℝ, Q = stored M := exists_eq_stored rfl rfl
  obtain ⟨B, hB⟩ : ∃ B : Matrix (Fin Q.cols) (Fin b.cols) ℝ, b = stored B := exists_eq_stored hb rfl
  have hproduct : (M * B)ᵀ * (M * B) = Bᵀ * B := by
    rw [transpose_mul, Matrix.mul_assoc, ← Matrix.mul_assoc Mᵀ, (hM ▸ hQ : (stored M).IsFrame).transpose_mul_self,
      Matrix.one_mul]
  rw [hM, hB, mul_stored, transpose_stored, mul_stored, hproduct, transpose_stored, mul_stored]

end DenseMatrix

namespace Family

open Matrix

variable {d m n : ℕ} {Q : Matrix (Fin m) (Fin d) ℝ} {J : Matrix (Fin d) (Fin d) ℝ}

section Jacobians

variable (hQ : (stored Q).IsFrame) (hd : 0 < d ∧ d ≤ 2) (hJ : 0 < Element.measure (stored J))
include hQ hd hJ

theorem measure_mul_frame : Element.measure (stored (J * Qᵀ)) = Element.measure (stored J) := by
  have hdet : Element.measure (stored J) = J.det := (Element.measure_of_square rfl hd.1).trans (det_stored hd J)
  rw [hdet] at hJ ⊢
  obtain hlt | ⟨hsquare, hone⟩ := hQ.oriented
  · have hgram : J * Qᵀ * (J * Qᵀ)ᵀ = J * Jᵀ := by
      rw [transpose_mul, transpose_transpose, Matrix.mul_assoc, ← Matrix.mul_assoc Qᵀ, hQ.transpose_mul_self,
        Matrix.one_mul]
    have hne : (stored (J * Qᵀ)).rows ≠ (stored (J * Qᵀ)).cols := Nat.ne_of_lt hlt
    have hpos : (stored (J * Qᵀ)).rows * (stored (J * Qᵀ)).cols ≠ 0 := (Nat.mul_pos hd.1 (hd.1.trans hlt)).ne'
    rw [Element.measure, if_neg hpos, if_neg hne, transpose_stored, mul_stored, det_stored hd, hgram, det_mul,
      det_transpose]
    exact Real.sqrt_mul_self hJ.le
  · obtain rfl : m = d := hsquare
    rw [Element.measure_of_square rfl hd.1, det_stored hd, det_mul, det_transpose, ← det_stored hd Q, hone, mul_one]

/-- The derivatives in the coordinates of the larger space are those of the smaller one, moved by the frame. -/
theorem pullBack_mul_frame {G b : Matrix (Fin d) (Fin n) ℝ} (hb : pullBack (stored J) (stored G) = .ok (stored b)) :
    pullBack (stored (J * Qᵀ)) (stored G) = .ok (stored (Q * b)) := by
  have hmeasure := hJ.trans_eq (measure_mul_frame hQ hd hJ).symm
  have hcols : 0 < m := hQ.oriented.elim (fun hlt => hd.1.trans hlt) fun h => hd.1.trans_eq h.1.symm
  obtain ⟨-, hproduct⟩ := mul_pullBack (G := stored G) hJ rfl hd.2 hd.1 hb
  rw [mul_stored] at hproduct
  have hunit : IsUnit Jᵀ.det := by
    rw [det_transpose, ← det_stored hd, ← Element.measure_of_square rfl hd.1]
    exact hJ.ne'.isUnit
  -- the moved derivatives as combinations of the rows of the Jacobian
  have hcombination : (J * Qᵀ)ᵀ * (Jᵀ⁻¹ * b) = Q * b := by
    rw [transpose_mul, transpose_transpose, Matrix.mul_assoc, mul_nonsing_inv_cancel_left Jᵀ b hunit]
  refine pullBack_eq_ok hd hcols hmeasure rfl ?_ (a := (stored (Jᵀ⁻¹ * b)).entry) fun _ j hj k hk => ?_
  · rw [mul_stored, Matrix.mul_assoc, ← Matrix.mul_assoc Qᵀ, hQ.transpose_mul_self, Matrix.one_mul, hproduct]
  · rw [← hcombination, ← mul_stored, ← transpose_stored, entry_mul]
    refine Finset.sum_congr rfl fun i _ => ?_
    rw [entry_transpose, mul_comm]

end Jacobians

/-- The functions of a Lagrange family do not depend on the nodes. -/
theorem IsLagrange.basis_congr {f : Family} (hf : f.IsLagrange) (nodes nodes' : DenseMatrix ℝ) (ξ : List ℝ) :
    f.basis nodes ξ = f.basis nodes' ξ := by
  rcases hf.cases with rfl | rfl | rfl | rfl | rfl <;> match ξ with
    | [] | [_] | _ :: _ :: _ => rfl

end Family

namespace Element

variable {e : Element ℝ} {Q : DenseMatrix ℝ} {t : ℕ → ℝ} {ξ : List ℝ} {δ : ℝ}

/-- The element with every node `x` moved to `t + Q x`. -/
noncomputable def inFrame (e : Element ℝ) (Q : DenseMatrix ℝ) (t : ℕ → ℝ) : Element ℝ :=
  { e with
    nodes := .ofFn e.nodes.rows Q.rows fun p k => t k + Q.times (e.nodes.entry p) k
    rows_nodes := e.rows_nodes }

@[simp] theorem family_inFrame (e : Element ℝ) (Q : DenseMatrix ℝ) (t : ℕ → ℝ) :
    (e.inFrame Q t).family = e.family := rfl

@[simp] theorem side_inFrame (e : Element ℝ) (Q : DenseMatrix ℝ) (t : ℕ → ℝ) : (e.inFrame Q t).side = e.side := rfl

theorem entry_inFrame {p k : ℕ} (hp : p < e.nodes.rows) (hk : k < Q.rows) :
    (e.inFrame Q t).nodes.entry p k = t k + Q.times (e.nodes.entry p) k :=
  entry_ofFn _ hp hk

theorem mul_nodes_inFrame {G : DenseMatrix ℝ} (hG : G.RowsCancel 1) (hcols : G.cols = e.nodes.rows)
    (hQ : Q.cols = e.nodes.cols) : G.mul (e.inFrame Q t).nodes = (G.mul e.nodes).mul Q.transpose := by
  refine ext rfl rfl fun i k _ hk => ?_
  have hnode : ∀ p < G.cols, (e.inFrame Q t).nodes.entry p k = t k + e.nodes.times (Q.entry k) p := by
    intro p hp
    rw [entry_inFrame (hcols ▸ hp) hk]
    simp only [times, hQ, mul_comm]
  calc (G.mul (e.inFrame Q t).nodes).entry i k
      = G.times ((e.inFrame Q t).nodes.entry · k) i := entry_mul _ _ i k
    _ = G.times (fun p => t k + e.nodes.times (Q.entry k) p) i := times_congr G hnode i
    _ = (G.mul e.nodes).times (Q.entry k) i := hG.times_affine e.nodes (t k) (Q.entry k) i
    _ = ((G.mul e.nodes).mul Q.transpose).entry i k := by
        simp only [entry_mul _ Q.transpose, entry_transpose]
        rfl

section Frames

variable (hf : e.family.IsLagrange)
include hf

theorem position_inFrame (hside : e.side = none) (ξ : List ℝ) :
    (e.inFrame Q t).position ξ = (e.position ξ).map (affineValues Q t) := by
  have hnodes : e.trueNodes = e.nodes := by rw [trueNodes, hside]
  have hnodes' : (e.inFrame Q t).trueNodes = (e.inFrame Q t).nodes := by rw [trueNodes, side_inFrame, hside]
  rw [position, position, hnodes, hnodes', family_inFrame, hf.geometryBasis_eq, hf.geometryBasis_eq,
    hf.basis_congr _ e.nodes]
  cases hn : e.family.basis e.nodes ξ with
  | error err => rfl
  | ok n =>
    obtain ⟨hlength, hone⟩ := hf.basis_eq_ok hn
    have hrows := hlength.trans e.rows_nodes.symm
    refine congrArg Except.ok ((vecMul_eq_blend (e.inFrame Q t).nodes hrows).trans ?_)
    rw [← blend_affineValues hone hrows]
    refine List.map_congr_left fun k hk => blend_congr fun p hp => ?_
    rw [getD_valuesAt (hrows ▸ hp) (List.mem_range.mp hk), entry_inFrame (hrows ▸ hp) (List.mem_range.mp hk)]

variable (hdim : e.nodes.cols = e.family.dim) (hQ : Q.IsFrame) (hcols : Q.cols = e.family.dim)
include hdim hQ hcols

/-- The measure of the Jacobian stays the same, and the derivatives are moved by the frame. -/
theorem exists_gradient_inFrame (hδ : e.detJ ξ = .ok δ) : (e.inFrame Q t).detJ ξ = .ok δ ∧
    ∃ b, e.family.gradient e.nodes ξ = .ok b ∧ b.rows = Q.cols ∧
      (e.inFrame Q t).family.gradient (e.inFrame Q t).nodes ξ = .ok (Q.mul b) := by
  obtain ⟨J, hJ, -⟩ := bind_eq_ok.mp hδ
  obtain ⟨G, hG, rfl⟩ := hf.jacobian_eq_ok e.rows_nodes hJ
  obtain ⟨hmeasure, hvalue⟩ := (detJ_eq_ok hJ).mp hδ
  obtain ⟨hcancel, hcount⟩ := hf.rowsCancel_localGradient hG
  have hmoved := mul_nodes_inFrame (t := t) hcancel (hcount.trans e.rows_nodes.symm) (hcols.trans hdim.symm)
  have hrows : G.rows = e.family.dim := Family.rows_localGradient hG
  obtain ⟨m, hm⟩ : ∃ m, Q.rows = m := ⟨_, rfl⟩
  obtain ⟨Q, rfl⟩ : ∃ M : Matrix (Fin m) (Fin e.family.dim) ℝ, Q = stored M := exists_eq_stored hm hcols
  obtain ⟨J, hstored⟩ : ∃ M : Matrix (Fin e.family.dim) (Fin e.family.dim) ℝ, G.mul e.nodes = stored M :=
    exists_eq_stored hrows hdim
  obtain ⟨G, rfl⟩ : ∃ M : Matrix (Fin e.family.dim) (Fin e.family.nodeCount) ℝ, G = stored M :=
    exists_eq_stored hrows hcount
  rw [hstored] at hmeasure hvalue
  rw [hstored, transpose_stored, mul_stored] at hmoved
  obtain ⟨b, hb⟩ := Family.exists_pullBack_of_measure hf.dim_bounds hmeasure (stored G)
  obtain ⟨hbrows, hproduct⟩ := Family.mul_pullBack (G := stored G) hmeasure rfl hf.dim_bounds.2 hf.dim_bounds.1 hb
  obtain ⟨b, rfl⟩ : ∃ M : Matrix (Fin e.family.dim) (Fin e.family.nodeCount) ℝ, b = stored M :=
    exists_eq_stored hbrows (congrArg DenseMatrix.cols hproduct)
  have hsame := Family.measure_mul_frame hQ hf.dim_bounds hmeasure
  refine ⟨?_, stored b, ?_, rfl, ?_⟩
  · have hjacobian : (e.inFrame (stored Q) t).jacobian ξ = .ok (stored (J * Qᵀ)) :=
      (hf.jacobian_eq hG (e.inFrame (stored Q) t).rows_nodes).trans (congrArg Except.ok hmoved)
    exact (detJ_eq_ok hjacobian).mpr ⟨hmeasure.trans_eq hsame.symm, hsame.trans hvalue⟩
  · rw [hf.gradient_eq_pullBack hG e.rows_nodes, hstored, hb]
  · refine (hf.gradient_eq_pullBack hG (e.inFrame (stored Q) t).rows_nodes).trans ?_
    rw [hmoved, Family.pullBack_mul_frame hQ hf.dim_bounds hmeasure hb, mul_stored]

section Matrices

variable (hregular : e.IsRegular)
include hregular

/-- A kernel that has the same values at all points has the same matrix. -/
theorem localMatrix_inFrame {k : Kernel ℝ} (hk : ∀ q ∈ e.points,
    k.integrand (.regular (e.inFrame Q t) (some q.position)) = k.integrand (.regular e (some q.position)))
    {K : DenseMatrix ℝ} (hK : k.localMatrix e = .ok K) : k.localMatrix (e.inFrame Q t) = .ok K := by
  have hintegral : (k.integrate (e.inFrame Q t)).toOption = (k.integrate e).toOption := by
    refine Kernel.toOption_integrate rfl (fun points hpoints q hq => ?_) fun hnone => ?_
    · obtain ⟨δ, hδ⟩ := hregular points hpoints q hq
      have hmem : q ∈ e.points := by rwa [Element.points, hpoints]
      rw [Kernel.term, Kernel.term, (exists_gradient_inFrame hf hdim hQ hcols hδ).1, hδ, hk q hmem]
    · exact absurd (Kernel.isSome_rule hf) (by rw [hnone]; decide)
  refine Kernel.eq_ok_of_toOption ?_ hK
  rw [Kernel.localMatrix, Kernel.localMatrix, Kernel.toOption_bind, Kernel.toOption_bind, hintegral]
  rfl

variable (hscalar : e.dofsPerNode = 1)
include hscalar

theorem exists_localMatrix_shape {label : String} {defs : Definitions ℝ} {k : Kernel ℝ}
    (hk : Kernel.compile label "N'*N" defs = .ok k) :
    ∃ K, k.localMatrix e = .ok K ∧ k.localMatrix (e.inFrame Q t) = .ok K := by
  have hle : e.nodes.cols ≤ 3 := hdim ▸ hf.dim_bounds.2.trans (Nat.le_succ 2)
  have hplaced : e.IsPlaced := ⟨hscalar ▸ one_pos, by simp [hf.fixedDofs_eq], hle⟩
  have hshape (ξ : List ℝ) : (e.inFrame Q t).shape ξ = e.shape ξ := by
    rw [shape, family_inFrame, hf.basis_congr _ e.nodes]
    rfl
  have hne (ξ : List ℝ) (N : DenseMatrix ℝ) (hN : e.shape ξ = .ok N) : N.cols ≠ 1 := by
    have htwo := hf.two_le_nodeCount
    rw [hplaced.cols_shape hN, dofs, hscalar, mul_one]
    omega
  obtain ⟨K, hK⟩ := Kernel.exists_localMatrix_mass hf hplaced hregular hk
  refine ⟨K, hK, localMatrix_inFrame hf hdim hQ hcols hregular (fun q _ => ?_) hK⟩
  rw [Kernel.integrand_square hk Kernel.parse_square (fun _ => Kernel.meaning_shape) hne,
    Kernel.integrand_square hk Kernel.parse_square (fun _ => Kernel.meaning_shape)
      fun ξ N hN => hne ξ N (hshape ξ ▸ hN), hshape]

theorem exists_localMatrix_derivative {label : String} {defs : Definitions ℝ} {k : Kernel ℝ}
    (hk : Kernel.compile label "B'*B" defs = .ok k) :
    ∃ K, k.localMatrix e = .ok K ∧ k.localMatrix (e.inFrame Q t) = .ok K := by
  have hgradient : ∀ q ∈ e.points, ∃ b, e.shapeDerivative q.position = .ok b ∧ b.rows = Q.cols ∧
      (e.inFrame Q t).shapeDerivative q.position = .ok (Q.mul b) := by
    intro q hq
    obtain ⟨δ, hδ⟩ := hregular.exists_detJ hq
    rw [shapeDerivative_of_scalar hscalar, shapeDerivative_of_scalar (e := e.inFrame Q t) hscalar]
    exact (exists_gradient_inFrame hf hdim hQ hcols hδ).2
  have hdifferentiable : e.IsDifferentiable :=
    ⟨hregular, fun q hq => (hgradient q hq).imp fun _ hb => hb.1⟩
  obtain ⟨K, hK⟩ := (Kernel.isStiffness_grammian hk hf hscalar).exists_localMatrix hdifferentiable
  refine ⟨K, hK, localMatrix_inFrame hf hdim hQ hcols hregular (fun q hq => ?_) hK⟩
  obtain ⟨b, hb, hrows, hmoved⟩ := hgradient q hq
  have hcongruence (e : Element ℝ) (hf : e.family.IsLagrange) (hscalar : e.dofsPerNode = 1) :=
    Kernel.isCongruence_grammian hk (e := e) fun _ _ hB => (Kernel.cols_shapeDerivative hf hscalar hB).2
  rw [hcongruence e hf hscalar, hcongruence (e.inFrame Q t) hf hscalar, Option.getD_some, hb, hmoved]
  simp only [Except.map, ← mul_eq_congruence, hQ.gram hrows]

end Matrices

/-- Moved by a frame and a translation, an element keeps the measure of its Jacobian wherever that is positive
and the matrices of the usual forms, and its positions and derivatives move along. -/
theorem frame_indifference (t : ℕ → ℝ) :
    (∀ ξ δ, e.detJ ξ = .ok δ → (e.inFrame Q t).detJ ξ = .ok δ ∧
      ∃ b, e.family.gradient e.nodes ξ = .ok b ∧
        (e.inFrame Q t).family.gradient (e.inFrame Q t).nodes ξ = .ok (Q.mul b)) ∧
    (e.side = none → ∀ ξ, (e.inFrame Q t).position ξ = (e.position ξ).map (affineValues Q t) ∧
      (e.family.dim ≤ ξ.length → ∃ x, e.position ξ = .ok x)) ∧
    (e.dofsPerNode = 1 → e.IsRegular → ∀ text ∈ ["N'*N", "B'*B"], ∀ label defs k,
      Kernel.compile label text defs = .ok k →
        ∃ K, k.localMatrix e = .ok K ∧ k.localMatrix (e.inFrame Q t) = .ok K) := by
  refine ⟨fun ξ δ hδ => ?_, fun hside ξ => ⟨position_inFrame hf hside ξ, fun hξ => ?_⟩, ?_⟩
  · obtain ⟨hmoved, b, hb, -, hb'⟩ := exists_gradient_inFrame (t := t) hf hdim hQ hcols hδ
    exact ⟨hmoved, b, hb, hb'⟩
  · obtain ⟨n, hn⟩ := hf.exists_basis_of_length hξ e.nodes
    rw [position, hf.geometryBasis_eq, hn]
    exact ⟨_, rfl⟩
  · intro hscalar hregular text htext label defs k hk
    rcases List.mem_pair.mp htext with rfl | rfl
    · exact exists_localMatrix_shape hf hdim hQ hcols hregular hscalar hk
    · exact exists_localMatrix_derivative hf hdim hQ hcols hregular hscalar hk

end Frames

/-- A distorted quadrilateral on a sloped plane in space. -/
theorem frame_indifference_quad : let e : Element ℝ :=
      ⟨1, .quad4, .ofRows 2 [[0, 0], [2, 0], [3, 2], [0, 1]], [1, 2, 3, 4], 1, none, rfl, rfl⟩
    let Q : DenseMatrix ℝ := .ofRows 2 [[1, 0], [0, 3 / 5], [0, 4 / 5]]
    (Q.IsFrame ∧ e.IsRegular) ∧ (e.inFrame Q fun k => k).detJ [0, 0] = .ok (7 / 8) ∧
      (e.inFrame Q fun k => k).position [0, 0] = .ok [5 / 4, 29 / 20, 13 / 5] ∧
      ∀ text ∈ ["N'*N", "B'*B"], ∃ k K, Kernel.compile "K" text [] = .ok k ∧
        k.localMatrix e = .ok K ∧ k.localMatrix (e.inFrame Q fun k => k) = .ok K := by
  intro e Q
  have hQ : Q.IsFrame := by
    refine ⟨ext rfl rfl fun i j hi hj => ?_, .inl (by decide)⟩
    have hheight : Q.transpose.cols = 3 := rfl
    change i < 2 at hi
    change j < 2 at hj
    rw [entry_mul, hheight]
    interval_cases i <;> interval_cases j <;>
      norm_num [Q, entry_transpose, identity, ofRows, entry_ofFn_eq, sum_range_succ]
  have hregular : e.IsRegular := by
    have hroot := Real.sqrt_nonneg 3
    refine (isRegular_quad4_iff rfl rfl).mpr fun i hi => ?_
    interval_cases i
    all_goals
      norm_num [cornerMeasure, cornerArea, cross, e, entry_ofFn_eq, ofRows]
      linarith
  have hdet : ((ofRows 4 (Basis.quad4Gradient 0 0)).mul e.nodes).det = 7 / 8 := by
    rw [det_two rfl rfl]
    norm_num [e, entry_mul, ofRows, entry_ofFn_eq, sum_range_succ, Basis.quad4Gradient]
  have hδ := detJ_quad4 (e := e) rfl rfl (x := 0) (y := 0) (by rw [hdet]; norm_num)
  obtain ⟨hgeometry, hposition, hmatrix⟩ := frame_indifference (e := e) (by decide) rfl hQ rfl fun k => k
  refine ⟨⟨hQ, hregular⟩, hdet ▸ (hgeometry _ _ hδ).1, (hposition rfl _).1.trans ?_, fun text htext => ?_⟩
  · rw [position_eq_ok (n := Basis.quad4 0 0) rfl rfl]
    norm_num [affineValues, e, Q, trueNodes, times, Basis.quad4, ofRows, entry_ofFn_eq, sum_range_succ, List.range_succ,
      Except.map]
  · have hnamed : Definitions.AreNamed ([] : Definitions ℝ) := List.forall_mem_nil _
    obtain ⟨k, hk⟩ : ∃ k, Kernel.compile "K" text ([] : Definitions ℝ) = .ok k := by
      rcases List.mem_pair.mp htext with rfl | rfl
      · exact Kernel.exists_compile Kernel.parse_square hnamed (by decide) "K"
      · exact Kernel.exists_compile Kernel.parse_grammian hnamed (by decide) "K"
    obtain ⟨K, hK⟩ := hmatrix rfl hregular text htext "K" [] k hk
    exact ⟨k, K, hk, hK⟩

end Element
end WeakForm

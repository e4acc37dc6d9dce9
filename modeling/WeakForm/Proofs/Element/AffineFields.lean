import WeakForm.Proofs.RealScalar
import WeakForm.Proofs.Element.Strains

/-!
# Affine fields on elements

Where an element fills its space, its basis functions reproduce the coordinates, however distorted it
is. The derivatives of an affine field are therefore its slopes, and in the plane the strains of a
translation and of an infinitesimal rotation vanish.
-/

namespace WeakForm

open Finset DenseMatrix

namespace Family

variable {f : Family} {nodes b : DenseMatrix ℝ} {ξ : List ℝ}

theorem isLagrange_of_dim (hf : f.dim = 2) : f.IsLagrange := by
  revert hf
  cases f <;> decide

/-- The derivatives of a coordinate. -/
theorem IsLagrange.times_coordinate (hf : f.IsLagrange) (hnodes : nodes.rows = f.nodeCount)
    (hdim : f.dim = nodes.cols) (h : f.gradient nodes ξ = .ok b) {k l : ℕ} (hk : k < nodes.cols)
    (hl : l < nodes.cols) : b.times (nodes.entry · l) k = if k = l then 1 else 0 := by
  obtain ⟨G, hG, h⟩ := hf.gradient_eq_ok hnodes h
  obtain ⟨J, hJ⟩ : ∃ J, J = G.mul nodes := ⟨_, rfl⟩
  have hJrows : J.rows = nodes.cols := hJ ▸ (rows_localGradient hG).trans hdim
  have hsquare : J.rows = J.cols := hJrows.trans (hJ ▸ rfl)
  have hheights : J.rows = G.rows := hJ ▸ rfl
  rw [← hJ, pullBack, if_pos hsquare] at h
  split at h
  · rename_i X hX
    obtain rfl := Except.ok.inj h
    -- the Jacobian makes the same of the derivatives and of the identity
    have hproduct : J.times (X.times (nodes.entry · l)) = (J.entry · l) := by
      funext i
      rw [← times_mul, mul_of_solveMatrix? hX hsquare hheights, hJ, entry_mul]
      rfl
    have hcols : 0 < G.cols := (hf.rowsCancel_localGradient hG).2 ▸ Nat.zero_lt_of_lt hf.two_le_nodeCount
    refine sub_eq_zero.mp (eq_zero_of_solveMatrix? hX hcols (v := fun k =>
      X.times (nodes.entry · l) k - if k = l then 1 else 0) (fun i _ => ?_) (hJrows ▸ hk))
    have htimes := congrFun hproduct i
    rw [times, ← hsquare] at htimes
    have hl' : l ∈ range J.rows := mem_range.mpr (hJrows ▸ hl)
    simp only [mul_sub, sum_sub_distrib, htimes, mul_ite, mul_one, mul_zero, sum_ite_eq', hl',
      if_true, sub_self]
  · cases h

/-- The derivatives of a field that is affine in the coordinates are its slopes. -/
theorem IsLagrange.times_affine (hf : f.IsLagrange) (hnodes : nodes.rows = f.nodeCount)
    (hdim : f.dim = nodes.cols) (h : f.gradient nodes ξ = .ok b) (c : ℝ) (slopes : ℕ → ℝ) {k : ℕ}
    (hk : k < nodes.cols) : b.times (fun p => c + nodes.times slopes p) k = slopes k := by
  have hentry {l : ℕ} (hl : l < nodes.cols) : (b.mul nodes).entry k l = if k = l then 1 else 0 :=
    (entry_mul b nodes k l).trans (hf.times_coordinate hnodes hdim h hk hl)
  calc b.times (fun p => c + nodes.times slopes p) k
      = (b.mul nodes).times slopes k := (hf.rowsCancel_gradient h).1.times_affine nodes c slopes k
    _ = ∑ l ∈ range nodes.cols, (if k = l then 1 else 0) * slopes l :=
        sum_congr rfl fun l hl => by rw [hentry (mem_range.mp hl)]
    _ = slopes k := by
        simp [hk]

end Family

namespace Element

variable {e : Element ℝ} {ξ : List ℝ} {b B : DenseMatrix ℝ} {u : ℕ → ℝ}

/-- The two normal strains and the shear angle of a plane field. -/
theorem times_strainMatrix (hb : b.rows = 2) (u : ℕ → ℝ) (i : ℕ) : (strainMatrix b).times u i =
    [b.times (fun p => u (p * 2)) 0, b.times (fun p => u (p * 2 + 1)) 1,
      b.times (fun p => u (p * 2)) 1 + b.times (fun p => u (p * 2 + 1)) 0].getD i 0 := by
  rw [times_strainMatrix_eq_sum (.inl hb), hb]
  rcases i with - | - | - | i <;> simp [strains, List.lookup, sum_range_succ]

section Plane

variable (hf : e.family.dim = 2) (hdofs : e.dofsPerNode = 2)
include hf hdofs

/-- The derivative matrix of a plane element with two degrees of freedom per node makes strains. -/
theorem shapeDerivative_of_plane (ξ : List ℝ) : e.shapeDerivative ξ =
    e.family.gradient e.nodes ξ >>= fun b =>
      if b.rows = 2 then .ok (strainMatrix b) else .error (.noDerivative 2 b.rows) := by
  have hbeam : e.family ≠ .beam2 := by
    intro h
    rw [h] at hf
    cases hf
  simp only [shapeDerivative_of_components hbeam (hdofs ▸ one_lt_two), hdofs, eq_comm (a := 2), Nat.cast_ofNat]

theorem exists_strains (hB : e.shapeDerivative ξ = .ok B) : ∃ b, e.family.gradient e.nodes ξ = .ok b ∧
    b.rows = 2 ∧ e.nodes.cols = 2 ∧ B = strainMatrix b := by
  rw [shapeDerivative_of_plane hf hdofs] at hB
  obtain ⟨b, hb, hB⟩ := bind_eq_ok.mp hB
  split_ifs at hB with hrows
  cases hB
  exact ⟨b, hb, hrows, ((Family.isLagrange_of_dim hf).rows_gradient e.rows_nodes hb).symm.trans hrows, rfl⟩

theorem rows_strains (hB : e.shapeDerivative ξ = .ok B) : B.rows = 3 := by
  obtain ⟨b, -, hrows, -, rfl⟩ := exists_strains hf hdofs hB
  rw [strainMatrix, hrows]
  rfl

/-- Where it is placed affinely in the plane and not degenerate, it has strains everywhere. -/
theorem IsAffine.isDifferentiable_plane {origin : ℕ → ℝ} {directions : DenseMatrix ℝ}
    (h : e.IsAffine origin directions) (hcols : e.nodes.cols = 2) (hmeasure : 0 < measure directions) :
    e.IsDifferentiable := by
  have hlagrange := Family.isLagrange_of_dim hf
  refine ⟨h.isRegular hlagrange hmeasure, fun q hq => ?_⟩
  obtain ⟨rows, hrows⟩ := hlagrange.exists_gradientRows _ (List.mem_map_of_mem hq)
  obtain ⟨b, hb⟩ := h.exists_gradient hlagrange hmeasure hrows
  have hplane : b.rows = 2 := (hlagrange.rows_gradient e.rows_nodes hb).trans hcols
  exact ⟨_, by rw [shapeDerivative_of_plane hf hdofs, hb, ok_bind, if_pos hplane]⟩

/-- Its strains where both components are affine in the coordinates. -/
theorem times_strains (hB : e.shapeDerivative ξ = .ok B) {a c : ℝ} {s t : ℕ → ℝ}
    (hu : ∀ p < e.family.nodeCount,
      u (p * 2) = a + e.nodes.times s p ∧ u (p * 2 + 1) = c + e.nodes.times t p) (i : ℕ) :
    B.times u i = [s 0, t 1, s 1 + t 0].getD i 0 := by
  obtain ⟨b, hb, hrows, hplane, rfl⟩ := exists_strains hf hdofs hB
  have hlagrange := Family.isLagrange_of_dim hf
  have hcols := (hlagrange.rowsCancel_gradient hb).2
  have hslope {v : ℕ → ℝ} {a : ℝ} {s : ℕ → ℝ}
      (hv : ∀ p < e.family.nodeCount, v p = a + e.nodes.times s p) {k : ℕ} (hk : k < 2) : b.times v k = s k := by
    rw [← hlagrange.times_affine e.rows_nodes (hf.trans hplane.symm) hb a s (hplane.symm ▸ hk)]
    exact times_congr b (fun p hp => hv p (hcols ▸ hp)) k
  have hfirst {k : ℕ} (hk : k < 2) := hslope (fun p hp => (hu p hp).1) hk
  have hsecond {k : ℕ} (hk : k < 2) := hslope (fun p hp => (hu p hp).2) hk
  rw [times_strainMatrix hrows, hfirst two_pos, hfirst one_lt_two, hsecond one_lt_two, hsecond two_pos]

/-- It has no strains where it is moved rigidly: the shear angles of a rotation are opposite. -/
theorem rowsCancel_rigid (hB : e.shapeDerivative ξ = .ok B) {a c ω : ℝ}
    (hu : ∀ p < e.family.nodeCount, u (p * 2) = a - ω * e.nodes.entry p 1 ∧
      u (p * 2 + 1) = c + ω * e.nodes.entry p 0) : B.RowsCancel u := by
  obtain ⟨b, -, -, hplane, -⟩ := exists_strains hf hdofs hB
  refine rowsCancel_iff.mpr fun i => ?_
  rw [times_strains hf hdofs hB (a := a) (c := c) (s := fun k => [0, -ω].getD k 0)
    (t := fun k => [ω, 0].getD k 0) (fun p hp => ?_)]
  · rcases i with _ | _ | _ | i <;> simp
  · rw [(hu p hp).1, (hu p hp).2]
    constructor <;> simp [times, hplane, sum_range_succ] <;> ring

end Plane

end Element
end WeakForm

/-!
## Interpolants of affine fields

However an element is distorted or embedded, the field with the nodal values of an affine function of the
coordinates is that function everywhere. Where the Jacobian is square and not singular, the derivative
matrix makes of these values the gradient of the function, and in the plane the strains of an affine
displacement.
-/

namespace WeakForm

open Finset DenseMatrix

/-- The values at a point of the field with a row of slopes and a constant for every component. -/
noncomputable def affineValues (A : DenseMatrix ℝ) (c : ℕ → ℝ) (x : List ℝ) : List ℝ :=
  (List.range A.rows).map fun i => c i + A.times (fun k => x.getD k 0) i

/-- The values of a field at points, given by the rows of a matrix, one after the other. -/
def valuesAt (points : DenseMatrix ℝ) (g : List ℝ → List ℝ) : List ℝ :=
  (List.range points.rows).flatMap fun p => g (points.row p)

section Values

variable {A points : DenseMatrix ℝ} {c : ℕ → ℝ}

theorem affineValues_row (A points : DenseMatrix ℝ) (c : ℕ → ℝ) (p : ℕ) : affineValues A c (points.row p) =
    (List.range A.rows).map fun i => c i + A.times (points.entry p) i := by
  simp only [affineValues, getD_row]

theorem getD_valuesAt {p i : ℕ} (hp : p < points.rows) (hi : i < A.rows) :
    (valuesAt points (affineValues A c)).getD (p * A.rows + i) 0 = c i + A.times (points.entry p) i := by
  have hlength (p : ℕ) : (affineValues A c (points.row p)).length = A.rows := by simp [affineValues]
  rw [List.getD_eq_getElem?_getD, valuesAt, getElem?_flatMap_of_length hlength _ hi]
  simp [hp, hi, affineValues_row]

/-- The blended values of an affine field are its values at the blended point. -/
theorem blend_affineValues {n : List ℝ} (hone : blend n 1 = 1) (hlength : n.length = points.rows) :
    (List.range A.rows).map (fun i => blend n fun p =>
      (valuesAt points (affineValues A c)).getD (p * A.rows + i) 0) = affineValues A c (points.vecMul n) := by
  refine List.map_congr_left fun i hi => ?_
  have hentry (k : ℕ) : (points.vecMul n).getD k 0 = blend n (points.entry · k) := by
    rw [Element.vecMul_eq_blend _ hlength]
    by_cases hk : k < points.cols
    · simp [hk]
    · simp only [points.entry_of_cols_le (not_lt.mp hk), blend, mul_zero, sum_const_zero]
      exact List.getD_eq_default _ _ (by simpa using hk)
  simp only [hentry]
  rw [times, ← blend_affine hone]
  exact blend_congr fun p hp => getD_valuesAt (hlength ▸ hp) (List.mem_range.mp hi)

end Values

namespace Element

variable {e : Element ℝ} {ξ : List ℝ} {A : DenseMatrix ℝ} {c : ℕ → ℝ}

/-- The values of a vector at the degrees of freedom of an element are those of a field at its nodes. -/
def IsInterpolant (e : Element ℝ) (u : Array ℝ) (g : List ℝ → List ℝ) : Prop :=
  (e.getDof.mapM fun d => (position? u.size d).bind (u[·]?)) = some (valuesAt e.trueNodes g)

/-- The interpolant of an affine field is the field. -/
theorem IsInterpolant.evaluate_eq {u : Array ℝ} (hu : e.IsInterpolant u (affineValues A c))
    (hf : e.family.IsLagrange) (hpos : 0 < e.dofsPerNode) (hnodes : e.trueNodes.rows = e.family.nodeCount)
    (hA : A.rows = e.dofsPerNode) (ξ : List ℝ) :
    e.evaluate u ξ = (e.position ξ).map (affineValues A c) := by
  cases hn : e.family.basis e.nodes ξ with
  | error err => rw [evaluate, shape, position, hf.geometryBasis_eq, hn]; rfl
  | ok n =>
    obtain ⟨hlength, hone⟩ := hf.basis_eq_ok hn
    rw [evaluate_of_values hn hlength hpos hu, position, hf.geometryBasis_eq, hn, ok_bind, ← hA,
      blend_affineValues hone (hlength.trans hnodes.symm)]
    rfl

section Gradients

variable {J b : DenseMatrix ℝ} (hf : e.family.IsLagrange)
include hf

/-- The derivatives of the nodal values of a component are its slopes. -/
theorem times_valuesAt (hdim : e.family.dim = e.nodes.cols) (hA : A.cols = e.nodes.cols)
    (hb : e.family.gradient e.nodes ξ = .ok b) {i k : ℕ} (hi : i < A.rows) (hk : k < e.nodes.cols) :
    b.times (fun p => (valuesAt e.nodes (affineValues A c)).getD (p * A.rows + i) 0) k = A.entry i k := by
  have hcols := (hf.rowsCancel_gradient hb).2.trans e.rows_nodes.symm
  rw [← hf.times_affine e.rows_nodes hdim hb (c i) (A.entry i) hk]
  refine times_congr b (fun p hp => (getD_valuesAt (hcols ▸ hp) hi).trans ?_) k
  simp only [times, hA, mul_comm]

variable (hJ : e.jacobian ξ = .ok J) (hsquare : J.rows = J.cols)
include hJ hsquare

/-- Where the Jacobian is square and not singular there are derivatives in all coordinates. -/
theorem exists_gradient_of_square (hdet : J.det ≠ 0) : e.family.dim = e.nodes.cols ∧
    ∃ b, e.family.gradient e.nodes ξ = .ok b ∧ b.rows = e.nodes.cols := by
  obtain ⟨G, hG, rfl⟩ := hf.jacobian_eq_ok e.rows_nodes hJ
  have hdim : G.rows = e.family.dim := Family.rows_localGradient hG
  obtain ⟨b, hb⟩ := Family.exists_pullBack hsquare (hdim ▸ hf.dim_bounds.1) (hdim ▸ hf.dim_bounds.2) hdet G
  rw [← hf.gradient_eq_pullBack hG e.rows_nodes] at hb
  exact ⟨hdim.symm.trans hsquare, b, hb, hf.rows_gradient e.rows_nodes hb⟩

/-- In a scalar space the derivative matrix makes the gradient of the nodal values of an affine field. -/
theorem exists_shapeDerivative_affine (hdet : J.det ≠ 0) (hscalar : e.dofsPerNode = 1) (hone : A.rows = 1)
    (hA : A.cols = e.nodes.cols) : ∃ B, e.shapeDerivative ξ = .ok B ∧ B.cols = e.dofs ∧
      B.mulVec (valuesAt e.nodes (affineValues A c)) = A.row 0 := by
  obtain ⟨hdim, b, hb, hrows⟩ := exists_gradient_of_square hf hJ hsquare hdet
  have hB := (shapeDerivative_of_scalar hscalar ξ).trans hb
  refine ⟨b, hB, (rowsCancel_shapeDerivative hf hscalar hB).2, ?_⟩
  rw [mulVec_eq_times, hrows, ← hA]
  refine List.map_congr_left fun k hk => ?_
  have htimes := times_valuesAt (c := c) hf hdim hA hb (hone ▸ one_pos) (hA ▸ List.mem_range.mp hk)
  simpa only [hone, mul_one, add_zero] using htimes

/-- In the plane it makes the strains of the nodal values of an affine displacement. -/
theorem exists_shapeDerivative_plane (hdet : J.det ≠ 0) (hdofs : e.dofsPerNode = 2) (htwo : A.rows = 2)
    (hA : A.cols = e.nodes.cols) (hplane : e.nodes.cols = 2) : ∃ B, e.shapeDerivative ξ = .ok B ∧ B.cols = e.dofs ∧
      B.mulVec (valuesAt e.nodes (affineValues A c)) =
        [A.entry 0 0, A.entry 1 1, A.entry 0 1 + A.entry 1 0] := by
  obtain ⟨hdim, b, hb, hrows⟩ := exists_gradient_of_square hf hJ hsquare hdet
  have hbrows : b.rows = 2 := hrows.trans hplane
  have hB : e.shapeDerivative ξ = .ok (strainMatrix b) := by
    rw [shapeDerivative_of_plane (hdim.trans hplane) hdofs, hb, ok_bind, if_pos hbrows]
  have htimes {i k : ℕ} (hi : i < 2) (hk : k < 2) :=
    times_valuesAt (c := c) hf hdim hA hb (htwo ▸ hi) (hplane ▸ hk)
  obtain ⟨hheight, hwidth⟩ := size_strainMatrix (.inl hbrows)
  refine ⟨_, hB, ?_, ?_⟩
  · rw [hwidth, hbrows, (hf.rowsCancel_gradient hb).2, dofs, hdofs, mul_comm]
  · rw [mulVec_eq_times, hheight, hbrows, List.map_congr_left fun i _ => times_strainMatrix hbrows _ i]
    have hfirst {k : ℕ} (hk : k < 2) := htimes two_pos hk
    have hsecond {k : ℕ} (hk : k < 2) := htimes one_lt_two hk
    simp only [htwo, add_zero] at hfirst hsecond
    simp only [hfirst two_pos, hfirst one_lt_two, hsecond two_pos, hsecond one_lt_two]
    rfl

end Gradients

/-- Affine fields are reproduced: their interpolants at all points, and their derivatives wherever they exist. -/
theorem affine_reproduction (hf : e.family.IsLagrange) (hpos : 0 < e.dofsPerNode) (hA : A.rows = e.dofsPerNode)
    (c : ℕ → ℝ) :
    (e.trueNodes.rows = e.family.nodeCount → ∀ u, e.IsInterpolant u (affineValues A c) → ∀ ξ,
      e.evaluate u ξ = (e.position ξ).map (affineValues A c) ∧
        (e.family.dim ≤ ξ.length → ∃ x, e.position ξ = .ok x ∧ x.length = e.trueNodes.cols)) ∧
    (A.cols = e.nodes.cols → ∀ ξ J, e.jacobian ξ = .ok J → J.rows = J.cols → J.det ≠ 0 →
      (e.dofsPerNode = 1 → ∃ B, e.shapeDerivative ξ = .ok B ∧ B.cols = e.dofs ∧
        B.mulVec (valuesAt e.nodes (affineValues A c)) = A.row 0) ∧
      (e.dofsPerNode = 2 → e.nodes.cols = 2 → ∃ B, e.shapeDerivative ξ = .ok B ∧ B.cols = e.dofs ∧
        B.mulVec (valuesAt e.nodes (affineValues A c)) =
          [A.entry 0 0, A.entry 1 1, A.entry 0 1 + A.entry 1 0])) := by
  refine ⟨fun hnodes u hu ξ => ⟨hu.evaluate_eq hf hpos hnodes hA ξ, fun hξ => ?_⟩,
    fun hcols ξ J hJ hsquare hdet => ⟨fun hscalar => ?_, fun hdofs hplane => ?_⟩⟩
  · obtain ⟨n, hn⟩ := hf.exists_basis_of_length hξ e.nodes
    refine ⟨_, position_eq_ok (hf.geometryBasis_eq .. ▸ hn) ((hf.basis_eq_ok hn).1.trans hnodes.symm), ?_⟩
    rw [List.length_map, List.length_range]
  · exact exists_shapeDerivative_affine hf hJ hsquare hdet hscalar (hA.trans hscalar) hcols
  · exact exists_shapeDerivative_plane hf hJ hsquare hdet hdofs (hA.trans hdofs) hcols hplane

/-- The displacement `(5 + x + 2 y, 6 + 3 x + 4 y)` of a triangle in the plane. -/
theorem affine_reproduction_triangle : let e : Element ℝ :=
      ⟨1, .tri3, .ofRows 2 [[0, 0], [2, 0], [1, 1]], [1, 2, 3], 2, none, rfl, rfl⟩
    let A : DenseMatrix ℝ := .ofRows 2 [[1, 2], [3, 4]]
    let g := affineValues A fun i => 5 + i
    ∃ u B, e.IsInterpolant u g ∧ e.evaluate u [1 / 3, 1 / 3] = (e.position [1 / 3, 1 / 3]).map g ∧
      e.shapeDerivative [1 / 3, 1 / 3] = .ok B ∧ B.mulVec (valuesAt e.nodes g) = [1, 4, 2 + 3] := by
  intro e A g
  have hu : e.IsInterpolant (valuesAt e.nodes g).toArray g := rfl
  have hf : e.family.IsLagrange := by decide
  have hrows : e.family.gradientRows [(1 / 3 : ℝ), 1 / 3] = .ok Basis.tri3Gradient := rfl
  have hJ : e.jacobian [1 / 3, 1 / 3] = .ok (.ofFn 2 2 fun d k => e.nodes.entry (d + 1) k - e.nodes.entry 0 k) := by
    rw [jacobian, hf.jacobian_eq (Family.localGradient_eq hrows) e.rows_nodes]
    exact congrArg Except.ok ((IsAffine.of_tri3 (e := e) rfl).mul_nodes hf hrows)
  have hdet : (.ofFn 2 2 fun d k => e.nodes.entry (d + 1) k - e.nodes.entry 0 k : DenseMatrix ℝ).det ≠ 0 := by
    rw [det_ofFn_two rfl]
    norm_num [e, ofRows, entry_ofFn_eq]
  obtain ⟨hvalues, hderivatives⟩ := affine_reproduction (A := A) hf two_pos rfl fun i => 5 + i
  obtain ⟨B, hB, -, hstrain⟩ := (hderivatives rfl _ _ hJ rfl hdet).2 rfl rfl
  refine ⟨_, B, hu, (hvalues rfl _ hu _).1, hB, hstrain.trans ?_⟩
  norm_num [A, ofRows, entry_ofFn_eq]

end Element
end WeakForm

import WeakForm.Proofs.RealScalar
import WeakForm.Proofs.Element.Columns
import WeakForm.Proofs.Element.Placements

/-!
# Local products of straight elements

On a segment, a triangle or a parallelogram the Jacobian is constant, and the product of a stiffness
matrix with a field can be written down from the values at the nodes.
-/

/-!
## Segments of a line

On a segment with two nodes the product of a stiffness matrix with two fields is that of their
differences, and a constant load is shared equally by both nodes.
-/

namespace WeakForm
namespace Element

open DenseMatrix

/-- A segment between two different points has derivatives, also where it is embedded. -/
theorem isDifferentiable_line2 {e : Element ℝ} (hf : e.family = .line2) (hscalar : e.dofsPerNode = 1)
    (hcols : 1 < e.nodes.cols) {k : ℕ} (hk : k < e.nodes.cols)
    (hne : e.nodes.entry 1 k ≠ e.nodes.entry 0 k) : e.IsDifferentiable := by
  obtain ⟨J, hJ⟩ : ∃ J, J = DenseMatrix.ofFn 1 e.nodes.cols
      fun _ k => (e.nodes.entry 1 k - e.nodes.entry 0 k) / 2 := ⟨_, rfl⟩
  have hrows : J.rows = 1 := by rw [hJ]; rfl
  have hwide : J.cols = e.nodes.cols := by rw [hJ]; rfl
  have hplaced := IsAffine.of_line2 hf
  rw [← hJ] at hplaced
  refine hplaced.isDifferentiable (by rw [hf]; decide) ?_ hscalar
  have hgram : 0 < (J.mul J.transpose).det := by
    rw [det_one (A := J.mul J.transpose) hrows hrows, entry_mul_transpose J (by omega), dot]
    refine Finset.sum_pos' (fun j _ => mul_self_nonneg _) ⟨k, Finset.mem_range.mpr (hwide ▸ hk), ?_⟩
    rw [hJ, entry_ofFn _ Nat.one_pos hk]
    exact mul_self_pos.mpr (div_ne_zero (sub_ne_zero.mpr hne) two_ne_zero)
  have hsize : J.rows * J.cols ≠ 0 ∧ J.rows ≠ J.cols := by
    rw [hrows, hwide]
    omega
  rw [measure, if_neg hsize.1, if_neg hsize.2]
  exact Real.sqrt_pos.mpr hgram

theorem shape_line2 {e : Element ℝ} (hf : e.family = .line2) (hscalar : e.dofsPerNode = 1) (x : ℝ)
    (ξ : List ℝ) : e.shape (x :: ξ) = .ok (.ofRows 2 [Basis.line2 x]) := by
  have hexpands : e.expands (Basis.line2 x).length = false := by
    simp [expands, hscalar]
  have hbasis : e.family.basis e.nodes (x :: ξ) = .ok (Basis.line2 x) := by rw [hf]; rfl
  rw [shape, hbasis, ok_bind, hexpands]
  rfl

/-- A segment of the line with two nodes at distance `h` and one degree of freedom per node. -/
structure IsStraight (e : Element ℝ) (h : ℝ) : Prop where
  family_eq : e.family = .line2
  cols_eq : e.nodes.cols = 1
  dofsPerNode_eq : e.dofsPerNode = 1
  length_eq : e.nodes.entry 1 0 - e.nodes.entry 0 0 = h
  length_pos : 0 < h

namespace IsStraight

variable {e : Element ℝ} {h : ℝ} (he : e.IsStraight h)
include he

theorem isLagrange : e.family.IsLagrange := by
  rw [he.family_eq]
  decide

theorem dofs_eq : e.dofs = 2 := by
  rw [dofs, he.family_eq, he.dofsPerNode_eq]
  rfl

/-- The one direction is half of the segment. -/
theorem exists_directions : ∃ origin directions, e.IsAffine origin directions ∧
    directions.rows = 1 ∧ directions.cols = 1 ∧ directions.entry 0 0 = h / 2 ∧
      directions.det = h / 2 := by
  obtain ⟨directions, hdirections⟩ : ∃ directions, directions = DenseMatrix.ofFn 1 e.nodes.cols
      fun _ k => (e.nodes.entry 1 k - e.nodes.entry 0 k) / 2 := ⟨_, rfl⟩
  have hrows : directions.rows = 1 := by rw [hdirections]; rfl
  have hcols : directions.cols = 1 := by rw [hdirections]; exact he.cols_eq
  have hentry : directions.entry 0 0 = h / 2 := by
    rw [hdirections, entry_ofFn _ Nat.one_pos (he.cols_eq ▸ Nat.one_pos), he.length_eq]
  have haffine := IsAffine.of_line2 he.family_eq
  rw [← hdirections] at haffine
  exact ⟨_, directions, haffine, hrows, hcols, hentry, (det_one hrows hcols).trans hentry⟩

theorem isDifferentiable : e.IsDifferentiable := by
  obtain ⟨origin, directions, haffine, hrows, hcols, -, hdet⟩ := he.exists_directions
  have hpos : 0 < directions.det := hdet ▸ half_pos he.length_pos
  exact haffine.isDifferentiable he.isLagrange
    (haffine.measure_pos he.isLagrange (hrows.trans hcols.symm) hpos).2 he.dofsPerNode_eq

/-- The product of a stiffness matrix with two fields. -/
theorem sum_matrixOf {k : Kernel ℝ} {W : ℕ → ℕ → ℝ} (hk : k.IsStiffness e W) (w u : ℕ → ℝ) :
    ∑ p ∈ Finset.range e.dofs, ∑ q ∈ Finset.range e.dofs, w p * (k.matrixOf e).entry p q * u q =
      (w 1 - w 0) * W 0 0 * ((u 1 - u 0) / h) := by
  obtain ⟨origin, directions, haffine, hrows, hcols, hentry, hdet⟩ := he.exists_directions
  have hne := he.length_pos.ne'
  have hpos : 0 < directions.det := hdet ▸ half_pos he.length_pos
  have hsquare := hrows.trans hcols.symm
  -- every field is affine on the segment
  have hu : ∀ p < e.family.nodeCount,
      u p = u 0 - e.nodes.entry 0 0 * ((u 1 - u 0) / h) +
        e.nodes.times (fun _ => (u 1 - u 0) / h) p := by
    intro p hp
    rw [he.family_eq, Family.nodeCount] at hp
    have hend : e.nodes.entry 1 0 = e.nodes.entry 0 0 + h := by linarith [he.length_eq]
    simp only [times, he.cols_eq, Finset.sum_range_one]
    interval_cases p
    · ring
    · rw [hend]
      field_simp
      ring
  have htotal : e.total w 0 = w 1 - w 0 := by
    have h := haffine.times_total he.isLagrange hsquare hpos he.dofsPerNode_eq w 0
    rw [times, hcols, Finset.sum_range_one, hentry, hdet, he.family_eq,
      Family.referenceTotal_line2] at h
    exact mul_left_cancel₀ (half_pos he.length_pos).ne' h
  rw [haffine.sum_matrixOf_of_slopes he.isLagrange hsquare hpos he.dofsPerNode_eq hk hu w, pairing,
    hcols, Finset.sum_range_one, Finset.sum_range_one, htotal]

/-- The entries of a stiffness matrix are opposite to each other on and off the diagonal. -/
theorem entry_matrixOf {k : Kernel ℝ} {W : ℕ → ℕ → ℝ} (hk : k.IsStiffness e W) {p q : ℕ} (hp : p < 2)
    (hq : q < 2) : (k.matrixOf e).entry p q = if p = q then W 0 0 / h else -(W 0 0 / h) := by
  have hsum := he.sum_matrixOf hk (Pi.single p 1) (Pi.single q 1)
  rw [he.dofs_eq] at hsum
  interval_cases p <;> interval_cases q <;> simpa [Finset.sum_range_succ, div_eq_mul_inv] using hsum

theorem shape_eq (x : ℝ) (ξ : List ℝ) : e.shape (x :: ξ) = .ok (.ofRows 2 [Basis.line2 x]) :=
  shape_line2 he.family_eq he.dofsPerNode_eq x ξ

/-- The rule has two points, which are opposite to each other. -/
theorem exists_points : ∃ a, e.points = [⟨[-a], 1 * 1⟩, ⟨[a], 1 * 1⟩] := by
  have hrule : Kernel.rule e = some (Quadrature.tensorProduct
      [(-(1 / Scalar.sqrt 3.0), 1), (1 / Scalar.sqrt 3.0, 1)] 1) := by
    rw [Kernel.rule, he.family_eq]
    rfl
  refine ⟨1 / Scalar.sqrt 3.0, ?_⟩
  rw [points, hrule]
  rfl

theorem exists_shape : ∀ q ∈ e.points, ∃ N, e.shape q.position = .ok N ∧ N.cols = e.dofs := by
  obtain ⟨a, hpoints⟩ := he.exists_points
  rw [hpoints, he.dofs_eq]
  exact List.forall_mem_cons.mpr ⟨⟨_, he.shape_eq _ _, rfl⟩,
    List.forall_mem_cons.mpr ⟨⟨_, he.shape_eq _ _, rfl⟩, fun _ h => nomatch h⟩⟩

theorem exists_mass {k : Kernel ℝ} {x : Number ℝ} (hk : k.IsSandwich e (.plain x) e.shape) (hx : x.IsReal) :
    ∃ K, k.localMatrix e = .ok K :=
  hk.exists_localMatrix hx (Kernel.isSome_rule he.isLagrange) he.isDifferentiable.isRegular
    (he.dofs_eq.trans_ne (by decide)) he.exists_shape

/-- Both nodes have half of a constant load. -/
theorem exists_localVector {k : Kernel ℝ} {c : ℝ} (hk : k.IsColumn e fun N i => c * N.entry 0 i) :
    ∃ f, k.localVector e = .ok f ∧ ∀ p < 2, f.getD p 0 = c * h / 2 := by
  obtain ⟨origin, directions, haffine, hrows, hcols, -, hdet⟩ := he.exists_directions
  have hpos : 0 < directions.det := hdet ▸ half_pos he.length_pos
  obtain ⟨a, hpoints⟩ := he.exists_points
  obtain ⟨f, hf, hvalue⟩ :=
    hk.localVector he.isDifferentiable.isRegular he.exists_shape (Kernel.isSome_rule he.isLagrange)
  refine ⟨f, hf, fun p hp => ?_⟩
  have hweight := fun q hq => haffine.weightAt_eq_det he.isLagrange (hrows.trans hcols.symm) hpos
    (q := q) hq
  have hshape (x : ℝ) : e.shapeAt ⟨[x], 1 * 1⟩ = .ofRows 2 [Basis.line2 x] :=
    shapeAt_eq (he.shape_eq x [])
  have hentry (x : ℝ) : (ofRows 2 [Basis.line2 x]).entry 0 p = (Basis.line2 x).getD p 0 :=
    entry_ofRows Nat.one_pos hp
  rw [hpoints] at hweight
  rw [hvalue p (he.dofs_eq ▸ hp), hpoints, List.map_cons, List.map_cons, List.map_nil, List.sum_cons,
    List.sum_cons, List.sum_nil, hweight _ (by simp), hweight _ (by simp), hshape, hshape, hentry, hentry,
    hdet]
  interval_cases p <;> norm_num [Basis.line2] <;> ring

end IsStraight

end Element
end WeakForm

/-!
## Triangles and parallelograms

Over a triangle or a parallelogram of the plane the total derivatives of a field are sums over its
sides, on each of which the field is linear. The product of a stiffness matrix with a field and one
that is affine in the coordinates therefore depends on the values around the element only.
-/

namespace WeakForm

open DenseMatrix

namespace Element

variable {e : Element ℝ}

/-- The mean values of a field on the sides, each times the way along the side in coordinate `k`. -/
noncomputable def rimSum (e : Element ℝ) (u : ℕ → ℝ) (k : ℕ) : ℝ :=
  (e.family.sides.map fun s => (u (s.getD 0 0) + u (s.getD 1 0)) / 2 *
    (e.nodes.entry (s.getD 1 0) k - e.nodes.entry (s.getD 0 0) k)).sum

/-- A triangle or a parallelogram of the plane, whose corners run counter clockwise, with one degree of
freedom per node. -/
structure IsPlane (e : Element ℝ) : Prop where
  family_eq : e.family = .quad4 ∨ e.family = .tri3
  cols_eq : e.nodes.cols = 2
  dofsPerNode_eq : e.dofsPerNode = 1
  parallel : e.family = .quad4 → ∀ k,
    e.nodes.entry 0 k + e.nodes.entry 2 k = e.nodes.entry 1 k + e.nodes.entry 3 k
  positive : 0 < (e.nodes.entry 1 0 - e.nodes.entry 0 0) *
      (e.nodes.entry (e.family.nodeCount - 1) 1 - e.nodes.entry 0 1) -
    (e.nodes.entry 1 1 - e.nodes.entry 0 1) *
      (e.nodes.entry (e.family.nodeCount - 1) 0 - e.nodes.entry 0 0)

/-- The total derivatives by Cramer's rule. -/
theorem IsAffine.total_eq {origin : ℕ → ℝ} {J : DenseMatrix ℝ} (h : e.IsAffine origin J)
    (hf : e.family.IsLagrange) (hrows : J.rows = 2) (hcols : J.cols = 2) (hdet : 0 < J.det)
    (hscalar : e.dofsPerNode = 1) (u : ℕ → ℝ) :
    e.total u 0 = J.entry 1 1 * e.family.referenceTotal u 0 - J.entry 0 1 * e.family.referenceTotal u 1 ∧
    e.total u 1 =
      J.entry 0 0 * e.family.referenceTotal u 1 - J.entry 1 0 * e.family.referenceTotal u 0 := by
  have hfirst := h.times_total hf (hrows.trans hcols.symm) hdet hscalar u 0
  have hsecond := h.times_total hf (hrows.trans hcols.symm) hdet hscalar u 1
  have hvalue := det_two hrows hcols
  simp only [times, hcols, Finset.sum_range_succ, Finset.sum_range_zero, zero_add] at hfirst hsecond
  constructor
  · refine mul_left_cancel₀ hdet.ne' ?_
    linear_combination J.entry 1 1 * hfirst - J.entry 0 1 * hsecond + e.total u 0 * hvalue
  · refine mul_left_cancel₀ hdet.ne' ?_
    linear_combination J.entry 0 0 * hsecond - J.entry 1 0 * hfirst + e.total u 1 * hvalue

namespace IsPlane

variable (he : e.IsPlane)
include he

theorem isLagrange : e.family.IsLagrange := by
  rcases he.family_eq with h | h <;> rw [h] <;> decide

/-- The directions of the element, by which its total derivatives are sums over its sides. -/
theorem exists_directions : ∃ origin J, e.IsAffine origin J ∧ J.rows = 2 ∧ J.cols = 2 ∧ 0 < J.det ∧
    ∀ u, e.total u 0 = e.rimSum u 1 ∧ e.total u 1 = -e.rimSum u 0 := by
  have hcols := he.cols_eq
  have hpositive := he.positive
  have hentry (f : ℕ → ℕ → ℝ) {d k : ℕ} (hd : d < 2) (hk : k < 2) :
      (DenseMatrix.ofFn 2 e.nodes.cols f).entry d k = f d k := entry_ofFn f hd (hcols ▸ hk)
  have hdet := det_ofFn_two hcols
  rcases he.family_eq with hf | hf
  · have haffine := IsAffine.of_quad4 hf (he.parallel hf)
    have hparallel := he.parallel hf
    have hpos : 0 < (DenseMatrix.ofFn 2 e.nodes.cols fun d k =>
        (e.nodes.entry (2 * d + 1) k - e.nodes.entry 0 k) / 2).det := by
      rw [hf] at hpositive
      rw [hdet]
      norm_num [Family.nodeCount] at hpositive ⊢
      linarith
    refine ⟨_, _, haffine, rfl, hcols, hpos, fun u => ?_⟩
    obtain ⟨h0, h1⟩ := haffine.total_eq he.isLagrange rfl hcols hpos he.dofsPerNode_eq u
    rw [h0, h1, hentry _ two_pos two_pos, hentry _ one_lt_two one_lt_two, hentry _ two_pos one_lt_two,
      hentry _ one_lt_two two_pos, hf, (Family.referenceTotal_quad4 u).1,
      (Family.referenceTotal_quad4 u).2]
    have hx := hparallel 0
    have hy := hparallel 1
    simp [rimSum, hf, Family.sides]
    constructor
    · linear_combination (u 3 - u 1) / 2 * hy
    · linear_combination (u 1 - u 3) / 2 * hx
  · have haffine := IsAffine.of_tri3 hf
    have hpos : 0 < (DenseMatrix.ofFn 2 e.nodes.cols fun d k =>
        e.nodes.entry (d + 1) k - e.nodes.entry 0 k).det := by
      rw [hf] at hpositive
      rw [hdet]
      norm_num [Family.nodeCount] at hpositive ⊢
      linarith
    refine ⟨_, _, haffine, rfl, hcols, hpos, fun u => ?_⟩
    obtain ⟨h0, h1⟩ := haffine.total_eq he.isLagrange rfl hcols hpos he.dofsPerNode_eq u
    rw [h0, h1, hentry _ two_pos two_pos, hentry _ one_lt_two one_lt_two, hentry _ two_pos one_lt_two,
      hentry _ one_lt_two two_pos, hf, (Family.referenceTotal_tri3 u).1,
      (Family.referenceTotal_tri3 u).2]
    simp [rimSum, hf, Family.sides]
    constructor <;> ring

theorem isDifferentiable : e.IsDifferentiable := by
  obtain ⟨origin, J, haffine, hrows, hcols, hdet, -⟩ := he.exists_directions
  exact haffine.isDifferentiable he.isLagrange
    (haffine.measure_pos he.isLagrange (hrows.trans hcols.symm) hdet).2 he.dofsPerNode_eq

theorem rows_derivativeAt {q : QuadraturePoint ℝ} (hq : q ∈ e.points) : (e.derivativeAt q).rows = 2 := by
  obtain ⟨B, hB⟩ := he.isDifferentiable.exists_derivative q hq
  rw [derivativeAt_eq hB, rows_shapeDerivative he.isLagrange he.dofsPerNode_eq hB, he.cols_eq]

/-- The product of the matrix of the element with a field and one that is affine in the coordinates. -/
theorem sum_matrixOf {k : Kernel ℝ} {W : ℕ → ℕ → ℝ} (hk : k.IsStiffness e W) {u slopes : ℕ → ℝ} {c : ℝ}
    (hu : ∀ p < e.family.nodeCount, u p = c + e.nodes.times slopes p) (w : ℕ → ℝ) :
    ∑ p ∈ Finset.range e.dofs, ∑ q ∈ Finset.range e.dofs, w p * (k.matrixOf e).entry p q * u q =
      pairing W 2 (fun k => if k = 0 then e.rimSum w 1 else -e.rimSum w 0) slopes := by
  obtain ⟨origin, J, haffine, hrows, hcols, hdet, htotal⟩ := he.exists_directions
  obtain ⟨h0, h1⟩ := htotal w
  rw [haffine.sum_matrixOf_of_slopes he.isLagrange (hrows.trans hcols.symm) hdet he.dofsPerNode_eq hk hu w,
    hcols, pairing, pairing]
  refine Finset.sum_congr rfl fun k hk => Finset.sum_congr rfl fun l _ => ?_
  obtain rfl | rfl : k = 0 ∨ k = 1 := by
    have := Finset.mem_range.mp hk
    omega
  · rw [h0, if_pos rfl]
  · rw [h1, if_neg one_ne_zero]

end IsPlane

end Element

namespace Mesh

/-- A bar of two segments of length one that share a node, with one degree of freedom at every node. -/
noncomputable def bar : Mesh ℝ :=
  (ofLists (.integer 1) [[0], [1], [2]] [(.line2, [1, 2]), (.line2, [2, 3])]).freeze.2

theorem reachable_bar : bar.Reachable :=
  .step (reachable_ofLists _ (by simp) (by simp [Family.nodeCount])) (.freeze _)

theorem isStraight_bar {c : Cell ℝ} (hc : c ∈ bar.cells) : c.element.IsStraight 1 := by
  rcases List.mem_pair.mp hc with rfl | rfl
  · exact ⟨rfl, rfl, rfl, sub_zero (1 : ℝ), one_pos⟩
  · refine ⟨rfl, rfl, rfl, ?_, one_pos⟩
    change (2 : ℝ) - 1 = 1
    norm_num

/-- The second node is the end of the first segment and the start of the second one. -/
theorem exists_cells_bar : ∃ c d, bar.cells = [c, d] ∧ c.element.getDof = [0, 1] ∧
    d.element.getDof = [1, 2] := ⟨_, _, rfl, rfl, rfl⟩

end Mesh
end WeakForm

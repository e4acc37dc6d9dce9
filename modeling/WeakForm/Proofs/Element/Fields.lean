import WeakForm.Proofs.RealScalar
import WeakForm.Proofs.Element.Detection
import WeakForm.Proofs.Element.Gradients
import WeakForm.Proofs.Mesh.Elements
import WeakForm.Proofs.Value.RealMatrices

/-!
# Fields on elements

The value of a field at a reference point is the sum of the values at the nodes, each times its basis
function, separately for every component. The position of the point is the same sum of the positions
of the nodes.
-/

namespace WeakForm

open Finset

/-- The sum of given values, each times its weight. -/
noncomputable def blend (weights : List ℝ) (values : ℕ → ℝ) : ℝ :=
  ∑ p ∈ range weights.length, weights.getD p 0 * values p

@[simp] theorem blend_nil (values : ℕ → ℝ) : blend [] values = 0 := sum_range_zero _

@[simp] theorem blend_cons (w : ℝ) (weights : List ℝ) (values : ℕ → ℝ) :
    blend (w :: weights) values = w * values 0 + blend weights fun p => values (p + 1) := by
  simp [blend, sum_range_succ', add_comm]

theorem blend_congr {weights : List ℝ} {f g : ℕ → ℝ} (h : ∀ p < weights.length, f p = g p) :
    blend weights f = blend weights g := by
  apply sum_congr rfl
  intro p hp
  rw [h p (mem_range.mp hp)]

namespace Element

variable {e : Element ℝ} {ξ n : List ℝ} {u : Array ℝ}

/-- Component `i` of a vector at node number `k`, with `r` components at every node. -/
noncomputable def component (u : Array ℝ) (r : ℕ) (k : ℤ) (i : ℕ) : ℝ :=
  u.getD (dofIndex r k i).toNat 0

/-- The entries of a vector at the indices of an element, all of which exist. -/
theorem mapM_getDof (hu : ∀ d ∈ e.getDof, 0 ≤ d ∧ d < u.size) :
    (e.getDof.mapM fun d => (position? u.size d).bind (u[·]?)) =
      some (e.getDof.map fun d => u.getD d.toNat 0) := by
  rw [mapM_eq_some_iff, List.forall₂_map_right_iff, List.forall₂_same]
  intro d hd
  obtain ⟨hnonneg, hlt⟩ := hu d hd
  obtain ⟨k, rfl⟩ := Int.eq_ofNat_of_zero_le hnonneg
  have hk : k < u.size := by exact_mod_cast hlt
  simp [position?_natCast hk, hk]

/-- The entry of an element for component `i` of its node `p`. -/
theorem getD_map_getDof {p i : ℕ} (hp : p < e.family.nodeCount) (hi : i < e.dofsPerNode) :
    (e.getDof.map fun d => u.getD d.toNat 0).getD (p * e.dofsPerNode + i) 0 =
      component u e.dofsPerNode (e.nodeIds.getD p 0) i := by
  have hlt : p < e.nodeIds.length := e.length_nodeIds.symm ▸ hp
  rw [List.getD_eq_getElem?_getD, List.getElem?_map, e.getElem?_getDof p hi,
    List.getElem?_eq_getElem hlt, List.getD_eq_getElem _ _ hlt]
  rfl

theorem times_interleaved {r i : ℕ} (hi : i < r) (n : List ℝ) (x : ℕ → ℝ) :
    (interleaved r n).times x i = blend n fun p => x (p * r + i) := by
  change ∑ j ∈ range (r * n.length), _ = _
  rw [mul_comm, sum_range_mul_eq, blend]
  apply sum_congr rfl
  intro p hp
  have hterm : ∀ j ∈ range r, (interleaved r n).entry i (p * r + j) * x (p * r + j) =
      if j = i then n.getD p 0 * x (p * r + i) else 0 := by
    intro j hj
    have hj : j < r := mem_range.mp hj
    have hlt : p * r + j < r * n.length := by
      rw [mul_comm r]
      exact DenseMatrix.index_lt (mem_range.mp hp) hj
    obtain ⟨hnode, hcomponent⟩ := DenseMatrix.index_div_mod hj p
    rw [interleaved, DenseMatrix.entry_ofFn _ hi hlt, hnode, hcomponent]
    split_ifs with h
    · rw [h]
    · exact zero_mul _
  rw [sum_congr rfl hterm, sum_ite_eq', if_pos (mem_range.mpr hi)]

theorem times_row (n : List ℝ) (x : ℕ → ℝ) : (DenseMatrix.ofRows n.length [n]).times x 0 = blend n x := by
  change ∑ p ∈ range n.length, _ = _
  apply sum_congr rfl
  intro p hp
  rw [DenseMatrix.entry_ofRows Nat.one_pos (mem_range.mp hp)]
  rfl

theorem vecMul_eq_blend (A : DenseMatrix ℝ) (hlength : n.length = A.rows) :
    A.vecMul n = (List.range A.cols).map fun j => blend n (A.entry · j) := by
  simp only [DenseMatrix.vecMul, sumTo_eq_sum, blend, hlength]

theorem mulVec_eq_times (A : DenseMatrix ℝ) (values : List ℝ) :
    A.mulVec values = (List.range A.rows).map (A.times fun j => values.getD j 0) := by
  apply List.map_congr_left
  intro i _
  exact sumTo_eq_sum _ _

theorem mulVec_row (n values : List ℝ) :
    (DenseMatrix.ofRows n.length [n]).mulVec values = [blend n fun p => values.getD p 0] := by
  rw [mulVec_eq_times]
  exact congrArg (fun x => [x]) (times_row n _)

/-- Functions of the nodes are spread over several components. -/
theorem expands_nodeCount (e : Element ℝ) :
    e.expands e.family.nodeCount = decide (1 < e.dofsPerNode) := by
  have hcount : 0 < e.family.nodeCount := by cases e.family <;> decide
  rw [expands, dofs, Bool.eq_iff_iff]
  simp only [Bool.and_eq_true, decide_eq_true_eq, bne_iff_ne, and_iff_left_iff_imp]
  exact fun hlt => ((Nat.lt_mul_iff_one_lt_right hcount).mpr hlt).ne

section Values

variable (hn : e.family.basis e.nodes ξ = .ok n) (hlength : n.length = e.family.nodeCount)
  (hpos : 0 < e.dofsPerNode)
include hn hlength hpos

/-- With a function for every node, the shape matrix blends the values of every component. -/
theorem exists_shape : ∃ N, e.shape ξ = .ok N ∧ N.rows = e.dofsPerNode ∧ N.cols = e.dofs ∧
    ∀ x, ∀ i < e.dofsPerNode, N.times x i = blend n fun p => x (p * e.dofsPerNode + i) := by
  by_cases hone : e.dofsPerNode = 1
  · have hshape : e.shape ξ = .ok (.ofRows n.length [n]) := by
      rw [shape, hn, ok_bind, hlength, expands_nodeCount, hone]
      rfl
    refine ⟨_, hshape, hone.symm, by rw [dofs, hone, mul_one, ← hlength]; rfl, fun x i hi => ?_⟩
    obtain rfl : i = 0 := by omega
    simpa [hone] using times_row n x
  · have hshape : e.shape ξ = .ok (interleaved e.dofsPerNode n) := by
      have hlt : 1 < e.dofsPerNode := by omega
      rw [shape, hn, ok_bind, hlength, expands_nodeCount, decide_eq_true hlt, if_pos rfl]
      rfl
    refine ⟨_, hshape, rfl, ?_, fun x i hi => times_interleaved hi n x⟩
    rw [dofs, mul_comm, ← hlength]
    rfl

/-- The value of a field whose basis has a function for every node, from its values at the nodes. -/
theorem evaluate_of_values {values : List ℝ}
    (hvalues : (e.getDof.mapM fun d => (position? u.size d).bind (u[·]?)) = some values) :
    e.evaluate u ξ = .ok ((List.range e.dofsPerNode).map fun i =>
      blend n fun p => values.getD (p * e.dofsPerNode + i) 0) := by
  obtain ⟨N, hN, hrows, hcols, htimes⟩ := exists_shape hn hlength hpos
  have hcount : N.cols = values.length := by
    rw [hcols, ← length_getDof]
    exact (mapM_eq_some_iff.mp hvalues).length_eq
  rw [evaluate, hN, ok_bind]
  simp only [hvalues, if_pos hcount, mulVec_eq_times, hrows]
  exact congrArg Except.ok (List.map_congr_left fun i hi => htimes _ i (List.mem_range.mp hi))

theorem evaluate_eq_ok (hu : ∀ d ∈ e.getDof, 0 ≤ d ∧ d < u.size) :
    e.evaluate u ξ = .ok ((List.range e.dofsPerNode).map fun i =>
      blend n fun p => component u e.dofsPerNode (e.nodeIds.getD p 0) i) := by
  rw [evaluate_of_values hn hlength hpos (mapM_getDof hu)]
  apply congrArg Except.ok
  apply List.map_congr_left
  intro i hi
  apply blend_congr
  intro p hp
  exact getD_map_getDof (hlength ▸ hp) (List.mem_range.mp hi)

end Values

/-- The position of a point of an element whose geometry has a function for every node. -/
theorem position_eq_ok (hn : e.family.geometryBasis e.nodes ξ = .ok n)
    (hlength : n.length = e.trueNodes.rows) :
    e.position ξ = .ok ((List.range e.trueNodes.cols).map fun k =>
      blend n fun p => e.trueNodes.entry p k) := by
  rw [position, hn, ok_bind, vecMul_eq_blend _ hlength]
  rfl

end Element
end WeakForm

/-!
## Interpolation by Lagrange families

The basis functions of a Lagrange family add up to one everywhere, so a blend of values that are
affine in the coordinates is the affine value of the blended coordinates. At the points of the rule
there is a function for every node, and the shape matrix takes the values of an element to their
blends, component by component.
-/

namespace WeakForm

open Finset

section Blends

variable {weights : List ℝ}

theorem blend_sub (weights : List ℝ) (f g : ℕ → ℝ) :
    (blend weights fun p => f p - g p) = blend weights f - blend weights g := by
  simp only [blend, mul_sub, sum_sub_distrib]

/-- Weights that add up to one reproduce every affine function. -/
theorem blend_affine (hone : blend weights 1 = 1) (c : ℝ) (dim : ℕ) (slopes : ℕ → ℝ)
    (x : ℕ → ℕ → ℝ) : (blend weights fun p => c + ∑ k ∈ range dim, slopes k * x p k) =
      c + ∑ k ∈ range dim, slopes k * blend weights fun p => x p k := by
  have hconstant : ∑ p ∈ range weights.length, weights.getD p 0 * c = c := by
    rw [← sum_mul]
    simpa [blend] using congrArg (· * c) hone
  simp only [blend, mul_add, sum_add_distrib, hconstant, mul_sum]
  rw [sum_comm]
  congr 1
  exact sum_congr rfl fun k _ => sum_congr rfl fun p _ => by ring

end Blends

namespace Family

variable {f : Family} {nodes : DenseMatrix ℝ} {ξ n : List ℝ}

/-- There is a function for every node, and the functions add up to one. -/
theorem IsLagrange.basis_eq_ok (hf : f.IsLagrange) (h : f.basis nodes ξ = .ok n) :
    n.length = f.nodeCount ∧ blend n 1 = 1 := by
  unfold basis at h
  split at h
  case h_1 => exact absurd hf (by decide)
  case h_7 => exact absurd hf (by decide)
  case h_8 => cases h
  all_goals
    cases h
    refine ⟨rfl, ?_⟩
    simp only [Basis.line2, Basis.line3, Basis.quad4, Basis.tri3, Basis.tri6, blend_cons, blend_nil,
      Pi.one_apply]
    norm_num
    try ring

/-- At every point of its rule a Lagrange family has basis functions. -/
theorem IsLagrange.exists_basis (hf : f.IsLagrange) (nodes : DenseMatrix ℝ) :
    ∀ ξ ∈ f.positions, ∃ n, f.basis nodes ξ = .ok n := fun ξ hξ =>
  hf.exists_basis_of_length (hf.length_positions ξ hξ).ge nodes

end Family

namespace Element

/-- The values of the basis functions at a point of the rule, or none if there are none. -/
noncomputable def basisAt (e : Element ℝ) (q : QuadraturePoint ℝ) : List ℝ :=
  (e.family.basis e.nodes q.position).toOption.getD []

variable {e : Element ℝ} {q : QuadraturePoint ℝ}

theorem basisAt_spec (hf : e.family.IsLagrange) (hq : q ∈ e.points) :
    e.family.basis e.nodes q.position = .ok (e.basisAt q) ∧
      (e.basisAt q).length = e.family.nodeCount ∧ blend (e.basisAt q) 1 = 1 := by
  obtain ⟨n, hn⟩ := hf.exists_basis e.nodes q.position (List.mem_map_of_mem hq)
  have hbasis : e.basisAt q = n := by
    rw [basisAt, hn]
    rfl
  rw [hbasis]
  exact ⟨hn, hf.basis_eq_ok hn⟩

/-- The shape matrix has a row for every component and takes values to their blends. -/
theorem shapeAt_spec (hf : e.family.IsLagrange) (hpos : 0 < e.dofsPerNode) (hq : q ∈ e.points) :
    e.shape q.position = .ok (e.shapeAt q) ∧ (e.shapeAt q).rows = e.dofsPerNode ∧
      ∀ x, ∀ i < e.dofsPerNode, (e.shapeAt q).times x i =
        blend (e.basisAt q) fun p => x (p * e.dofsPerNode + i) := by
  obtain ⟨hn, hlength, -⟩ := basisAt_spec hf hq
  obtain ⟨N, hN, hrows, -, htimes⟩ := exists_shape hn hlength hpos
  rw [shapeAt_eq hN]
  exact ⟨hN, hrows, htimes⟩

end Element
end WeakForm

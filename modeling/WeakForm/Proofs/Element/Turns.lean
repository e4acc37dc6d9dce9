import Mathlib.Data.List.Rotate
import WeakForm.Proofs.RealScalar
import WeakForm.Proofs.Element.Areas
import WeakForm.Proofs.Element.Strains
import WeakForm.Proofs.Tensor.Matrices
import WeakForm.Proofs.Value.Rearranged

/-!
# Turned elements

The reference quadrilateral and the reference triangle are taken to themselves by an affine map that
moves every corner to the next one. The points of the rules, the basis functions and the tables of
their derivatives share this symmetry. An element whose list of nodes starts one node later is
therefore the same element, seen from another corner: at every point it has the position and the
measure that the element has at the turned point, and its matrices have the columns of those of the
element in another order.
-/

namespace WeakForm

open Finset DenseMatrix

theorem sum_range_next {n : ℕ} (hn : 0 < n) (f : ℕ → ℝ) :
    ∑ p ∈ range n, f ((p + 1) % n) = ∑ p ∈ range n, f p := by
  obtain ⟨n, rfl⟩ := Nat.exists_eq_succ_of_ne_zero hn.ne'
  rw [sum_range_succ, sum_range_succ', Nat.mod_self]
  congr 1
  refine sum_congr rfl fun p hp => ?_
  rw [Nat.mod_eq_of_lt (Nat.succ_lt_succ (mem_range.mp hp))]

theorem getD_rotate {β : Type} {items : List β} {p : ℕ} (hp : p < items.length) (d : β) :
    (items.rotate 1).getD p d = items.getD ((p + 1) % items.length) d := by
  rw [List.getD_eq_getElem?_getD, List.getElem?_rotate hp, List.getD_eq_getElem?_getD]

namespace DenseMatrix

/-- The matrix whose column `j` is column `τ j`. -/
noncomputable abbrev withColumns (τ : ℕ → ℕ) (A : DenseMatrix ℝ) : DenseMatrix ℝ := A.rearranged id τ

theorem entry_withColumns (A : DenseMatrix ℝ) (τ : ℕ → ℕ) {i j : ℕ} (hi : i < A.rows) (hj : j < A.cols) :
    (A.withColumns τ).entry i j = A.entry i (τ j) := A.entry_rearranged hi hj

theorem mul_withColumns {A B : DenseMatrix ℝ} {τ : ℕ → ℕ} (hτ : ∀ j < B.cols, τ j < B.cols)
    (hAB : A.cols = B.rows) : A.mul (B.withColumns τ) = (A.mul B).withColumns τ := by
  have hid : A.rearranged id id = A := ext rfl rfl fun i j hi hj => A.entry_rearranged hi hj
  have hproduct := mul_rearranged (σ := id) (fun _ h => h) hτ hAB
  rwa [hid] at hproduct

theorem mul_mul {A B C : DenseMatrix ℝ} (hAB : A.cols = B.rows) (hBC : B.cols = C.rows) :
    (A.mul B).mul C = A.mul (B.mul C) := by
  obtain ⟨X, hX⟩ : ∃ X : Matrix (Fin A.rows) (Fin A.cols) ℝ, A = stored X := exists_eq_stored rfl rfl
  obtain ⟨Y, hY⟩ : ∃ Y : Matrix (Fin A.cols) (Fin B.cols) ℝ, B = stored Y := exists_eq_stored hAB.symm rfl
  obtain ⟨Z, hZ⟩ : ∃ Z : Matrix (Fin B.cols) (Fin C.cols) ℝ, C = stored Z := exists_eq_stored hBC.symm rfl
  rw [hX, hY, hZ, mul_stored, mul_stored, mul_stored, mul_stored, Matrix.mul_assoc]

end DenseMatrix

namespace Family

/-- The families whose reference element is taken to itself by a map that moves every corner to the
next one. -/
def HasTurn (f : Family) : Prop := f ∈ [quad4, tri3]

instance (f : Family) : Decidable f.HasTurn := inferInstanceAs (Decidable (f ∈ _))

/-- The corner that follows a corner. -/
def next (f : Family) (p : ℕ) : ℕ := (p + 1) % f.nodeCount

/-- The point to which the map takes a point. -/
noncomputable def turnPoint : Family → List ℝ → List ℝ
  | tri3, x :: y :: _ => [1 - x - y, x]
  | _, x :: y :: _ => [-y, x]
  | _, ξ => ξ

/-- The point of a rule at its place after the turn. -/
noncomputable def turnedPoint (f : Family) (q : QuadraturePoint ℝ) : QuadraturePoint ℝ :=
  ⟨f.turnPoint q.position, q.weight⟩

/-- The derivatives of the map, a row per coordinate in which they are taken. -/
noncomputable def turnMatrix : Family → DenseMatrix ℝ
  | tri3 => .ofRows 2 [[-1, 1], [-1, 0]]
  | _ => .ofRows 2 [[0, 1], [-1, 0]]

namespace HasTurn

variable {f : Family} (hf : f.HasTurn)
include hf

theorem cases : f = quad4 ∨ f = tri3 := by simpa [HasTurn] using hf

theorem isLagrange : f.IsLagrange := by
  revert hf
  cases f <;> decide

theorem nodeCount_bounds : 2 < f.nodeCount ∧ f.dim = 2 := by
  revert hf
  cases f <;> decide

theorem next_lt (p : ℕ) : f.next p < f.nodeCount := Nat.mod_lt _ (Nat.zero_lt_of_lt hf.nodeCount_bounds.1)

theorem sum_next (g : ℕ → ℝ) :
    ∑ p ∈ range f.nodeCount, g (f.next p) = ∑ p ∈ range f.nodeCount, g p :=
  sum_range_next (Nat.zero_lt_of_lt hf.nodeCount_bounds.1) g

theorem size_turnMatrix : f.turnMatrix.rows = 2 ∧ f.turnMatrix.cols = 2 := by
  rcases hf.cases with rfl | rfl <;> exact ⟨rfl, rfl⟩

theorem det_turnMatrix : f.turnMatrix.det = 1 := by
  obtain ⟨hrows, hcols⟩ := hf.size_turnMatrix
  rw [det_two hrows hcols]
  rcases hf.cases with rfl | rfl <;> norm_num [turnMatrix, ofRows, entry_ofFn_eq]

/-- The rule has the turned points, too, with the same weights. -/
theorem perm_points {points : List (QuadraturePoint ℝ)} (hpoints : Kernel.familyRule f = some points) :
    (points.map f.turnedPoint).Perm points ∧ ∀ q ∈ points, ∃ x y, q.position = [x, y] := by
  rcases hf.cases with rfl | rfl
  · rw [familyRule_quad4] at hpoints
    cases hpoints
    refine ⟨?_, by simp⟩
    simp only [List.map_cons, List.map_nil, turnedPoint, turnPoint, neg_neg]
    generalize (⟨[-(√3)⁻¹, -(√3)⁻¹], 1⟩ : QuadraturePoint ℝ) = a
    generalize (⟨[(√3)⁻¹, -(√3)⁻¹], 1⟩ : QuadraturePoint ℝ) = b
    generalize (⟨[-(√3)⁻¹, (√3)⁻¹], 1⟩ : QuadraturePoint ℝ) = c
    generalize (⟨[(√3)⁻¹, (√3)⁻¹], 1⟩ : QuadraturePoint ℝ) = d
    have hfront : ([b, d] ++ a :: [c]).Perm (a :: [b, d, c]) := List.perm_middle
    exact hfront.trans (.cons _ (.cons _ (.swap _ _ _)))
  · rw [familyRule_tri3] at hpoints
    cases hpoints
    refine ⟨?_, by simp⟩
    norm_num [turnedPoint, turnPoint]
    generalize (⟨[1 / 6, 1 / 6], 1 / 6⟩ : QuadraturePoint ℝ) = a
    have hback (b c : QuadraturePoint ℝ) : ([b, c] ++ [a]).Perm ([a] ++ [b, c]) := List.perm_append_comm
    exact hback _ _

/-- The functions of the corners are those of the next ones at the turned point. -/
theorem basis_turn (nodes nodes' : DenseMatrix ℝ) (x y : ℝ) : ∃ n,
    f.basis nodes (f.turnPoint [x, y]) = .ok n ∧ n.length = f.nodeCount ∧
      f.basis nodes' [x, y] = .ok (n.rotate 1) := by
  rcases hf.cases with rfl | rfl
  · refine ⟨_, rfl, rfl, congrArg Except.ok ?_⟩
    simp only [Basis.quad4, List.rotate_cons_succ, List.rotate_zero, List.cons_append, List.nil_append,
      List.cons.injEq, and_true]
    refine ⟨?_, ?_, ?_, ?_⟩ <;> ring
  · refine ⟨_, rfl, rfl, congrArg Except.ok ?_⟩
    simp only [Basis.tri3, List.rotate_cons_succ, List.rotate_zero, List.cons_append, List.nil_append,
      List.cons.injEq, and_true, true_and]
    ring

/-- Their derivatives are those of the next ones at the turned point, by the chain rule. -/
theorem localGradient_turn (x y : ℝ) : ∃ G, f.localGradient (f.turnPoint [x, y]) = .ok G ∧
    f.localGradient [x, y] = .ok (f.turnMatrix.mul (G.withColumns f.next)) := by
  rcases hf.cases with rfl | rfl
  · refine ⟨_, rfl, congrArg Except.ok (ext rfl rfl fun i j hi hj => ?_)⟩
    change i < 2 at hi
    change j < 4 at hj
    rw [entry_mul]
    interval_cases i <;> interval_cases j
    all_goals
      norm_num [turnMatrix, rearranged, next, nodeCount, ofRows, entry_ofFn_eq, sum_range_succ,
        Basis.quad4Gradient, sub_eq_add_neg]
  · refine ⟨_, rfl, congrArg Except.ok (ext rfl rfl fun i j hi hj => ?_)⟩
    change i < 2 at hi
    change j < 3 at hj
    rw [entry_mul]
    interval_cases i <;> interval_cases j
    all_goals
      norm_num [turnMatrix, rearranged, next, nodeCount, ofRows, entry_ofFn_eq, sum_range_succ,
        Basis.tri3Gradient]

end HasTurn

section Jacobians

/-- Linear maps of determinant one do not change the measure. -/
theorem measure_mul_left {R J : DenseMatrix ℝ} (hrows : R.rows = 2) (hcols : R.cols = 2) (hdet : R.det = 1)
    (hJ : J.rows = 2) : Element.measure (R.mul J) = Element.measure J := by
  obtain ⟨m, hm⟩ : ∃ m, J.cols = m := ⟨_, rfl⟩
  obtain ⟨R, rfl⟩ : ∃ X : Matrix (Fin 2) (Fin 2) ℝ, R = stored X := exists_eq_stored hrows hcols
  obtain ⟨J, rfl⟩ : ∃ X : Matrix (Fin 2) (Fin m) ℝ, J = stored X := exists_eq_stored hJ hm
  rw [det_stored (by decide)] at hdet
  have hgram : (R * J * (R * J).transpose).det = (J * J.transpose).det := by
    rw [Matrix.transpose_mul, Matrix.mul_assoc, ← Matrix.mul_assoc J, Matrix.det_mul, Matrix.det_mul,
      Matrix.det_transpose, hdet, one_mul, mul_one]
  rw [mul_stored]
  change (if 2 * m = 0 then 1 else if 2 = m then (stored (R * J)).det else Scalar.sqrt _) =
    if 2 * m = 0 then 1 else if 2 = m then (stored J).det else Scalar.sqrt _
  split_ifs with hempty hsquare
  · rfl
  · obtain rfl : 2 = m := hsquare
    rw [det_stored (by decide), det_stored (by decide), Matrix.det_mul, hdet, one_mul]
  · rw [transpose_stored, transpose_stored, mul_stored, mul_stored, det_stored (by decide),
      det_stored (by decide), hgram]

/-- With other reference coordinates and the columns in another order, the derivatives in physical
coordinates are the same in that order. -/
theorem pullBack_mul_left {R J G b : DenseMatrix ℝ} (hrows : R.rows = 2) (hcols : R.cols = 2)
    (hdet : R.det = 1) (hJ : J.rows = 2) (hspace : 0 < J.cols) (hmeasure : 0 < Element.measure J)
    (hG : G.rows = 2) {τ : ℕ → ℕ} (hτ : ∀ p < G.cols, τ p < G.cols) (hb : pullBack J G = .ok b) :
    pullBack (R.mul J) (R.mul (G.withColumns τ)) = .ok (b.withColumns τ) := by
  obtain ⟨hbrows, hproduct⟩ := mul_pullBack hmeasure (hJ.trans hG.symm) hJ.le hspace hb
  have hbcols : b.cols = G.cols := by rw [← hproduct]; rfl
  obtain ⟨a, ha⟩ : ∃ a : ℕ → ℕ → ℝ, J.rows < J.cols → ∀ j, ∀ k < J.cols,
      b.entry k j = ∑ i ∈ range J.rows, a i j * J.entry i k := by
    by_cases hwide : J.rows < J.cols
    · obtain ⟨a, ha⟩ := exists_combination_pullBack ⟨hJ ▸ Nat.two_pos, hJ.le⟩ hwide hb
      exact ⟨a, fun _ => ha⟩
    · exact ⟨0, fun h => absurd h hwide⟩
  refine pullBack_eq_ok (J := R.mul J) ⟨hrows ▸ Nat.two_pos, hrows.le⟩ hspace ?_ hbrows ?_
    (a := fun i j => if i = 0 then a 0 (τ j) * R.entry 1 1 - a 1 (τ j) * R.entry 1 0
      else a 1 (τ j) * R.entry 0 0 - a 0 (τ j) * R.entry 0 1) fun hwide j hj k hk => ?_
  · rwa [measure_mul_left hrows hcols hdet hJ]
  · have hinner : J.cols = (b.withColumns τ).rows := hbrows.symm
    rw [mul_mul (hcols.trans hJ.symm) hinner, mul_withColumns (hbcols ▸ hτ) hbrows.symm, hproduct]
  · -- the rows of `J` are combinations of those of `R J`, the determinant being one
    rw [det_two hrows hcols] at hdet
    have hsize : (R.mul J).rows = 2 := hrows
    rw [b.entry_withColumns _ (hbrows ▸ hk) hj, ha (by rwa [hJ, ← hrows]) _ k hk, hJ, hsize]
    simp only [sum_range_succ, sum_range_zero, zero_add, entry_mul, hcols]
    simp only [if_true, one_ne_zero, if_false]
    linear_combination (-(a 0 (τ j) * J.entry 0 k) - a 1 (τ j) * J.entry 1 k) * hdet

end Jacobians

end Family

namespace Element

variable {e : Element ℝ} {x y : ℝ} {k : ℕ}

/-- The element whose list of nodes starts with its second one. -/
noncomputable def turned (e : Element ℝ) : Element ℝ :=
  { e with
    nodes := e.nodes.rearranged e.family.next fun k => k
    nodeIds := e.nodeIds.rotate 1
    rows_nodes := e.rows_nodes
    length_nodeIds := (e.nodeIds.length_rotate 1).trans e.length_nodeIds }

@[simp] theorem family_turned (e : Element ℝ) : e.turned.family = e.family := rfl

@[simp] theorem dofsPerNode_turned (e : Element ℝ) : e.turned.dofsPerNode = e.dofsPerNode := rfl

@[simp] theorem dofs_turned (e : Element ℝ) : e.turned.dofs = e.dofs := rfl

@[simp] theorem nodeIds_turned (e : Element ℝ) : e.turned.nodeIds = e.nodeIds.rotate 1 := rfl

/-- The place of a degree of freedom of the turned element among those of the element. -/
def turnPlace (e : Element ℝ) (k : ℕ) : ℕ :=
  e.family.next (k / e.dofsPerNode) * e.dofsPerNode + k % e.dofsPerNode

section Places

theorem turnPlace_add (e : Element ℝ) (p : ℕ) {i : ℕ} (hi : i < e.dofsPerNode) :
    e.turnPlace (p * e.dofsPerNode + i) = e.family.next p * e.dofsPerNode + i := by
  obtain ⟨hnode, hcomponent⟩ := index_div_mod hi p
  rw [turnPlace, hnode, hcomponent]

theorem exists_place (hk : k < e.dofs) :
    ∃ p i, p < e.family.nodeCount ∧ i < e.dofsPerNode ∧ k = p * e.dofsPerNode + i := by
  have hpos : 0 < e.dofsPerNode := Nat.pos_of_mul_pos_left (Nat.zero_lt_of_lt hk)
  exact ⟨k / e.dofsPerNode, k % e.dofsPerNode, (Nat.div_lt_iff_lt_mul hpos).mpr hk, Nat.mod_lt k hpos,
    (Nat.div_add_mod' k _).symm⟩

/-- The degrees of freedom follow their nodes. -/
theorem getElem?_getDof_turned (hk : k < e.dofs) : e.turned.getDof[k]? = e.getDof[e.turnPlace k]? := by
  obtain ⟨p, i, hp, hi, rfl⟩ := exists_place hk
  have hlength := e.length_nodeIds
  rw [e.turnPlace_add p hi, e.getElem?_getDof _ hi, ← e.dofsPerNode_turned,
    e.turned.getElem?_getDof _ hi, nodeIds_turned, List.getElem?_rotate (hlength ▸ hp), hlength,
    Family.next]

variable (hf : e.family.HasTurn)
include hf

theorem turnPlace_lt (hk : k < e.dofs) : e.turnPlace k < e.dofs := by
  obtain ⟨p, i, -, hi, rfl⟩ := exists_place hk
  rw [e.turnPlace_add p hi]
  exact index_lt (hf.next_lt p) hi

theorem sum_turnPlace (g : ℕ → ℝ) :
    ∑ k ∈ range e.dofs, g (e.turnPlace k) = ∑ k ∈ range e.dofs, g k := by
  rw [dofs, sum_range_mul_eq, sum_range_mul_eq]
  refine (sum_congr rfl fun p _ => sum_congr rfl fun i hi => ?_).trans
    (hf.sum_next fun p => ∑ i ∈ range e.dofsPerNode, g (p * e.dofsPerNode + i))
  rw [e.turnPlace_add p (mem_range.mp hi)]

end Places

section Matrices

variable (hf : e.family.HasTurn)
include hf

theorem jacobian_turned (x y : ℝ) : ∃ G, e.family.localGradient (e.family.turnPoint [x, y]) = .ok G ∧
    e.family.localGradient [x, y] = .ok (e.family.turnMatrix.mul (G.withColumns e.family.next)) ∧
    (e.family.turnMatrix.mul (G.withColumns e.family.next)).mul e.turned.nodes =
      e.family.turnMatrix.mul (G.mul e.nodes) := by
  obtain ⟨G, hG, hG'⟩ := hf.localGradient_turn x y
  have hcount := (hf.isLagrange.rowsCancel_localGradient hG).2
  have hrows : G.rows = 2 := (Family.rows_localGradient hG).trans hf.nodeCount_bounds.2
  refine ⟨G, hG, hG', ?_⟩
  have hinner : (G.withColumns e.family.next).cols = e.turned.nodes.rows := hcount.trans e.rows_nodes.symm
  rw [mul_mul (B := G.withColumns e.family.next) (hf.size_turnMatrix.2.trans hrows.symm) hinner]
  refine congrArg _ (ext rfl rfl fun i k hi hk => ?_)
  have hcols : (G.withColumns e.family.next).cols = e.family.nodeCount := hcount
  rw [entry_mul, entry_mul, hcols, hcount, ← hf.sum_next fun p => G.entry i p * e.nodes.entry p k]
  refine sum_congr rfl fun p hp => ?_
  have hp := mem_range.mp hp
  rw [G.entry_withColumns _ hi (hcount ▸ hp), turned, e.nodes.entry_rearranged (e.rows_nodes ▸ hp) hk]

/-- The measure of the turned element is the one at the turned point. -/
theorem detJ_turned {δ : ℝ} (hδ : e.detJ (e.family.turnPoint [x, y]) = .ok δ) :
    e.turned.detJ [x, y] = .ok δ := by
  obtain ⟨G, hG, hG', hproduct⟩ := jacobian_turned hf x y
  have hrows : (G.mul e.nodes).rows = 2 := (Family.rows_localGradient hG).trans hf.nodeCount_bounds.2
  obtain ⟨hrows', hcols'⟩ := hf.size_turnMatrix
  have hjacobian : e.turned.jacobian [x, y] = .ok (e.family.turnMatrix.mul (G.mul e.nodes)) :=
    (hf.isLagrange.jacobian_eq hG' e.turned.rows_nodes).trans (congrArg Except.ok hproduct)
  rw [detJ_eq_ok hjacobian, Family.measure_mul_left hrows' hcols' hf.det_turnMatrix hrows]
  exact (detJ_eq_ok (hf.isLagrange.jacobian_eq hG e.rows_nodes)).mp hδ

/-- Positions are those of the turned points. -/
theorem position_turned (hside : e.side = none) (x y : ℝ) :
    e.turned.position [x, y] = e.position (e.family.turnPoint [x, y]) := by
  obtain ⟨n, hn, hlength, hn'⟩ := hf.basis_turn e.nodes e.turned.nodes x y
  have hnodes : e.trueNodes = e.nodes := by rw [trueNodes, hside]
  have hnodes' : e.turned.trueNodes = e.turned.nodes := by
    rw [trueNodes, show e.turned.side = none from hside]
  have hcount : e.family.nodeCount = e.trueNodes.rows := by rw [hnodes, e.rows_nodes]
  have hcount' : e.turned.family.nodeCount = e.turned.trueNodes.rows := by
    rw [hnodes', e.turned.rows_nodes]
  have hrotated : (n.rotate 1).length = e.family.nodeCount := (n.length_rotate 1).trans hlength
  have hposition := position_eq_ok ((hf.isLagrange.geometryBasis_eq _ _).trans hn) (hlength.trans hcount)
  have hposition' := position_eq_ok (e := e.turned) ((hf.isLagrange.geometryBasis_eq _ _).trans hn')
    (hrotated.trans hcount')
  rw [hposition, hposition', hnodes, hnodes']
  refine congrArg Except.ok (List.map_congr_left fun k hk => ?_)
  rw [blend, blend, hrotated, hlength, ← hf.sum_next fun p => n.getD p 0 * e.nodes.entry p k]
  refine sum_congr rfl fun p hp => ?_
  have hp := mem_range.mp hp
  rw [turned, e.nodes.entry_rearranged (e.rows_nodes ▸ hp) (List.mem_range.mp hk),
    getD_rotate (hlength ▸ hp), hlength, Family.next]

/-- The derivatives in space are those at the turned point, in the order of the turned nodes. -/
theorem gradient_turned (hspace : 0 < e.nodes.cols) {δ : ℝ} (hδ : e.detJ (e.family.turnPoint [x, y]) = .ok δ)
    {b : DenseMatrix ℝ} (hb : e.family.gradient e.nodes (e.family.turnPoint [x, y]) = .ok b) :
    e.family.gradient e.turned.nodes [x, y] = .ok (b.withColumns e.family.next) := by
  obtain ⟨G, hG, hG', hproduct⟩ := jacobian_turned hf x y
  have hrows : G.rows = 2 := (Family.rows_localGradient hG).trans hf.nodeCount_bounds.2
  have hcount := (hf.isLagrange.rowsCancel_localGradient hG).2
  obtain ⟨hrows', hcols'⟩ := hf.size_turnMatrix
  obtain ⟨hmeasure, -⟩ := (detJ_eq_ok (hf.isLagrange.jacobian_eq hG e.rows_nodes)).mp hδ
  rw [hf.isLagrange.gradient_eq_pullBack hG e.rows_nodes] at hb
  rw [hf.isLagrange.gradient_eq_pullBack hG' e.turned.rows_nodes, hproduct]
  exact Family.pullBack_mul_left (J := G.mul e.nodes) hrows' hcols' hf.det_turnMatrix hrows hspace hmeasure
    hrows (fun p _ => hcount ▸ hf.next_lt p) hb

end Matrices

section Columns

/-- The place in a row of blocks of `r` columns, where block `p` is taken from block `τ p`. -/
theorem blockPlace_lt {r n : ℕ} {τ : ℕ → ℕ} (hr : 0 < r) (hτ : ∀ p < n, τ p < n) {j : ℕ} (hj : j < r * n) :
    τ (j / r) * r + j % r < r * n := by
  rw [mul_comm r]
  exact index_lt (hτ _ (Nat.div_lt_of_lt_mul hj)) (Nat.mod_lt j hr)

theorem interleaved_rotate {r : ℕ} (hr : 0 < r) (n : List ℝ) : interleaved r (n.rotate 1) =
    (interleaved r n).withColumns fun j => (j / r + 1) % n.length * r + j % r := by
  refine ext rfl (congrArg (r * ·) (n.length_rotate 1)) fun i j hi hj => ?_
  have hi : i < r := hi
  have hj : j < r * n.length := n.length_rotate 1 ▸ hj
  have hp : j / r < n.length := Nat.div_lt_of_lt_mul hj
  obtain ⟨hnode, hcomponent⟩ := index_div_mod (Nat.mod_lt j hr) ((j / r + 1) % n.length)
  have hplace := blockPlace_lt (τ := fun p => (p + 1) % n.length) hr
    (fun p hp => Nat.mod_lt _ (Nat.zero_lt_of_lt hp)) hj
  rw [(interleaved r n).entry_withColumns _ hi hj, interleaved, interleaved,
    entry_ofFn _ hi (by rwa [n.length_rotate]), entry_ofFn _ hi hplace, hnode, hcomponent, getD_rotate hp]

/-- The strains are made of the derivatives of one node after the other. -/
theorem strainMatrix_withColumns {b : DenseMatrix ℝ} (hrows : b.rows = 2 ∨ b.rows = 3) {τ : ℕ → ℕ}
    (hτ : ∀ p < b.cols, τ p < b.cols) : strainMatrix (b.withColumns τ) =
      (strainMatrix b).withColumns fun j => τ (j / b.rows) * b.rows + j % b.rows := by
  have hpos : 0 < b.rows := by omega
  have hwidth : (strainMatrix (b.withColumns τ)).cols = b.rows * b.cols :=
    (size_strainMatrix (b := b.withColumns τ) hrows).2
  refine ext rfl rfl fun i j hi hj => ?_
  rw [hwidth] at hj
  have hp : j / b.rows < b.cols := Nat.div_lt_of_lt_mul hj
  have hc : j % b.rows < b.rows := Nat.mod_lt j hpos
  have hplace : j = j / b.rows * b.rows + j % b.rows := (Nat.div_add_mod' j _).symm
  have hentry := entry_strainMatrix (b := b.withColumns τ) hrows i hp hc
  have hsame : (b.withColumns τ).rows = b.rows := rfl
  rw [hsame] at hentry
  rw [(strainMatrix b).entry_withColumns _ hi ((size_strainMatrix hrows).2.symm ▸ hj),
    entry_strainMatrix hrows i (hτ _ hp) hc]
  refine (congrArg _ hplace).trans (hentry.trans ?_)
  cases ((strains b.rows).getD i []).lookup (j % b.rows) with
  | none => rfl
  | some k =>
    by_cases hk : k < b.rows
    · exact b.entry_withColumns τ hk hp
    · exact ((b.withColumns τ).entry_of_rows_le (not_lt.mp hk)).trans (b.entry_of_rows_le (not_lt.mp hk)).symm

/-- The shape matrix of an element with a function for every node. -/
theorem shape_eq_interleaved {ξ n : List ℝ} (hn : e.family.basis e.nodes ξ = .ok n)
    (hlength : n.length = e.family.nodeCount) (hpos : 0 < e.dofsPerNode) :
    e.shape ξ = .ok (interleaved e.dofsPerNode n) := by
  rw [shape, hn, ok_bind, hlength, expands_nodeCount]
  by_cases hone : e.dofsPerNode = 1
  · have hcols : 1 * n.length = e.family.nodeCount := (one_mul _).trans hlength
    rw [hone]
    refine congrArg Except.ok (ext rfl hcols.symm fun i j hi hj => ?_)
    obtain rfl : i = 0 := Nat.lt_one_iff.mp hi
    refine (entry_ofRows Nat.one_pos hj).trans (Eq.symm ?_)
    rw [interleaved, entry_ofFn _ Nat.one_pos (hcols.symm ▸ hj), Nat.mod_one, if_pos rfl, Nat.div_one]
    rfl
  · rw [decide_eq_true (show 1 < e.dofsPerNode by omega)]
    rfl

variable (hf : e.family.HasTurn) (he : e.IsPlaced)
include hf he

theorem dofsPerNode_ne_dofs : e.dofsPerNode ≠ e.dofs :=
  ((Nat.lt_mul_iff_one_lt_left he.dofsPerNode_pos).mpr (Nat.lt_of_succ_lt hf.nodeCount_bounds.1)).ne

theorem dofs_ne_one : e.dofs ≠ 1 := by
  have hcount := Nat.mul_le_mul hf.nodeCount_bounds.1.le he.dofsPerNode_pos
  rw [← dofs] at hcount
  omega

/-- The columns of the shape matrix belong to the degrees of freedom. -/
theorem shape_turned (x y : ℝ) : ∃ N, e.shape (e.family.turnPoint [x, y]) = .ok N ∧ N.rows = e.dofsPerNode ∧
    e.turned.shape [x, y] = .ok (N.withColumns e.turnPlace) := by
  obtain ⟨n, hn, hlength, hn'⟩ := hf.basis_turn e.nodes e.turned.nodes x y
  have hrotated : (n.rotate 1).length = e.family.nodeCount := (n.length_rotate 1).trans hlength
  refine ⟨_, shape_eq_interleaved hn hlength he.dofsPerNode_pos, rfl,
    (shape_eq_interleaved (e := e.turned) hn' hrotated he.dofsPerNode_pos).trans (congrArg Except.ok ?_)⟩
  rw [dofsPerNode_turned, interleaved_rotate he.dofsPerNode_pos, hlength]
  rfl

/-- So do those of the derivative matrix. -/
theorem shapeDerivative_turned (hspace : 0 < e.nodes.cols) {δ : ℝ}
    (hδ : e.detJ (e.family.turnPoint [x, y]) = .ok δ) {B : DenseMatrix ℝ}
    (hB : e.shapeDerivative (e.family.turnPoint [x, y]) = .ok B) :
    e.turned.shapeDerivative [x, y] = .ok (B.withColumns e.turnPlace) := by
  have hbeam : e.family ≠ .beam2 := by
    intro hbeam
    rw [hbeam] at hf
    exact absurd hf (by decide)
  by_cases hone : e.dofsPerNode = 1
  · rw [shapeDerivative_of_scalar hone] at hB
    rw [shapeDerivative_of_scalar (e := e.turned) hone]
    refine (gradient_turned hf hspace hδ hB).trans (congrArg Except.ok (ext rfl rfl fun i j hi hj => ?_))
    rw [B.entry_withColumns _ hi hj, B.entry_withColumns _ hi hj, turnPlace, hone, Nat.div_one, Nat.mod_one, mul_one,
      add_zero]
  · have hlt : 1 < e.dofsPerNode := lt_of_le_of_ne he.dofsPerNode_pos (Ne.symm hone)
    rw [shapeDerivative_of_components hbeam hlt] at hB
    obtain ⟨b, hb, hB⟩ := bind_eq_ok.mp hB
    split_ifs at hB with hrows
    cases hB
    have hmoved := gradient_turned hf hspace hδ hb
    rw [shapeDerivative_of_components (e := e.turned) hbeam hlt]
    refine bind_eq_ok.mpr ⟨_, hmoved, ?_⟩
    have hcount := (hf.isLagrange.rowsCancel_gradient hb).2
    have hthree := he.rows_gradient hb hbeam
    have hrows' : e.turned.dofsPerNode = (b.withColumns e.family.next).rows := hrows
    rw [if_pos hrows', strainMatrix_withColumns (by omega) fun p _ => hcount ▸ hf.next_lt p,
      ← hrows]
    rfl

end Columns

end Element
end WeakForm

import Mathlib.Analysis.Calculus.Deriv.Add
import Mathlib.Analysis.Calculus.Deriv.Mul
import Mathlib.Analysis.InnerProductSpace.PiL2
import WeakForm.Proofs.RealScalar
import WeakForm.Element.Side
import WeakForm.Proofs.Element.Fields
import WeakForm.Proofs.Element.Traces

/-!
# Curves of sides

The positions of the points of a side form a curve, whose tangent is the derivative of the geometry
functions times the true nodes of the side. The measure of a side is taken from the distances of its
nodes from the first one instead. It is the length of the tangent for sides with two nodes, but not for
sides with a middle node off the line through the ends.
-/

namespace WeakForm

open Finset DenseMatrix

open scoped RealInnerProductSpace

/-- A vector of `n` coordinates. -/
noncomputable def toSpace (n : ℕ) (v : ℕ → ℝ) : EuclideanSpace ℝ (Fin n) := WithLp.toLp 2 fun k => v k

theorem norm_toSpace (n : ℕ) (v : ℕ → ℝ) : ‖toSpace n v‖ = √(∑ k ∈ range n, v k * v k) := by
  rw [EuclideanSpace.norm_eq]
  change √(∑ k : Fin n, ‖v k‖ ^ 2) = _
  simp only [Real.norm_eq_abs, sq, abs_mul_abs_self]
  rw [Fin.sum_univ_eq_sum_range fun k => v k * v k]

/-- The norm of a list is that of the vector of its items. -/
theorem norm_map_range (n : ℕ) (v : ℕ → ℝ) : norm ((List.range n).map v) = ‖toSpace n v‖ := by
  have hsum : (((List.range n).map v).map fun x => x * x).foldl (· + ·) 0 = ∑ k ∈ range n, v k * v k := by
    rw [← List.sum_eq_foldl, List.map_map]
    rfl
  rw [norm_toSpace, norm, hsum]
  rfl

/-- The length of a difference of multiples, from the lengths of both vectors and the angle between
them. -/
theorem norm_smul_sub_smul_sq {E : Type} [NormedAddCommGroup E] [InnerProductSpace ℝ E] (a b : E)
    (s t : ℝ) : ‖s • a - t • b‖ ^ 2 = (s * ‖a‖ - t * ‖b‖) ^ 2 + 2 * s * t * (‖a‖ * ‖b‖ - ⟪a, b⟫) := by
  rw [norm_sub_sq_real, norm_smul, norm_smul, real_inner_smul_left, real_inner_smul_right, mul_pow,
    mul_pow, Real.norm_eq_abs, Real.norm_eq_abs, sq_abs, sq_abs]
  ring

namespace Element

variable {e side : Element ℝ} {s : ℤ} {x d : ℝ}

/-- The true position of a node. -/
noncomputable def trueNode (e : Element ℝ) (p : ℕ) : EuclideanSpace ℝ (Fin e.trueNodes.cols) :=
  toSpace _ (e.trueNodes.entry p)

/-- The position of the point at parameter `x`. -/
noncomputable def curve (e : Element ℝ) (x : ℝ) : EuclideanSpace ℝ (Fin e.trueNodes.cols) :=
  toSpace _ fun k => ((e.position [x]).toOption.getD []).getD k 0

/-- The derivatives of the geometry functions times the true nodes. -/
noncomputable def tangent (e : Element ℝ) (x : ℝ) : EuclideanSpace ℝ (Fin e.trueNodes.cols) :=
  toSpace _ ((((e.family.localGradient [x]).toOption.getD (.zero 0 0)).mul e.trueNodes).entry 0)

theorem norm_sub_trueNode (hcols : e.trueNodes.cols = 2) (p q : ℕ) :
    ‖e.trueNode p - e.trueNode q‖ = √((e.trueNodes.entry p 0 - e.trueNodes.entry q 0) ^ 2 +
      (e.trueNodes.entry p 1 - e.trueNodes.entry q 1) ^ 2) := by
  change ‖toSpace _ fun k => e.trueNodes.entry p k - e.trueNodes.entry q k‖ = _
  rw [norm_toSpace, hcols, sum_range_succ, sum_range_one, sq, sq]

/-- The nodes of a line are placed by their distances from the first of its true nodes. -/
structure IsCurve (side : Element ℝ) : Prop where
  family_cases : side.family = .line2 ∨ side.family = .line3
  rows_eq : side.trueNodes.rows = side.family.nodeCount
  cols_eq : side.nodes.cols = 1
  entry_eq : ∀ p < side.family.nodeCount, side.nodes.entry p 0 = ‖side.trueNode p - side.trueNode 0‖

theorem nodes_of_buildSide (h : e.buildSide s = .ok side) :
    side.nodes = arcLengths side.family side.trueNodes := by
  unfold buildSide at h
  split at h
  · cases h
  · split at h
    · cases h
    · cases h
      rfl

theorem IsCurve.of_buildSide (hf : e.family.IsLagrange) (hdim : e.family.dim = 2)
    (h : e.buildSide s = .ok side) : side.IsCurve := by
  have hcases : side.family = .line2 ∨ side.family = .line3 := by
    have hfamily := sideFamily_of_buildSide h
    rcases hf.cases with he | he | he | he | he <;> rw [he] at hdim hfamily <;> cases hdim <;>
      injection hfamily with hfamily
    · exact .inl hfamily.symm
    · exact .inl hfamily.symm
    · exact .inr hfamily.symm
  have hnodes := nodes_of_buildSide h
  have hline : side.family.dim ≠ 0 := by rcases hcases with hside | hside <;> simp [hside, Family.dim]
  have hrows : side.trueNodes.rows = side.family.nodeCount := by
    rw [← side.rows_nodes, hnodes, rows_arcLengths]
  rw [arcLengths, if_neg hline] at hnodes
  refine ⟨hcases, hrows, by rw [hnodes]; rfl, fun p hp => ?_⟩
  rw [hnodes, entry_ofFn _ (hrows ▸ hp) Nat.one_pos, norm_map_range]
  rfl

namespace IsCurve

variable (h : side.IsCurve)
include h

/-- The derivatives of the basis functions of a line. -/
theorem exists_gradient (x : ℝ) : ∃ row : List ℝ, side.family.gradientRows [x] = .ok [row] ∧
    ∀ p < side.family.nodeCount,
      HasDerivAt (fun t => (side.family.sideBasis t).getD p 0) (row.getD p 0) x := by
  have hid := hasDerivAt_id x
  rcases h.family_cases with hf | hf <;> rw [hf]
  · refine ⟨[-0.5, 0.5], rfl, fun p hp => ?_⟩
    simp only [Family.nodeCount] at hp
    interval_cases p
    · exact ((hid.const_sub 1).const_mul 0.5).congr_deriv (by norm_num)
    · exact ((hid.const_add 1).const_mul 0.5).congr_deriv (by norm_num)
  · refine ⟨[x - 0.5, x + 0.5, -(2.0 * x)], rfl, fun p hp => ?_⟩
    simp only [Family.nodeCount] at hp
    interval_cases p
    · exact ((hid.const_mul 0.5).mul (hid.sub_const 1)).congr_deriv (by norm_num; ring)
    · exact ((hid.const_mul 0.5).mul (hid.add_const 1)).congr_deriv (by norm_num; ring)
    · exact ((hid.mul hid).const_sub 1).congr_deriv (by norm_num; ring)

omit h in
/-- A sum of multiples of the true nodes has their sum in each coordinate. -/
theorem sum_smul_trueNode (n : ℕ) (c : ℕ → ℝ) : ∑ p ∈ range n, c p • side.trueNode p =
    toSpace _ fun k => ∑ p ∈ range n, c p * side.trueNodes.entry p k := by
  ext k
  simp [trueNode, toSpace]

theorem curve_eq (x : ℝ) : side.curve x =
    ∑ p ∈ range side.family.nodeCount, (side.family.sideBasis x).getD p 0 • side.trueNode p := by
  have hside : side.family.IsSide := by
    rcases h.family_cases with hf | hf <;> simp [hf, Family.IsSide]
  obtain ⟨-, hbasis, hlength⟩ := hside.basis_eq side.nodes x
  have hposition := position_eq_ok hbasis (hlength.trans h.rows_eq.symm)
  rw [sum_smul_trueNode, curve, hposition]
  ext k
  change (((List.range _).map _).getD k 0 : ℝ) = _
  simp [blend, toSpace, hlength]

omit h in
theorem tangent_eq {row : List ℝ} (hrow : side.family.gradientRows [x] = .ok [row]) :
    side.tangent x = ∑ p ∈ range side.family.nodeCount, row.getD p 0 • side.trueNode p := by
  rw [sum_smul_trueNode, tangent, Family.localGradient, hrow]
  ext k
  change ((ofRows side.family.nodeCount [row]).mul side.trueNodes).entry 0 k =
    ∑ p ∈ range side.family.nodeCount, row.getD p 0 * side.trueNodes.entry p k
  exact entry_ofRows_mul Nat.one_pos _ _

theorem detJ_eq_ok {row : List ℝ} (hrow : side.family.gradientRows [x] = .ok [row]) :
    side.detJ [x] = .ok d ↔
      0 < ∑ p ∈ range side.family.nodeCount, row.getD p 0 * ‖side.trueNode p - side.trueNode 0‖ ∧
      ∑ p ∈ range side.family.nodeCount, row.getD p 0 * ‖side.trueNode p - side.trueNode 0‖ = d := by
  have hf : side.family.IsLagrange := by rcases h.family_cases with hf | hf <;> rw [hf] <;> decide
  have hG := Family.localGradient_eq hrow
  have hJ := hf.jacobian_eq hG side.rows_nodes
  have hmeasure : measure ((ofRows side.family.nodeCount [row]).mul side.nodes) =
      ∑ p ∈ range side.family.nodeCount, row.getD p 0 * ‖side.trueNode p - side.trueNode 0‖ := by
    have hcols : ((ofRows side.family.nodeCount [row]).mul side.nodes).cols = 1 := h.cols_eq
    have hrows : ((ofRows side.family.nodeCount [row]).mul side.nodes).rows = 1 := rfl
    rw [measure_of_square hcols.symm Nat.one_pos, det_one hrows hcols, entry_ofRows_mul Nat.one_pos]
    apply sum_congr rfl
    intro p hp
    rw [h.entry_eq p (mem_range.mp hp)]
    rfl
  rw [Element.detJ_eq_ok hJ, hmeasure]

theorem hasDerivAt_curve (x : ℝ) : HasDerivAt side.curve (side.tangent x) x := by
  obtain ⟨row, hrow, hderiv⟩ := h.exists_gradient x
  rw [tangent_eq hrow, funext h.curve_eq]
  apply HasDerivAt.fun_sum
  intro p hp
  exact (hderiv p (mem_range.mp hp)).smul_const _

/-- On a side with two nodes the measure is the length of the tangent. -/
theorem detJ_line2 (hf : side.family = .line2) (hd : side.detJ [x] = .ok d) :
    d = ‖side.tangent x‖ := by
  have hrow : side.family.gradientRows [x] = .ok [[-(1 / 2), 1 / 2]] := by
    norm_num [hf, Family.gradientRows, Basis.line2Gradient]
  have htangent : side.tangent x = (1 / 2 : ℝ) • (side.trueNode 1 - side.trueNode 0) := by
    rw [tangent_eq hrow, hf]
    simp only [Family.nodeCount, sum_range_succ, sum_range_zero, List.getD_cons_zero,
      List.getD_cons_succ]
    module
  rw [htangent, norm_smul, ← ((h.detJ_eq_ok hrow).mp hd).2, hf]
  norm_num [Family.nodeCount, sum_range_succ]

omit h in
theorem gradientRows_line3 (hf : side.family = .line3) (x : ℝ) :
    side.family.gradientRows [x] = .ok [[x - 1 / 2, x + 1 / 2, -(2 * x)]] := by
  norm_num [hf, Family.gradientRows, Basis.line3Gradient]

/-- The ways from the first node of a side to the second and to the middle one give its measure by
their lengths, and its tangent by the ways themselves. -/
theorem detJ_line3 (hf : side.family = .line3) (hd : side.detJ [x] = .ok d) :
    d = (x + 1 / 2) * ‖side.trueNode 1 - side.trueNode 0‖ -
        2 * x * ‖side.trueNode 2 - side.trueNode 0‖ ∧
      side.tangent x = (x + 1 / 2) • (side.trueNode 1 - side.trueNode 0) -
        (2 * x) • (side.trueNode 2 - side.trueNode 0) := by
  have hrow := gradientRows_line3 hf x
  rw [← ((h.detJ_eq_ok hrow).mp hd).2, tangent_eq hrow, hf]
  constructor
  · norm_num [Family.nodeCount, sum_range_succ]
    ring
  · simp only [Family.nodeCount, sum_range_succ, sum_range_zero, List.getD_cons_zero,
      List.getD_cons_succ]
    module

end IsCurve

/-- The measure of a side is the speed of its curve if the side has two nodes, and otherwise only in its
middle, half way from there to its first node, or if its middle node lies on the ray from its first node
through the second. -/
theorem detJ_eq_speed_iff (hf : e.family.IsLagrange) (hdim : e.family.dim = 2)
    (hbuild : e.buildSide s = .ok side) (hd : side.detJ [x] = .ok d) :
    HasDerivAt side.curve (side.tangent x) x ∧
      (d = ‖side.tangent x‖ ↔ side.family = .line2 ∨ x = 0 ∨ x = -(1 / 2) ∨
        SameRay ℝ (side.trueNode 1 - side.trueNode 0) (side.trueNode 2 - side.trueNode 0)) := by
  have h := IsCurve.of_buildSide hf hdim hbuild
  refine ⟨h.hasDerivAt_curve x, ?_⟩
  rcases h.family_cases with hside | hside
  · simp [hside, h.detJ_line2 hside hd]
  · obtain ⟨hmeasure, htangent⟩ := h.detJ_line3 hside hd
    have hpos : 0 ≤ d := (detJ_pos hd).le
    set a := side.trueNode 1 - side.trueNode 0
    set b := side.trueNode 2 - side.trueNode 0
    have hray : SameRay ℝ a b ↔ ‖a‖ * ‖b‖ - ⟪a, b⟫ = 0 := by
      rw [sameRay_iff_norm_smul_eq, sub_eq_zero, eq_comm, eq_comm (a := ‖a‖ * ‖b‖),
        inner_eq_norm_mul_iff_real]
    have hsquare : ‖side.tangent x‖ ^ 2 =
        d ^ 2 + 2 * (x + 1 / 2) * (2 * x) * (‖a‖ * ‖b‖ - ⟪a, b⟫) := by
      rw [htangent, norm_smul_sub_smul_sq, hmeasure]
    calc d = ‖side.tangent x‖ ↔ d ^ 2 = ‖side.tangent x‖ ^ 2 := (sq_eq_sq₀ hpos (norm_nonneg _)).symm
      _ ↔ 2 * (x + 1 / 2) * (2 * x) * (‖a‖ * ‖b‖ - ⟪a, b⟫) = 0 := by rw [hsquare]; simp
      _ ↔ _ := by
        have hzero : 2 * x = 0 ↔ x = 0 := by simp
        have hhalf : 2 * (x + 1 / 2) = 0 ↔ x = -(1 / 2) := by constructor <;> intro h <;> linarith
        have hthree : side.family ≠ .line2 := by simp [hside]
        rw [hray, mul_eq_zero, mul_eq_zero, hzero, hhalf]
        tauto

/-- A triangle whose first side has its middle node off the line. -/
noncomputable def bentTriangle : Element ℝ :=
  ⟨1, .tri6, .ofRows 2 [[0, 0], [24, 0], [0, 24], [12, -5], [12, 12], [0, 12]], [1, 2, 3, 4, 5, 6], 1,
    none, rfl, rfl⟩

theorem exists_side_bentTriangle : ∃ side, bentTriangle.buildSide 0 = .ok side ∧
    side.family = .line3 ∧ side.detJ [1 / 2] = .ok 11 ∧
    ‖side.trueNode 1 - side.trueNode 2‖ = 13 := by
  have hsides : bentTriangle.sideNodes 0 = .ok [0, 1, 3] := rfl
  obtain ⟨side, hbuild⟩ := exists_buildSide (f := .line3) rfl hsides
  have hfamily : side.family = .line3 :=
    (Option.some.inj (sideFamily_of_buildSide hbuild)).symm
  have hpoints : side.trueNodes = .ofRows 2 [[0, 0], [24, 0], [12, -5]] := by
    rw [trueNodes_of_buildSide hbuild hsides]
    refine ext rfl rfl fun p k hp hk => ?_
    change p < 3 at hp
    change k < 2 at hk
    interval_cases p <;> interval_cases k <;> rfl
  have hcols : side.trueNodes.cols = 2 := by rw [hpoints]; rfl
  have hend : ‖side.trueNode 1 - side.trueNode 0‖ = 24 := by
    rw [norm_sub_trueNode hcols, hpoints, Real.sqrt_eq_iff_mul_self_eq_of_pos (by norm_num)]
    norm_num [entry_ofRows]
  have hmiddle : ‖side.trueNode 2 - side.trueNode 0‖ = 13 := by
    rw [norm_sub_trueNode hcols, hpoints, Real.sqrt_eq_iff_mul_self_eq_of_pos (by norm_num)]
    norm_num [entry_ofRows]
  have hrest : ‖side.trueNode 1 - side.trueNode 2‖ = 13 := by
    rw [norm_sub_trueNode hcols, hpoints, Real.sqrt_eq_iff_mul_self_eq_of_pos (by norm_num)]
    norm_num [entry_ofRows]
  have hsum : ∑ p ∈ range side.family.nodeCount,
      [1 / 2 - 1 / 2, 1 / 2 + 1 / 2, -(2 * (1 / 2))].getD p 0 *
        ‖side.trueNode p - side.trueNode 0‖ = 11 := by
    norm_num [hfamily, Family.nodeCount, sum_range_succ, hend, hmiddle]
  refine ⟨side, hbuild, hfamily, ?_, hrest⟩
  rw [(IsCurve.of_buildSide (by decide) rfl hbuild).detJ_eq_ok
    (IsCurve.gradientRows_line3 hfamily _), hsum]
  exact ⟨by norm_num, rfl⟩

theorem bentTriangle_speed_iff : ∃ side, bentTriangle.buildSide 0 = .ok side ∧
    side.detJ [1 / 2] = .ok 11 ∧ (11 = ‖side.tangent (1 / 2)‖ ↔ side.family = .line2 ∨
      (1 / 2 : ℝ) = 0 ∨ (1 / 2 : ℝ) = -(1 / 2) ∨
        SameRay ℝ (side.trueNode 1 - side.trueNode 0) (side.trueNode 2 - side.trueNode 0)) := by
  obtain ⟨side, hbuild, -, hmeasure, -⟩ := exists_side_bentTriangle
  exact ⟨side, hbuild, hmeasure, (detJ_eq_speed_iff (by decide) rfl hbuild hmeasure).2⟩

/-- The measure of a bent side is not the length of its tangent. -/
theorem bentTriangle_speed : ∃ side, bentTriangle.buildSide 0 = .ok side ∧
    side.detJ [1 / 2] = .ok 11 ∧ HasDerivAt side.curve (side.tangent (1 / 2)) (1 / 2) ∧
    ‖side.tangent (1 / 2)‖ = 13 := by
  obtain ⟨side, hbuild, hfamily, hmeasure, hrest⟩ := exists_side_bentTriangle
  have h : side.IsCurve := .of_buildSide (by decide) rfl hbuild
  have htangent : side.tangent (1 / 2) = side.trueNode 1 - side.trueNode 2 := by
    rw [(h.detJ_line3 hfamily hmeasure).2]
    module
  exact ⟨side, hbuild, hmeasure, h.hasDerivAt_curve _, by rw [htangent, hrest]⟩

end Element
end WeakForm

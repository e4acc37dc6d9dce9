import WeakForm.Proofs.RealScalar
import WeakForm.Proofs.Assembly.Energy
import WeakForm.Proofs.Element.Detection

/-!
# Affinely placed elements

An element whose nodes are the image of those of its reference element under an affine map has one
Jacobian, whose rows are the images of the reference directions. If it is square, the element has
derivative matrices that are exact for fields affine in the coordinates, and the total derivatives
of a field over the element follow from its derivatives in reference coordinates.
-/

namespace WeakForm

open DenseMatrix

namespace Family

variable {f : Family} {ξ : List ℝ}

/-- The nodes of the reference element. -/
noncomputable def referenceNodes : Family → List (List ℝ)
  | point => [[]]
  | line2 | beam2 => [[-1], [1]]
  | line3 => [[-1], [1], [0]]
  | quad4 => [[-1, -1], [1, -1], [1, 1], [-1, 1]]
  | tri3 => [[0, 0], [1, 0], [0, 1]]
  | tri6 => [[0, 0], [1, 0], [0, 1], [1 / 2, 0], [1 / 2, 1 / 2], [0, 1 / 2]]

/-- Coordinate `d` of node `p` of the reference element. -/
noncomputable def reference (f : Family) (p d : ℕ) : ℝ := (f.referenceNodes.getD p []).getD d 0

/-- The basis functions reproduce the reference coordinates, so their derivatives are the unit
vectors. -/
theorem IsLagrange.sum_gradientRows_mul (hf : f.IsLagrange) {rows : List (List ℝ)}
    (h : f.gradientRows ξ = .ok rows) {i d : ℕ} (hi : i < f.dim) (hd : d < f.dim) :
    ∑ p ∈ Finset.range f.nodeCount, (rows.getD i []).getD p 0 * f.reference p d =
      if i = d then 1 else 0 := by
  unfold gradientRows at h
  split at h
  case h_1 => exact absurd hf (by decide)
  case h_3 => exact absurd hf (by decide)
  case h_8 => cases h
  all_goals
    cases h
    simp only [dim] at hi hd
    interval_cases i <;> interval_cases d <;>
      norm_num [Finset.sum_range_succ, reference, referenceNodes, nodeCount, Basis.line2Gradient,
        Basis.line3Gradient, Basis.quad4Gradient, Basis.tri3Gradient, Basis.tri6Gradient]
  all_goals ring

section Inverses

variable {J : DenseMatrix ℝ} (hsquare : J.rows = J.cols) (hone : 0 < J.rows) (hle : J.rows ≤ 2)
  (hdet : J.det ≠ 0)
include hsquare hone hle hdet

/-- A small matrix with a determinant takes only zeros to zeros. -/
theorem eq_zero_of_times {x : ℕ → ℝ} (h : ∀ i < J.rows, J.times x i = 0) : ∀ k < J.cols, x k = 0 := by
  obtain hrows | hrows : J.rows = 1 ∨ J.rows = 2 := by omega
  · have hcols : J.cols = 1 := hsquare ▸ hrows
    rw [det_one hrows hcols] at hdet
    have hfirst := h 0 hone
    rw [times, hcols, Finset.sum_range_one] at hfirst
    intro k hk
    obtain rfl : k = 0 := by omega
    exact (mul_eq_zero.mp hfirst).resolve_left hdet
  · have hcols : J.cols = 2 := hsquare ▸ hrows
    rw [det_two hrows hcols] at hdet
    have hfirst := h 0 hone
    have hsecond := h 1 (by omega)
    simp only [times, hcols, Finset.sum_range_succ, Finset.sum_range_zero, zero_add] at hfirst hsecond
    have hx : x 0 = 0 := by
      refine mul_left_cancel₀ hdet ?_
      linear_combination J.entry 1 1 * hfirst - J.entry 0 1 * hsecond
    have hy : x 1 = 0 := by
      refine mul_left_cancel₀ hdet ?_
      linear_combination J.entry 0 0 * hsecond - J.entry 1 0 * hfirst
    intro k hk
    obtain rfl | rfl : k = 0 ∨ k = 1 := by omega
    · exact hx
    · exact hy

theorem eq_of_times {x y : ℕ → ℝ} (h : ∀ i < J.rows, J.times x i = J.times y i) :
    ∀ k < J.cols, x k = y k := by
  intro k hk
  refine sub_eq_zero.mp (eq_zero_of_times hsquare hone hle hdet (x := fun k => x k - y k) ?_ k hk)
  intro i hi
  simp only [times, mul_sub, Finset.sum_sub_distrib]
  exact sub_eq_zero.mpr (h i hi)

theorem exists_pullBack (G : DenseMatrix ℝ) : ∃ b, pullBack J G = .ok b := by
  obtain ⟨b, hb⟩ : ∃ b, J.solveMatrix? G = some b := by
    refine exists_solveMatrix? (fun xs hxs hzero x hx => ?_) G
    obtain ⟨k, hk, rfl⟩ := List.mem_iff_getElem.mp hx
    have hall := eq_zero_of_times hsquare hone hle hdet (x := fun k => xs.getD k 0) fun i hi => by
      rw [times, ← hsquare]
      exact hzero i hi
    rw [← List.getD_eq_getElem xs 0 hk]
    exact hall k (by omega)
  exact ⟨b, by rw [pullBack, if_pos hsquare, hb]⟩

end Inverses

/-- Where the Jacobian is not degenerate there are derivatives in physical coordinates. -/
theorem exists_pullBack_of_measure {J : DenseMatrix ℝ} (hrows : 0 < J.rows ∧ J.rows ≤ 2)
    (hmeasure : 0 < Element.measure J) (G : DenseMatrix ℝ) : ∃ b, pullBack J G = .ok b := by
  by_cases hsquare : J.rows = J.cols
  · refine exists_pullBack hsquare hrows.1 hrows.2 (fun hdet => ?_) G
    rw [Element.measure_of_square hsquare hrows.1, hdet] at hmeasure
    exact lt_irrefl 0 hmeasure
  · have hfinite : J.data.all Scalar.isFinite = true := Array.all_eq_true.mpr fun _ _ => rfl
    exact ⟨_, by rw [pullBack, if_neg hsquare, if_pos hfinite]⟩

theorem pullBack_of_wide {J : DenseMatrix ℝ} (hwide : J.rows < J.cols) (G : DenseMatrix ℝ) :
    pullBack J G = .ok (J.wideInverse.mul G) := by
  have hfinite : J.data.all Scalar.isFinite = true := Array.all_eq_true.mpr fun _ _ => rfl
  rw [pullBack, if_neg hwide.ne, if_pos hfinite, pseudoInverse, if_pos hwide.le]

theorem exists_combination_pullBack {J G b : DenseMatrix ℝ} (hrows : 0 < J.rows ∧ J.rows ≤ 2)
    (hwide : J.rows < J.cols) (h : pullBack J G = .ok b) : ∃ a : ℕ → ℕ → ℝ, ∀ j, ∀ k < J.cols,
      b.entry k j = ∑ i ∈ Finset.range J.rows, a i j * J.entry i k := by
  obtain ⟨w, hw⟩ := exists_combination_wideInverse hrows
  rw [pullBack_of_wide hwide] at h
  refine ⟨fun i j => ∑ l ∈ Finset.range J.rows, w i l * G.entry l j, fun j k hk => ?_⟩
  rw [← Except.ok.inj h, entry_mul, (size_wideInverse J).2]
  simp only [Finset.sum_mul]
  rw [Finset.sum_comm]
  refine Finset.sum_congr rfl fun l hl => ?_
  rw [hw l (Finset.mem_range.mp hl) k hk, Finset.sum_mul]
  exact Finset.sum_congr rfl fun i _ => by ring

/-- The derivatives in physical coordinates are those that the Jacobian takes back to the ones in reference
coordinates and whose columns are, where there are more coordinates than rows, combinations of its rows. -/
theorem pullBack_eq_ok {J G b : DenseMatrix ℝ} (hrows : 0 < J.rows ∧ J.rows ≤ 2) (hcols : 0 < J.cols)
    (hJ : 0 < Element.measure J) (hb : b.rows = J.cols) (hmul : J.mul b = G) {a : ℕ → ℕ → ℝ}
    (hspan : J.rows < J.cols → ∀ j < b.cols, ∀ k < J.cols,
      b.entry k j = ∑ i ∈ Finset.range J.rows, a i j * J.entry i k) : pullBack J G = .ok b := by
  obtain ⟨c, hc⟩ := exists_pullBack_of_measure hrows hJ G
  have hGrows : J.rows = G.rows := by rw [← hmul]; rfl
  obtain ⟨hcrows, hcmul⟩ := mul_pullBack hJ hGrows hrows.2 hcols hc
  have hsame : J.mul c = J.mul b := hcmul.trans hmul.symm
  have hccols : c.cols = b.cols := show (J.mul c).cols = (J.mul b).cols by rw [hsame]
  have htimes (j i : ℕ) : J.times (c.entry · j) i = J.times (b.entry · j) i := by
    have hentry := congrArg (fun A : DenseMatrix ℝ => A.entry i j) hsame
    simp only [entry_mul] at hentry
    exact hentry
  refine hc.trans (congrArg Except.ok (ext (hcrows.trans hb.symm) hccols fun k j hk hj => ?_))
  rw [hcrows] at hk
  by_cases hsquare : J.rows = J.cols
  · rw [Element.measure_of_square hsquare hrows.1] at hJ
    exact eq_of_times hsquare hrows.1 hrows.2 hJ.ne' (fun i _ => htimes j i) k hk
  have hwide : J.rows < J.cols := by
    refine lt_of_le_of_ne (Nat.le_of_not_lt fun hlt => ?_) hsquare
    exact cols_ne_one_of_measure hJ (by omega) (by omega)
  -- the difference of both columns is a combination of the rows that they all cancel
  obtain ⟨w, hw⟩ := exists_combination_pullBack hrows hwide hc
  refine sub_eq_zero.mp (eq_zero_of_combination (d := fun k => c.entry k j - b.entry k j)
    (a := fun i => w i j - a i j) (fun k hk => ?_) (fun i _ => ?_) k hk)
  · rw [hw j k hk, hspan hwide j (hccols ▸ hj) k hk]
    simp only [sub_mul, Finset.sum_sub_distrib]
  · simp only [dot, mul_sub, Finset.sum_sub_distrib]
    exact sub_eq_zero.mpr (htimes j i)

section Totals

/-- At every point of its rule a Lagrange family has derivatives. -/
theorem IsLagrange.exists_gradientRows (hf : f.IsLagrange) :
    ∀ ξ ∈ f.positions, ∃ rows, f.gradientRows ξ = .ok rows := fun ξ hξ =>
  hf.exists_gradientRows_of_length (hf.length_positions ξ hξ).ge

/-- The sum over the rule of the derivatives in a reference coordinate. -/
noncomputable def referenceTotal (f : Family) (u : ℕ → ℝ) (i : ℕ) : ℝ :=
  (((Kernel.familyRule f).getD []).map fun q => q.weight *
    (ofRows f.nodeCount ((f.gradientRows q.position).toOption.getD [])).times u i).sum

theorem referenceTotal_line2 (u : ℕ → ℝ) : referenceTotal .line2 u 0 = u 1 - u 0 := by
  have hpoint (ξ : List ℝ) :
      (ofRows 2 ((gradientRows .line2 ξ).toOption.getD [])).times u 0 = (u 1 - u 0) / 2 := by
    change (ofRows 2 Basis.line2Gradient).times u 0 = _
    rw [times_ofRows _ _ _ (by decide)]
    norm_num [Finset.sum_range_succ, Basis.line2Gradient]
    ring
  simp only [referenceTotal, nodeCount, hpoint]
  norm_num [Kernel.familyRule, rule, Quadrature.rule?, Quadrature.gaussLine, Quadrature.tensorProduct_eq,
    Quadrature.tuples, RuleKind.dim]

theorem referenceTotal_quad4 (u : ℕ → ℝ) :
    referenceTotal .quad4 u 0 = u 1 - u 0 + (u 2 - u 3) ∧
      referenceTotal .quad4 u 1 = u 3 - u 0 + (u 2 - u 1) := by
  have hpoint (x y : ℝ) : (ofRows 4 ((gradientRows .quad4 [x, y]).toOption.getD [])).times u 0 =
        ((1 - y) * (u 1 - u 0) + (1 + y) * (u 2 - u 3)) / 4 ∧
      (ofRows 4 ((gradientRows .quad4 [x, y]).toOption.getD [])).times u 1 =
        ((1 - x) * (u 3 - u 0) + (1 + x) * (u 2 - u 1)) / 4 := by
    change (ofRows 4 (Basis.quad4Gradient x y)).times u 0 = _ ∧
      (ofRows 4 (Basis.quad4Gradient x y)).times u 1 = _
    rw [times_ofRows _ _ _ Nat.two_pos, times_ofRows _ _ _ Nat.one_lt_two]
    norm_num [Finset.sum_range_succ, Basis.quad4Gradient]
    constructor <;> ring
  simp [referenceTotal, nodeCount, hpoint, Kernel.familyRule, rule, Quadrature.rule?,
    Quadrature.gaussLine, Quadrature.tensorProduct_eq, Quadrature.tuples, RuleKind.dim]
  constructor <;> ring

theorem referenceTotal_tri3 (u : ℕ → ℝ) :
    referenceTotal .tri3 u 0 = (u 1 - u 0) / 2 ∧ referenceTotal .tri3 u 1 = (u 2 - u 0) / 2 := by
  have hpoint (ξ : List ℝ) : (ofRows 3 ((gradientRows .tri3 ξ).toOption.getD [])).times u 0 = u 1 - u 0 ∧
      (ofRows 3 ((gradientRows .tri3 ξ).toOption.getD [])).times u 1 = u 2 - u 0 := by
    change (ofRows 3 Basis.tri3Gradient).times u 0 = _ ∧ (ofRows 3 Basis.tri3Gradient).times u 1 = _
    rw [times_ofRows _ _ _ (by decide), times_ofRows _ _ _ (by decide)]
    norm_num [Finset.sum_range_succ, Basis.tri3Gradient]
    constructor <;> ring
  simp only [referenceTotal, nodeCount, hpoint]
  norm_num [Kernel.familyRule, rule, Quadrature.rule?, Quadrature.gaussTriangle]
  constructor <;> ring

end Totals

end Family

namespace Element

/-- The sum over the rule of the derivatives in a coordinate, each with its weight in space. -/
noncomputable def total (e : Element ℝ) (u : ℕ → ℝ) (k : ℕ) : ℝ :=
  (e.points.map fun q => e.weightAt q * (e.derivativeAt q).times u k).sum

/-- The nodes are the images of those of the reference element under an affine map, which takes its
origin and its directions to the given ones. -/
structure IsAffine (e : Element ℝ) (origin : ℕ → ℝ) (directions : DenseMatrix ℝ) : Prop where
  rows_eq : directions.rows = e.family.dim
  cols_eq : directions.cols = e.nodes.cols
  entry_eq : ∀ p < e.family.nodeCount, ∀ k < e.nodes.cols, e.nodes.entry p k =
    origin k + ∑ d ∈ Finset.range e.family.dim, e.family.reference p d * directions.entry d k

namespace IsAffine

variable {e : Element ℝ} {origin : ℕ → ℝ} {directions : DenseMatrix ℝ} {ξ : List ℝ}
  {rows : List (List ℝ)}

/-- The Jacobian is the same everywhere. -/
theorem mul_nodes (h : e.IsAffine origin directions) (hf : e.family.IsLagrange)
    (hrows : e.family.gradientRows ξ = .ok rows) :
    (ofRows e.family.nodeCount rows).mul e.nodes = directions := by
  have hlength := Family.length_gradientRows hrows
  refine ext (hlength.trans h.rows_eq.symm) h.cols_eq.symm fun i k hi hk => ?_
  change i < rows.length at hi
  change k < e.nodes.cols at hk
  have hgradient (p : ℕ) (hp : p ∈ Finset.range e.family.nodeCount) :
      (ofRows e.family.nodeCount rows).entry i p = (rows.getD i []).getD p 0 :=
    entry_ofRows hi (Finset.mem_range.mp hp)
  have hconstant : ∑ p ∈ Finset.range e.family.nodeCount, (rows.getD i []).getD p 0 = 0 :=
    hf.sum_gradientRows hrows _ (List.getD_eq_getElem rows [] hi ▸ List.getElem_mem hi)
  calc ((ofRows e.family.nodeCount rows).mul e.nodes).entry i k
      = ∑ p ∈ Finset.range e.family.nodeCount, (rows.getD i []).getD p 0 * e.nodes.entry p k := by
        rw [entry_mul]
        exact Finset.sum_congr rfl fun p hp => by rw [hgradient p hp]
    _ = ∑ p ∈ Finset.range e.family.nodeCount, (rows.getD i []).getD p 0 * (origin k +
          ∑ d ∈ Finset.range e.family.dim, e.family.reference p d * directions.entry d k) :=
        Finset.sum_congr rfl fun p hp => by rw [h.entry_eq p (Finset.mem_range.mp hp) k hk]
    _ = (∑ p ∈ Finset.range e.family.nodeCount, (rows.getD i []).getD p 0) * origin k +
          ∑ d ∈ Finset.range e.family.dim, (∑ p ∈ Finset.range e.family.nodeCount,
            (rows.getD i []).getD p 0 * e.family.reference p d) * directions.entry d k := by
        simp only [mul_add, Finset.sum_add_distrib, Finset.sum_mul, Finset.mul_sum, mul_assoc]
        rw [Finset.sum_comm]
    _ = directions.entry i k := by
        rw [hconstant, zero_mul, zero_add]
        have hunit (d : ℕ) (hd : d ∈ Finset.range e.family.dim) := hf.sum_gradientRows_mul hrows
          (hlength ▸ hi) (Finset.mem_range.mp hd)
        rw [Finset.sum_congr rfl fun d hd => by rw [hunit d hd]]
        simp only [ite_mul, one_mul, zero_mul, Finset.sum_ite_eq, Finset.mem_range]
        exact if_pos (hlength ▸ hi)

theorem rows_bounds (h : e.IsAffine origin directions) (hf : e.family.IsLagrange) :
    0 < directions.rows ∧ directions.rows ≤ 2 :=
  h.rows_eq ▸ hf.dim_bounds

/-- A segment is placed by its middle and by half of the way from end to end. -/
theorem of_line2 (hf : e.family = .line2) :
    e.IsAffine (fun k => (e.nodes.entry 1 k + e.nodes.entry 0 k) / 2)
      (.ofFn 1 e.nodes.cols fun _ k => (e.nodes.entry 1 k - e.nodes.entry 0 k) / 2) := by
  refine ⟨by rw [hf]; rfl, rfl, fun p hp k hk => ?_⟩
  rw [hf, Family.nodeCount] at hp
  simp only [hf, Family.dim, Finset.sum_range_one, entry_ofFn _ Nat.one_pos hk]
  interval_cases p <;> norm_num [Family.reference, Family.referenceNodes] <;> ring

/-- A triangle is placed by its first corner and by the ways to the other two. -/
theorem of_tri3 (hf : e.family = .tri3) :
    e.IsAffine (e.nodes.entry 0)
      (.ofFn 2 e.nodes.cols fun d k => e.nodes.entry (d + 1) k - e.nodes.entry 0 k) := by
  refine ⟨by rw [hf]; rfl, rfl, fun p hp k hk => ?_⟩
  rw [hf, Family.nodeCount] at hp
  simp only [hf, Family.dim, Finset.sum_range_succ, Finset.sum_range_zero, zero_add,
    entry_ofFn _ Nat.two_pos hk, entry_ofFn _ Nat.one_lt_two hk]
  interval_cases p <;> norm_num [Family.reference, Family.referenceNodes]

/-- A triangle whose mid-side nodes are the middles of its sides is placed in the same way. -/
theorem of_tri6 (hf : e.family = .tri6)
    (hmiddle : ∀ k, 2 * e.nodes.entry 3 k = e.nodes.entry 0 k + e.nodes.entry 1 k ∧
      2 * e.nodes.entry 4 k = e.nodes.entry 1 k + e.nodes.entry 2 k ∧
      2 * e.nodes.entry 5 k = e.nodes.entry 2 k + e.nodes.entry 0 k) :
    e.IsAffine (e.nodes.entry 0)
      (.ofFn 2 e.nodes.cols fun d k => e.nodes.entry (d + 1) k - e.nodes.entry 0 k) := by
  refine ⟨by rw [hf]; rfl, rfl, fun p hp k hk => ?_⟩
  rw [hf, Family.nodeCount] at hp
  obtain ⟨hfirst, hsecond, hthird⟩ := hmiddle k
  simp only [hf, Family.dim, Finset.sum_range_succ, Finset.sum_range_zero, zero_add,
    entry_ofFn _ Nat.two_pos hk, entry_ofFn _ Nat.one_lt_two hk]
  interval_cases p <;> norm_num [Family.reference, Family.referenceNodes] <;> linarith

/-- A parallelogram is placed by its middle and by half of the ways along two of its sides. -/
theorem of_quad4 (hf : e.family = .quad4)
    (hparallel : ∀ k, e.nodes.entry 0 k + e.nodes.entry 2 k = e.nodes.entry 1 k + e.nodes.entry 3 k) :
    e.IsAffine (fun k => (e.nodes.entry 0 k + e.nodes.entry 2 k) / 2)
      (.ofFn 2 e.nodes.cols fun d k => (e.nodes.entry (2 * d + 1) k - e.nodes.entry 0 k) / 2) := by
  refine ⟨by rw [hf]; rfl, rfl, fun p hp k hk => ?_⟩
  rw [hf, Family.nodeCount] at hp
  have hsum := hparallel k
  simp only [hf, Family.dim, Finset.sum_range_succ, Finset.sum_range_zero, zero_add,
    entry_ofFn _ Nat.two_pos hk, entry_ofFn _ Nat.one_lt_two hk]
  interval_cases p <;> norm_num [Family.reference, Family.referenceNodes] <;> linarith

section Measures

variable (h : e.IsAffine origin directions) (hf : e.family.IsLagrange)
  (hmeasure : 0 < measure directions)
include h hf hmeasure

theorem detJ_eq (hrows : e.family.gradientRows ξ = .ok rows) :
    e.detJ ξ = .ok (measure directions) := by
  have hG := Family.localGradient_eq hrows
  rw [detJ, jacobian, hf.jacobian_eq hG e.rows_nodes, ok_bind, h.mul_nodes hf hrows]
  simp [hmeasure, pure, Except.pure]

theorem exists_gradient (hrows : e.family.gradientRows ξ = .ok rows) :
    ∃ b, e.family.gradient e.nodes ξ = .ok b := by
  have hG := Family.localGradient_eq hrows
  obtain ⟨b, hb⟩ := Family.exists_pullBack_of_measure (h.rows_bounds hf) hmeasure
    (ofRows e.family.nodeCount rows)
  refine ⟨b, ?_⟩
  rw [hf.gradient_eq_pullBack hG e.rows_nodes, h.mul_nodes hf hrows, hb]

theorem exists_shapeDerivative (hscalar : e.dofsPerNode = 1)
    (hrows : e.family.gradientRows ξ = .ok rows) : ∃ B, e.shapeDerivative ξ = .ok B := by
  rw [shapeDerivative_of_scalar hscalar]
  exact h.exists_gradient hf hmeasure hrows

theorem isRegular : e.IsRegular := by
  intro points hpoints q hq
  have hmem : q ∈ e.points := by rw [Element.points, hpoints]; exact hq
  obtain ⟨rows, hrows⟩ := hf.exists_gradientRows _ (List.mem_map_of_mem hmem)
  exact ⟨_, h.detJ_eq hf hmeasure hrows⟩

/-- An affinely placed element that is not degenerate has derivatives everywhere, also where it is
embedded. -/
theorem isDifferentiable (hscalar : e.dofsPerNode = 1) : e.IsDifferentiable := by
  refine ⟨h.isRegular hf hmeasure, fun q hq => ?_⟩
  obtain ⟨rows, hrows⟩ := hf.exists_gradientRows _ (List.mem_map_of_mem hq)
  exact h.exists_shapeDerivative hf hmeasure hscalar hrows

end Measures

section Square

variable (h : e.IsAffine origin directions) (hf : e.family.IsLagrange)
  (hsquare : directions.rows = directions.cols) (hdet : 0 < directions.det)
include h hf hsquare hdet

theorem measure_pos : measure directions = directions.det ∧ 0 < measure directions := by
  have hmeasure := measure_of_square hsquare (h.rows_bounds hf).1
  exact ⟨hmeasure, hmeasure ▸ hdet⟩

section Points

variable {q : QuadraturePoint ℝ} (hq : q ∈ e.points)
include hq

theorem weightAt_eq_det : e.weightAt q = q.weight * directions.det := by
  obtain ⟨rows, hrows⟩ := hf.exists_gradientRows _ (List.mem_map_of_mem hq)
  obtain ⟨hmeasure, hpos⟩ := h.measure_pos hf hsquare hdet
  rw [weightAt_eq (h.detJ_eq hf hpos hrows), hmeasure]

variable (hscalar : e.dofsPerNode = 1)
include hscalar

/-- The derivatives along the directions are those in reference coordinates. -/
theorem times_derivativeAt (u : ℕ → ℝ) (i : ℕ) : (e.derivativeAt q).rows = directions.cols ∧
    directions.times ((e.derivativeAt q).times u) i = (ofRows e.family.nodeCount
      ((e.family.gradientRows q.position).toOption.getD [])).times u i := by
  obtain ⟨rows, hrows⟩ := hf.exists_gradientRows _ (List.mem_map_of_mem hq)
  obtain ⟨-, hpos⟩ := h.measure_pos hf hsquare hdet
  obtain ⟨B, hB⟩ := h.exists_shapeDerivative hf hpos hscalar hrows
  have hcols : 0 < e.nodes.cols := by
    rw [← h.cols_eq, ← hsquare]
    exact (h.rows_bounds hf).1
  obtain ⟨hBrows, hproduct⟩ := jacobian_mul_shapeDerivative hf hscalar hcols
    (h.detJ_eq hf hpos hrows) hB hrows
  rw [derivativeAt_eq hB, hrows]
  refine ⟨hBrows.trans h.cols_eq.symm, ?_⟩
  rw [h.mul_nodes hf hrows] at hproduct
  rw [← times_mul, hproduct]
  rfl

/-- The derivatives of a field that is affine in the coordinates are its slopes. -/
theorem derivativeAt_of_slopes {u slopes : ℕ → ℝ} {c : ℝ}
    (hu : ∀ p < e.family.nodeCount, u p = c + e.nodes.times slopes p) :
    ∀ k < directions.cols, (e.derivativeAt q).times u k = slopes k := by
  obtain ⟨hone, hle⟩ := h.rows_bounds hf
  obtain ⟨rows, hrows⟩ := hf.exists_gradientRows _ (List.mem_map_of_mem hq)
  have hcancel (i : ℕ) : ∑ p ∈ Finset.range (ofRows e.family.nodeCount rows).cols,
      (ofRows e.family.nodeCount rows).entry i p = 0 := by
    simpa using rowsCancel_ofRows (hf.sum_gradientRows hrows) i
  refine Family.eq_of_times hsquare hone hle hdet.ne' fun i _ => ?_
  calc directions.times ((e.derivativeAt q).times u) i
      = (ofRows e.family.nodeCount rows).times u i := by
        rw [(h.times_derivativeAt hf hsquare hdet hq hscalar u i).2, hrows]
        rfl
    _ = (ofRows e.family.nodeCount rows).times (fun p => c + e.nodes.times slopes p) i :=
        times_congr _ hu i
    _ = (∑ p ∈ Finset.range (ofRows e.family.nodeCount rows).cols,
          (ofRows e.family.nodeCount rows).entry i p) * c +
            (ofRows e.family.nodeCount rows).times (e.nodes.times slopes) i := by
        simp only [times, mul_add, Finset.sum_add_distrib, Finset.sum_mul]
    _ = directions.times slopes i := by
        rw [hcancel i, zero_mul, zero_add, ← times_mul, h.mul_nodes hf hrows]

end Points

/-- The total derivatives along the directions follow from those in reference coordinates. -/
theorem times_total (hscalar : e.dofsPerNode = 1) (u : ℕ → ℝ) (i : ℕ) :
    directions.times (e.total u) i = directions.det * e.family.referenceTotal u i := by
  have hpoint : ∀ q ∈ e.points, directions.times
      (fun k => e.weightAt q * (e.derivativeAt q).times u k) i =
        directions.det * (q.weight * (ofRows e.family.nodeCount
          ((e.family.gradientRows q.position).toOption.getD [])).times u i) := by
    intro q hq
    rw [← (h.times_derivativeAt hf hsquare hdet hq hscalar u i).2,
      h.weightAt_eq_det hf hsquare hdet hq, times, times, Finset.mul_sum, Finset.mul_sum]
    exact Finset.sum_congr rfl fun k _ => by ring
  calc directions.times (e.total u) i
      = (e.points.map fun q => directions.times
          (fun k => e.weightAt q * (e.derivativeAt q).times u k) i).sum := by
        simp only [times, total, sum_map_mul_left, sum_sum_map]
    _ = directions.det * e.family.referenceTotal u i := by
        rw [List.map_congr_left hpoint, List.sum_map_mul_left]
        rfl

/-- The product of the matrix of the element with a field and one that is affine in the coordinates:
that of the weight with the total derivatives and the slopes. -/
theorem sum_matrixOf_of_slopes (hscalar : e.dofsPerNode = 1) {k : Kernel ℝ} {W : ℕ → ℕ → ℝ}
    (hk : k.IsStiffness e W) {u slopes : ℕ → ℝ} {c : ℝ}
    (hu : ∀ p < e.family.nodeCount, u p = c + e.nodes.times slopes p) (w : ℕ → ℝ) :
    ∑ p ∈ Finset.range e.dofs, ∑ q ∈ Finset.range e.dofs, w p * (k.matrixOf e).entry p q * u q =
      pairing W directions.cols (e.total w) slopes := by
  rw [Kernel.sum_matrixOf hk (h.isDifferentiable hf (h.measure_pos hf hsquare hdet).2 hscalar)]
  have hpoint : ∀ q ∈ e.points, e.weightAt q * pairing W (e.derivativeAt q).rows
      ((e.derivativeAt q).times w) ((e.derivativeAt q).times u) =
        pairing W directions.cols (fun k => e.weightAt q * (e.derivativeAt q).times w k) slopes := by
    intro q hq
    rw [(h.times_derivativeAt hf hsquare hdet hq hscalar w 0).1, pairing, pairing, Finset.mul_sum]
    refine Finset.sum_congr rfl fun k _ => ?_
    rw [Finset.mul_sum]
    refine Finset.sum_congr rfl fun l hl => ?_
    rw [h.derivativeAt_of_slopes hf hsquare hdet hq hscalar hu l (Finset.mem_range.mp hl)]
    ring
  rw [List.map_congr_left hpoint]
  simp only [pairing, total, ← sum_sum_map, List.sum_map_mul_right]

end Square

end IsAffine

end Element
end WeakForm

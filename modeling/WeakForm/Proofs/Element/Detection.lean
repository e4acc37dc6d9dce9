import WeakForm.Proofs.RealScalar
import WeakForm.Proofs.Element.Columns
import WeakForm.Proofs.Element.Gradients
import WeakForm.Proofs.Kernel.Integrals
import WeakForm.Proofs.Linear.PseudoInverse

/-!
# Elements without hourglass modes

Where the Jacobian is not degenerate, the derivatives in physical coordinates determine those in
reference coordinates, on embedded elements too. The points of the rule of a Lagrange family detect
every field that is not constant: if all derivatives vanish at all points, the nodes have one value.
-/

namespace WeakForm

open DenseMatrix

namespace Family

variable {f : Family} {nodes J G b : DenseMatrix ℝ} {ξ : List ℝ} {u : ℕ → ℝ}

section Jacobians

/-- A Jacobian with two rows and one column is degenerate. -/
theorem cols_ne_one_of_measure (hJ : 0 < Element.measure J) (hrows : J.rows = 2) : J.cols ≠ 1 := by
  intro hcols
  have hgram : (J.mul J.transpose).det = 0 := by
    have hentry (i j : ℕ) (hj : j < 2) :
        (J.mul J.transpose).entry i j = J.entry i 0 * J.entry j 0 := by
      rw [entry_mul_transpose J (hrows ▸ hj), dot, hcols, Finset.sum_range_one]
    rw [det_two (A := J.mul J.transpose) hrows hrows, hentry 0 0 two_pos, hentry 1 1 one_lt_two, hentry 0 1 one_lt_two,
      hentry 1 0 two_pos]
    ring
  rw [Element.measure, hrows, hcols, hgram] at hJ
  exact lt_irrefl 0 (hJ.trans_eq Real.sqrt_zero)

/-- The rows of a Jacobian that is neither square nor degenerate are independent. -/
theorem det_mul_transpose_pos (hJ : 0 < Element.measure J) (hsquare : J.rows ≠ J.cols)
    (hpos : 0 < J.rows * J.cols) : 0 < (J.mul J.transpose).det := by
  rw [Element.measure, if_neg hpos.ne', if_neg hsquare] at hJ
  exact Real.sqrt_pos.mp hJ

/-- The Jacobian takes the derivatives in physical coordinates back to those in reference
coordinates. -/
theorem mul_pullBack (hJ : 0 < Element.measure J) (hrows : J.rows = G.rows) (hle : J.rows ≤ 2)
    (hcols : 0 < J.cols) (h : pullBack J G = .ok b) : b.rows = J.cols ∧ J.mul b = G := by
  unfold pullBack at h
  split_ifs at h with hsquare
  · split at h
    · rename_i X hX
      cases h
      exact ⟨(solveMatrix?_eq_some hX).1.trans hsquare, mul_of_solveMatrix? hX hsquare hrows⟩
    · cases h
  · cases h
    have hwide : J.rows ≤ J.cols := by
      by_contra hlt
      exact cols_ne_one_of_measure hJ (by omega) (by omega)
    -- a right inverse of the Jacobian
    have hinverse : ∀ i < J.rows, ∀ l < J.rows,
        ∑ k ∈ Finset.range J.cols, J.entry i k * J.wideInverse.entry k l = if i = l then 1 else 0 := by
      intro i hi l hl
      have hdet := (det_mul_transpose_pos hJ hsquare (Nat.mul_pos (by omega) hcols)).ne'
      obtain hone | htwo : J.rows = 1 ∨ J.rows = 2 := by omega
      · rw [det_one (A := J.mul J.transpose) hone hone, entry_mul_transpose J (by omega)] at hdet
        obtain rfl : i = 0 := by omega
        obtain rfl : l = 0 := by omega
        exact mul_wideInverse_one hone hdet
      · rw [det_two (A := J.mul J.transpose) htwo htwo] at hdet
        simp only [entry_mul_transpose J (htwo ▸ two_pos), entry_mul_transpose J (htwo ▸ one_lt_two),
          dot_comm _ (J.entry 1) (J.entry 0)] at hdet
        exact mul_wideInverse_two htwo (sub_ne_zero.mp hdet) (htwo ▸ hi) (htwo ▸ hl)
    have hpseudo : J.pseudoInverse = J.wideInverse := if_pos hwide
    obtain ⟨hprows, hpcols⟩ := size_wideInverse J
    rw [hpseudo]
    refine ⟨hprows, ext hrows rfl fun i j hi hj => ?_⟩
    calc (J.mul (J.wideInverse.mul G)).entry i j
        = ∑ k ∈ Finset.range J.cols, ∑ l ∈ Finset.range J.rows,
            J.entry i k * J.wideInverse.entry k l * G.entry l j := by
          simp only [entry_mul, hpcols, Finset.mul_sum, mul_assoc]
      _ = ∑ l ∈ Finset.range J.rows, (if i = l then 1 else 0) * G.entry l j := by
          rw [Finset.sum_comm]
          refine Finset.sum_congr rfl fun l hl => ?_
          rw [← Finset.sum_mul, hinverse i hi l (Finset.mem_range.mp hl)]
      _ = G.entry i j := by
          simp only [ite_mul, one_mul, zero_mul, Finset.sum_ite_eq, Finset.mem_range]
          exact if_pos hi

end Jacobians

section Rules

/-- The number of rows is the dimension of the reference element. -/
theorem length_gradientRows {rows : List (List ℝ)} (h : f.gradientRows ξ = .ok rows) :
    rows.length = f.dim := by
  unfold gradientRows at h
  split at h <;> cases h <;> rfl

theorem rows_localGradient (h : f.localGradient ξ = .ok G) : G.rows = f.dim := by
  obtain ⟨rows, hrows, rfl⟩ := map_eq_ok.mp h
  exact length_gradientRows hrows

theorem times_ofRows (cols : ℕ) (rows : List (List ℝ)) (u : ℕ → ℝ) {i : ℕ} (hi : i < rows.length) :
    (ofRows cols rows).times u i = ∑ j ∈ Finset.range cols, (rows.getD i []).getD j 0 * u j :=
  Finset.sum_congr rfl fun j hj => by rw [entry_ofRows hi (Finset.mem_range.mp hj)]

/-- The pseudo-inverse of a Jacobian is that of a matrix with at most two rows. -/
theorem rows_jacobian_le_two {nodes : DenseMatrix ℝ} (h : f.jacobian nodes ξ = .ok J) : J.rows ≤ 2 := by
  unfold jacobian at h
  split at h
  · cases h
    exact Nat.zero_le 2
  · obtain ⟨L, -, rfl⟩ := map_eq_ok.mp h
    exact one_le_two
  · obtain ⟨G, hG, h⟩ := bind_eq_ok.mp h
    split_ifs at h
    cases h
    refine (rows_localGradient hG).trans_le ?_
    cases f <;> decide

/-- The reference coordinates of the points of the rule. -/
noncomputable def positions (f : Family) : List (List ℝ) :=
  ((Kernel.familyRule f).getD []).map QuadraturePoint.position

/-- The points of the rule have a coordinate for every dimension of the reference element. -/
theorem IsLagrange.length_positions (hf : f.IsLagrange) : ∀ ξ ∈ f.positions, ξ.length = f.dim := by
  intro ξ hξ
  rcases hf.cases with rfl | rfl | rfl | rfl | rfl
  all_goals
    simp only [positions, Kernel.familyRule, rule, Quadrature.rule?, Quadrature.gaussLine,
      Quadrature.gaussTriangle, Quadrature.tensorProduct_eq, Quadrature.tuples, RuleKind.dim,
      Option.map_some, Option.getD_some, List.map_cons, List.map_nil, List.flatMap_cons,
      List.flatMap_nil, List.append_nil, List.cons_append, List.nil_append, List.mem_cons,
      List.not_mem_nil, or_false] at hξ
  · rcases hξ with rfl | rfl <;> rfl
  · rcases hξ with rfl | rfl | rfl <;> rfl
  · rcases hξ with rfl | rfl | rfl | rfl <;> rfl
  · rcases hξ with rfl | rfl | rfl <;> rfl
  · rcases hξ with rfl | rfl | rfl | rfl | rfl | rfl | rfl <;> rfl

section Points

variable (hf : f.IsLagrange) (hξ : f.dim ≤ ξ.length)
include hf hξ

/-- A point has at least one coordinate on a segment and two elsewhere. -/
theorem IsLagrange.cases_of_length : (f = line2 ∨ f = line3) ∧ (∃ x rest, ξ = x :: rest) ∨
    (f = quad4 ∨ f = tri3 ∨ f = tri6) ∧ ∃ x y rest, ξ = x :: y :: rest := by
  match ξ with
  | [] => rcases hf.cases with rfl | rfl | rfl | rfl | rfl <;> simp [dim] at hξ
  | [x] => rcases hf.cases with rfl | rfl | rfl | rfl | rfl <;> simp [dim] at hξ ⊢
  | x :: y :: rest => rcases hf.cases with rfl | rfl | rfl | rfl | rfl <;> simp

/-- At a point with enough coordinates all functions have values. -/
theorem IsLagrange.exists_basis_of_length (nodes : DenseMatrix ℝ) : ∃ n, f.basis nodes ξ = .ok n := by
  rcases hf.cases_of_length hξ with ⟨rfl | rfl, x, rest, rfl⟩ | ⟨rfl | rfl | rfl, x, y, rest, rfl⟩ <;>
    exact ⟨_, rfl⟩

theorem IsLagrange.exists_gradientRows_of_length : ∃ rows, f.gradientRows ξ = .ok rows := by
  rcases hf.cases_of_length hξ with ⟨rfl | rfl, x, rest, rfl⟩ | ⟨rfl | rfl | rfl, x, y, rest, rfl⟩ <;>
    exact ⟨_, rfl⟩

end Points

/-- All derivatives in reference coordinates vanish at the points of the rule. -/
def IsFlat (f : Family) (u : ℕ → ℝ) : Prop :=
  ∀ ξ ∈ f.positions, ∀ rows, f.gradientRows ξ = .ok rows → ∀ row ∈ rows,
    ∑ j ∈ Finset.range f.nodeCount, row.getD j 0 * u j = 0

theorem constant_line2 (h : IsFlat .line2 u) : u 1 = u 0 := by
  have hflat := h _ List.mem_cons_self _ rfl _ List.mem_cons_self
  norm_num [Family.nodeCount, Finset.sum_range_succ] at hflat
  linarith

theorem constant_line3 (h : IsFlat .line3 u) : u 1 = u 0 ∧ u 2 = u 0 := by
  have hmiddle := h _ List.mem_cons_self _ rfl _ List.mem_cons_self
  have hright := h _ (List.mem_cons_of_mem _ (List.mem_cons_of_mem _ List.mem_cons_self)) _ rfl _
    List.mem_cons_self
  have hpoint : 0 < (Scalar.sqrt (3.0 / 5.0) : ℝ) := Real.sqrt_pos.mpr (by norm_num)
  generalize (Scalar.sqrt (3.0 / 5.0) : ℝ) = a at hright hpoint
  norm_num [Family.nodeCount, Finset.sum_range_succ] at hmiddle hright
  have hends : u 1 = u 0 := by linarith
  refine ⟨hends, mul_left_cancel₀ hpoint.ne' ?_⟩
  rw [hends] at hright
  linarith

theorem constant_tri3 (h : IsFlat .tri3 u) : u 1 = u 0 ∧ u 2 = u 0 := by
  have hfirst := h _ List.mem_cons_self _ rfl _ List.mem_cons_self
  have hsecond := h _ List.mem_cons_self _ rfl _ (List.mem_cons_of_mem _ List.mem_cons_self)
  norm_num [Family.nodeCount, Finset.sum_range_succ] at hfirst hsecond
  exact ⟨by linarith, by linarith⟩

theorem constant_quad4 (h : IsFlat .quad4 u) : u 1 = u 0 ∧ u 2 = u 0 ∧ u 3 = u 0 := by
  obtain ⟨a, ha⟩ : ∃ a : ℝ, a = 1 / Scalar.sqrt 3.0 := ⟨_, rfl⟩
  have hpoint : 0 < a := ha ▸ div_pos one_pos (Real.sqrt_pos.mpr (by norm_num))
  have hpositions : positions .quad4 = [[-a, -a], [a, -a], [-a, a], [a, a]] := by rw [ha]; rfl
  have hflat (x y : ℝ) (hxy : [x, y] ∈ positions .quad4) :
      (1 - y) * (u 1 - u 0) + (1 + y) * (u 2 - u 3) = 0 ∧
        (1 - x) * (u 3 - u 0) + (1 + x) * (u 2 - u 1) = 0 := by
    have hfirst := h _ hxy _ rfl _ List.mem_cons_self
    have hsecond := h _ hxy _ rfl _ (List.mem_cons_of_mem _ List.mem_cons_self)
    norm_num [Family.nodeCount, Finset.sum_range_succ] at hfirst hsecond
    exact ⟨by linarith, by linarith⟩
  rw [hpositions] at hflat
  obtain ⟨h1, h2⟩ := hflat (-a) (-a) (by simp)
  obtain ⟨h3, h4⟩ := hflat a a (by simp)
  -- opposite edges change by the same amount, which is then zero
  have hedges : u 2 - u 3 = u 1 - u 0 := mul_left_cancel₀ hpoint.ne' (by linarith)
  have hbottom : u 1 = u 0 := by rw [hedges] at h1; linarith
  have hright : u 2 - u 1 = u 3 - u 0 := mul_left_cancel₀ hpoint.ne' (by linarith)
  have hleft : u 3 = u 0 := by rw [hright] at h2; linarith
  exact ⟨hbottom, by linarith, hleft⟩

theorem constant_tri6 (h : IsFlat .tri6 u) :
    u 1 = u 0 ∧ u 2 = u 0 ∧ u 3 = u 0 ∧ u 4 = u 0 ∧ u 5 = u 0 := by
  have hflat (x y : ℝ) (hxy : [x, y] ∈ positions .tri6) :
      -(4 * (1 - x - y) - 1) * u 0 + (4 * x - 1) * u 1 + 4 * (1 - x - y - x) * u 3 + 4 * y * u 4 -
        4 * y * u 5 = 0 ∧
      -(4 * (1 - x - y) - 1) * u 0 + (4 * y - 1) * u 2 - 4 * x * u 3 + 4 * x * u 4 +
        4 * (1 - x - y - y) * u 5 = 0 := by
    have hfirst := h _ hxy _ rfl _ List.mem_cons_self
    have hsecond := h _ hxy _ rfl _ (List.mem_cons_of_mem _ List.mem_cons_self)
    norm_num [Family.nodeCount, Finset.sum_range_succ] at hfirst hsecond
    exact ⟨by linarith, by linarith⟩
  obtain ⟨h1, h2⟩ := hflat _ _ List.mem_cons_self
  obtain ⟨h3, h4⟩ := hflat _ _ (List.mem_cons_of_mem _ List.mem_cons_self)
  obtain ⟨h5, h6⟩ := hflat _ _ (List.mem_cons_of_mem _ (List.mem_cons_of_mem _ List.mem_cons_self))
  norm_num at h1 h2 h3 h4 h5 h6
  refine ⟨?_, ?_, ?_, ?_, ?_⟩ <;> linarith

/-- A field without derivatives at the points of the rule has one value at all nodes. -/
theorem IsLagrange.constant (hf : f.IsLagrange) (h : f.IsFlat u) : ∀ p < f.nodeCount, u p = u 0 := by
  rcases hf.cases with rfl | rfl | rfl | rfl | rfl <;> intro p hp <;> rw [nodeCount] at hp
  · have h1 := constant_line2 h
    interval_cases p <;> simp [h1]
  · obtain ⟨h1, h2⟩ := constant_line3 h
    interval_cases p <;> simp [h1, h2]
  · obtain ⟨h1, h2, h3⟩ := constant_quad4 h
    interval_cases p <;> simp [h1, h2, h3]
  · obtain ⟨h1, h2⟩ := constant_tri3 h
    interval_cases p <;> simp [h1, h2]
  · obtain ⟨h1, h2, h3, h4, h5⟩ := constant_tri6 h
    interval_cases p <;> simp [h1, h2, h3, h4, h5]

end Rules

end Family

namespace Element

variable {e : Element ℝ} {ξ : List ℝ} {B : DenseMatrix ℝ} {u : ℕ → ℝ}

/-- The Jacobian takes the derivative matrix back to the derivatives in reference coordinates. -/
theorem jacobian_mul_shapeDerivative (hf : e.family.IsLagrange) (hscalar : e.dofsPerNode = 1)
    (hcols : 0 < e.nodes.cols) {d : ℝ} (hd : e.detJ ξ = .ok d) (hB : e.shapeDerivative ξ = .ok B)
    {rows : List (List ℝ)} (hrows : e.family.gradientRows ξ = .ok rows) :
    B.rows = e.nodes.cols ∧
      ((ofRows e.family.nodeCount rows).mul e.nodes).mul B = ofRows e.family.nodeCount rows := by
  have hG := Family.localGradient_eq hrows
  rw [shapeDerivative_of_scalar hscalar, hf.gradient_eq_pullBack hG e.rows_nodes] at hB
  have hmeasure := ((detJ_eq_ok (hf.jacobian_eq hG e.rows_nodes)).mp hd).1
  have hdim : rows.length ≤ 2 := (Family.length_gradientRows hrows).trans_le hf.dim_bounds.2
  exact Family.mul_pullBack (G := ofRows e.family.nodeCount rows) hmeasure rfl hdim hcols hB

/-- A field whose derivatives vanish at all points of the rule has one value at all nodes of the
element, however distorted the element is and in however many dimensions it is placed. -/
theorem constant_of_times_eq_zero (hf : e.family.IsLagrange) (hscalar : e.dofsPerNode = 1)
    (hcols : 0 < e.nodes.cols) (he : e.IsDifferentiable)
    (h : ∀ q ∈ e.points, ∀ k < (e.derivativeAt q).rows, (e.derivativeAt q).times u k = 0) :
    ∀ p < e.family.nodeCount, u p = u 0 := by
  refine hf.constant fun ξ hξ rows hrows row hrow => ?_
  obtain ⟨q, hq, rfl⟩ := List.mem_map.mp hξ
  obtain ⟨d, hd⟩ := he.isRegular.exists_detJ hq
  obtain ⟨B, hB⟩ := he.exists_derivative q hq
  have hzero := h q hq
  rw [derivativeAt_eq hB] at hzero
  obtain ⟨i, hi, rfl⟩ := List.mem_iff_getElem.mp hrow
  obtain ⟨hBrows, hproduct⟩ := jacobian_mul_shapeDerivative hf hscalar hcols hd hB hrows
  have hflat : (ofRows e.family.nodeCount rows).times u i = 0 := by
    rw [← hproduct, times_mul]
    exact ((ofRows e.family.nodeCount rows).mul e.nodes).times_eq_zero
      (fun k hk => hzero k (hBrows.symm ▸ hk)) i
  rwa [Family.times_ofRows _ _ _ hi, List.getD_eq_getElem _ [] hi] at hflat

end Element
end WeakForm

import WeakForm.Proofs.Element.Gradients
import WeakForm.Proofs.Tensor.Maps

/-!
# The kernel of ones

The kernel whose value is a matrix of ones at every point. All weights are positive and so is the
determinant of the Jacobian wherever it exists, so the integral over an element has the same
positive entry everywhere. It exists exactly for regular elements, and no kernel has an integral
over any other.
-/

namespace WeakForm

namespace Kernel

/-- Every rule has points, and their weights are positive. -/
theorem familyRule_pos {f : Family} {points : List (QuadraturePoint ℝ)}
    (h : familyRule f = some points) : points ≠ [] ∧ ∀ q ∈ points, 0 < q.weight := by
  cases f <;> simp [familyRule, Family.rule, Quadrature.rule?, Quadrature.gaussLine,
    Quadrature.gaussTriangle, Quadrature.tensorProduct_eq, Quadrature.tuples, RuleKind.dim] at h <;>
    subst h <;> refine ⟨List.cons_ne_nil _ _, ?_⟩ <;> norm_num

/-- A square matrix with the same entry everywhere. -/
def constant (n : ℕ) (c : ℝ) : Tensor ℝ := .ofMatrix (.ofFn n n fun _ _ => c)

theorem constant_data (n : ℕ) (c : ℝ) :
    (constant n c).data = Array.replicate (n * n) c := by
  apply Array.ext
  · simp [constant, Tensor.ofMatrix, DenseMatrix.ofFn]
  · intro i _ _
    simp [constant, Tensor.ofMatrix, DenseMatrix.ofFn]

theorem map_constant (n : ℕ) (c : ℝ) (f : ℝ → ℝ) :
    (constant n c).map f = constant n (f c) := by
  apply Tensor.ext
  · rfl
  · rw [constant_data]
    simp [Tensor.map, constant_data]

theorem zipWith_constant (n : ℕ) (c d : ℝ) :
    Tensor.zipWith (· + ·) (constant n c) (constant n d) = some (constant n (c + d)) := by
  have hshape : (constant n c).shape = (constant n d).shape := rfl
  unfold Tensor.zipWith
  rw [dif_pos hshape]
  congr 1
  apply Tensor.ext
  · rfl
  · simp [constant_data]

theorem entry_constant (n : ℕ) (c : ℝ) (p q : ℕ) :
    (DenseMatrix.ofFn n n fun _ _ => c).entry p q = if p < n ∧ q < n then c else 0 := by
  split_ifs with h
  · exact DenseMatrix.entry_ofFn _ h.1 h.2
  · by_cases hp : p < n
    · exact DenseMatrix.entry_of_cols_le _ (not_lt.mp fun hq => h ⟨hp, hq⟩)
    · exact DenseMatrix.entry_of_rows_le _ (not_lt.mp hp)

theorem entry_constant_nonneg (n : ℕ) {c : ℝ} (hc : 0 < c) (p q : ℕ) :
    0 ≤ (DenseMatrix.ofFn n n fun _ _ => c).entry p q := by
  rw [entry_constant]
  split_ifs
  · exact hc.le
  · exact le_rfl

/-- The kernel whose value is a matrix of ones. -/
def ones : Kernel ℝ where
  name := "ones"
  text := none
  integrand := fun
    | .regular e _ => .ok (constant e.dofs 1)
    | .given _ _ | .absent => .error .wrongType

variable {e : Element ℝ}

theorem term_ones {q : QuadraturePoint ℝ} {d : ℝ} (h : e.detJ q.position = .ok d) :
    ones.term e q = .ok (constant e.dofs (q.weight * d)) := by
  simp only [term, h, ok_bind]
  change Except.ok ((constant e.dofs 1).map _) = _
  rw [map_constant, mul_one]

/-- The terms of points with positive weights add up to a larger entry. -/
theorem sumTerms_ones {points : List (QuadraturePoint ℝ)} (hw : ∀ q ∈ points, 0 < q.weight)
    (hd : ∀ q ∈ points, ∃ d, e.detJ q.position = .ok d) {c : ℝ} (hc : 0 < c) :
    ∃ c', 0 < c' ∧ sumTerms (ones.term e) (constant e.dofs c) points =
      .ok (constant e.dofs c') := by
  induction points generalizing c with
  | nil => exact ⟨c, hc, rfl⟩
  | cons q points ih =>
    obtain ⟨d, hq⟩ := hd q (by simp)
    have hwq := hw q (by simp)
    have hterm : 0 < q.weight * d := mul_pos hwq (Element.detJ_pos hq)
    obtain ⟨c', hc', hsum⟩ := ih (fun q' h => hw q' (by simp [h])) (fun q' h => hd q' (by simp [h]))
      (add_pos hc hterm)
    refine ⟨c', hc', ?_⟩
    rw [sumTerms, term_ones hq, ok_bind, zipWith_constant]
    exact hsum

theorem integrate_ones (h : e.IsRegular) :
    ∃ c, 0 < c ∧ ones.integrate e = .ok (constant e.dofs c) := by
  unfold integrate
  match hrule : rule e with
  | none => exact ⟨1, one_pos, rfl⟩
  | some points =>
    obtain ⟨hne, hw⟩ := familyRule_pos hrule
    have hd := h points hrule
    match points with
    | [] => exact absurd rfl hne
    | q :: points =>
      obtain ⟨d, hq⟩ := hd q (by simp)
      have hterm : 0 < q.weight * d := mul_pos (hw q (by simp)) (Element.detJ_pos hq)
      rw [sumOverRule, term_ones hq, ok_bind]
      exact sumTerms_ones (fun q' h => hw q' (by simp [h])) (fun q' h => hd q' (by simp [h])) hterm

/-- Over a regular element all entries of the integral are the same positive number. -/
theorem localMatrix_ones (h : e.IsRegular) :
    ∃ c, 0 < c ∧ ones.localMatrix e = .ok (.ofFn e.dofs e.dofs fun _ _ => c) := by
  obtain ⟨c, hc, hint⟩ := integrate_ones h
  refine ⟨c, hc, ?_⟩
  rw [localMatrix, hint, ok_bind]
  have hmatrix : (constant e.dofs c).atLeast2.toMatrix? =
      some (.ofFn e.dofs e.dofs fun _ _ => c) := rfl
  simp only [hmatrix, DenseMatrix.rows_ofFn, DenseMatrix.cols_ofFn, and_self, if_true]
  rfl

/-- Where a point of the rule is degenerate no kernel has an integral. -/
theorem isRegular_of_integrate (k : Kernel ℝ) {t : Tensor ℝ} (h : k.integrate e = .ok t) :
    e.IsRegular := by
  intro points hrule
  have hterm (q : QuadraturePoint ℝ) {u : Tensor ℝ} (hq : k.term e q = .ok u) :
      ∃ d, e.detJ q.position = .ok d := by
    obtain ⟨d, hd, -⟩ := bind_eq_ok.mp hq
    exact ⟨d, hd⟩
  rw [integrate, hrule] at h
  have hsum (points : List (QuadraturePoint ℝ)) (total : Tensor ℝ)
      (h : sumTerms (k.term e) total points = .ok t) :
      ∀ q ∈ points, ∃ d, e.detJ q.position = .ok d := by
    induction points generalizing total with
    | nil => simp
    | cons q points ih =>
      obtain ⟨u, hu, h⟩ := bind_eq_ok.mp h
      obtain ⟨next, -, h⟩ := bind_eq_ok.mp h
      exact List.forall_mem_cons.mpr ⟨hterm q hu, ih next h⟩
  match points with
  | [] => cases h
  | q :: points =>
    obtain ⟨u, hu, h⟩ := bind_eq_ok.mp h
    exact List.forall_mem_cons.mpr ⟨hterm q hu, hsum points u h⟩

theorem isRegular_of_localMatrix (k : Kernel ℝ) {K : DenseMatrix ℝ}
    (h : k.localMatrix e = .ok K) : e.IsRegular := by
  obtain ⟨t, ht, -⟩ := bind_eq_ok.mp h
  exact isRegular_of_integrate k ht

theorem isRegular_of_localVector (k : Kernel ℝ) {v : Array ℝ} (h : k.localVector e = .ok v) :
    e.IsRegular := by
  obtain ⟨t, ht, -⟩ := bind_eq_ok.mp h
  exact isRegular_of_integrate k ht

end Kernel
end WeakForm

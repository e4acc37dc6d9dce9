import WeakForm.Proofs.RealScalar
import WeakForm.Proofs.Assembly.Shares
import WeakForm.Proofs.Assembly.Ones
import WeakForm.Proofs.Kernel.Forms

/-!
# Integrals of weak forms

The matrix of an element is the weighted sum of the values of the kernel at the points of its rule.
It exists exactly if every point has a Jacobian that is not degenerate and a derivative matrix.
-/

namespace WeakForm

open Finset

namespace Element

/-- The points of the quadrature rule. -/
noncomputable def points (e : Element ℝ) : List (QuadraturePoint ℝ) := (Kernel.rule e).getD []

/-- The weight of a point of the rule in space, zero where the Jacobian is degenerate. -/
noncomputable def weightAt (e : Element ℝ) (q : QuadraturePoint ℝ) : ℝ :=
  q.weight * (e.detJ q.position).toOption.getD 0

/-- The derivative matrix at a point, or an empty one if there is none. -/
noncomputable def derivativeAt (e : Element ℝ) (q : QuadraturePoint ℝ) : DenseMatrix ℝ :=
  (e.shapeDerivative q.position).toOption.getD (.zero 0 0)

/-- The shape matrix at a point, or an empty one if there is none. -/
noncomputable def shapeAt (e : Element ℝ) (q : QuadraturePoint ℝ) : DenseMatrix ℝ :=
  (e.shape q.position).toOption.getD (.zero 0 0)

variable {e : Element ℝ} {q : QuadraturePoint ℝ}

theorem weightAt_eq {d : ℝ} (h : e.detJ q.position = .ok d) : e.weightAt q = q.weight * d := by
  rw [weightAt, h]
  rfl

theorem derivativeAt_eq {B : DenseMatrix ℝ} (h : e.shapeDerivative q.position = .ok B) :
    e.derivativeAt q = B := by
  rw [derivativeAt, h]
  rfl

theorem shapeAt_eq {N : DenseMatrix ℝ} (h : e.shape q.position = .ok N) : e.shapeAt q = N := by
  rw [shapeAt, h]
  rfl

theorem IsRegular.exists_detJ (h : e.IsRegular) (hq : q ∈ e.points) :
    ∃ d, e.detJ q.position = .ok d := by
  unfold points at hq
  cases hrule : Kernel.rule e with
  | none => simp [hrule] at hq
  | some points => exact h points hrule q (by simpa [hrule] using hq)

/-- All weights in space are positive. -/
theorem IsRegular.weightAt_pos (h : e.IsRegular) (hq : q ∈ e.points) : 0 < e.weightAt q := by
  obtain ⟨d, hd⟩ := h.exists_detJ hq
  rw [weightAt_eq hd]
  unfold points at hq
  cases hrule : Kernel.rule e with
  | none => simp [hrule] at hq
  | some points =>
    exact mul_pos ((Kernel.familyRule_pos hrule).2 q (by simpa [hrule] using hq)) (detJ_pos hd)

/-- Every point of the rule has a regular Jacobian and a derivative matrix. -/
structure IsDifferentiable (e : Element ℝ) : Prop where
  isRegular : e.IsRegular
  exists_derivative : ∀ q ∈ e.points, ∃ B, e.shapeDerivative q.position = .ok B

end Element

namespace Kernel

variable {k : Kernel ℝ} {e : Element ℝ} {points : List (QuadraturePoint ℝ)} {r c : ℕ}

section Sums

variable {d : QuadraturePoint ℝ → ℝ} {V : QuadraturePoint ℝ → DenseMatrix ℝ}

theorem term_eq {q : QuadraturePoint ℝ} {x : ℝ} {A : DenseMatrix ℝ} (hd : e.detJ q.position = .ok x)
    (hA : k.integrand (.regular e (some q.position)) = .ok (.ofMatrix A)) :
    k.term e q = .ok (.ofMatrix (A.map (q.weight * x * ·))) := by
  rw [term, hd, ok_bind, hA]
  rfl

/-- The terms of all points add up to a matrix. -/
theorem sumTerms_eq (total : DenseMatrix ℝ) (hd : ∀ q ∈ points, e.detJ q.position = .ok (d q))
    (hV : ∀ q ∈ points, k.integrand (.regular e (some q.position)) = .ok (.ofMatrix (V q)))
    (hsize : ∀ q ∈ points, (V q).rows = r ∧ (V q).cols = c)
    (hrows : total.rows = r) (hcols : total.cols = c) :
    ∃ X, sumTerms (k.term e) (.ofMatrix total) points = .ok (.ofMatrix X) ∧ X.rows = r ∧
      X.cols = c ∧ ∀ i j, X.entry i j = total.entry i j +
        (points.map fun q => q.weight * d q * (V q).entry i j).sum := by
  induction points generalizing total with
  | nil => exact ⟨total, rfl, hrows, hcols, fun i j => by simp⟩
  | cons q points ih =>
    obtain ⟨hdq, hd⟩ := List.forall_mem_cons.mp hd
    obtain ⟨hVq, hV⟩ := List.forall_mem_cons.mp hV
    obtain ⟨⟨hqrows, hqcols⟩, hsize⟩ := List.forall_mem_cons.mp hsize
    obtain ⟨Y, hY, hYrows, hYcols, hYentry⟩ :=
      Tensor.plus_ofMatrix (A := total) (B := (V q).map (q.weight * d q * ·))
        (hrows.trans hqrows.symm) (hcols.trans hqcols.symm)
    obtain ⟨X, hX, hXrows, hXcols, hXentry⟩ :=
      ih _ hd hV hsize (hYrows.trans hrows) (hYcols.trans hcols)
    refine ⟨X, ?_, hXrows, hXcols, fun i j => ?_⟩
    · rw [sumTerms, term_eq hdq hVq, ok_bind, hY]
      exact hX
    · rw [hXentry, hYentry, DenseMatrix.entry_map (φ := (q.weight * d q * ·)) (mul_zero _),
        List.map_cons, List.sum_cons, add_assoc]

theorem integrate_eq (hrule : rule e = some points)
    (hd : ∀ q ∈ points, e.detJ q.position = .ok (d q))
    (hV : ∀ q ∈ points, k.integrand (.regular e (some q.position)) = .ok (.ofMatrix (V q)))
    (hsize : ∀ q ∈ points, (V q).rows = r ∧ (V q).cols = c) :
    ∃ X, k.integrate e = .ok (.ofMatrix X) ∧ X.rows = r ∧ X.cols = c ∧
      ∀ i j, X.entry i j = (points.map fun q => q.weight * d q * (V q).entry i j).sum := by
  cases points with
  | nil => exact absurd rfl (familyRule_pos hrule).1
  | cons q points =>
    obtain ⟨hdq, hd⟩ := List.forall_mem_cons.mp hd
    obtain ⟨hVq, hV⟩ := List.forall_mem_cons.mp hV
    obtain ⟨⟨hqrows, hqcols⟩, hsize⟩ := List.forall_mem_cons.mp hsize
    obtain ⟨X, hX, hrows, hcols, hentry⟩ :=
      sumTerms_eq ((V q).map (q.weight * d q * ·)) hd hV hsize hqrows hqcols
    refine ⟨X, ?_, hrows, hcols, fun i j => ?_⟩
    · rw [integrate, hrule, sumOverRule, term_eq hdq hVq, ok_bind, hX]
    · rw [hentry, DenseMatrix.entry_map (φ := (q.weight * d q * ·)) (mul_zero _), List.map_cons,
        List.sum_cons]

/-- An integral has a term at every point. -/
theorem exists_term_of_integrate {t : Tensor ℝ} (h : k.integrate e = .ok t) {q : QuadraturePoint ℝ}
    (hq : q ∈ e.points) : ∃ u, k.term e q = .ok u := by
  have hsum (points : List (QuadraturePoint ℝ)) (total : Tensor ℝ)
      (h : sumTerms (k.term e) total points = .ok t) : ∀ q ∈ points, ∃ u, k.term e q = .ok u := by
    induction points generalizing total with
    | nil => simp
    | cons q points ih =>
      obtain ⟨u, hu, h⟩ := bind_eq_ok.mp h
      obtain ⟨next, -, h⟩ := bind_eq_ok.mp h
      exact List.forall_mem_cons.mpr ⟨⟨u, hu⟩, ih next h⟩
  unfold integrate at h
  unfold Element.points at hq
  cases hrule : rule e with
  | none => simp [hrule] at hq
  | some points =>
    rw [hrule] at h hq
    cases points with
    | nil => simp at hq
    | cons q' points =>
      obtain ⟨u, hu, h⟩ := bind_eq_ok.mp h
      rcases List.mem_cons.mp hq with rfl | hq
      · exact ⟨u, hu⟩
      · exact hsum points u h q hq

/-- What holds of the values of a kernel holds of its integral, if multiples with factors that are not
negative and sums keep it up. -/
theorem integrate_induction {P : Tensor ℝ → Prop}
    (hmul : ∀ t (c : ℝ), 0 ≤ c → P t → P (t.map (c * ·)))
    (hadd : ∀ s t u, P s → P t → Tensor.zipWith (· + ·) s t = some u → P u)
    (hk : ∀ ξ t, k.integrand (.regular e ξ) = .ok t → P t) {t : Tensor ℝ}
    (h : k.integrate e = .ok t) : P t := by
  have hterm {q : QuadraturePoint ℝ} (hq : 0 < q.weight) {t : Tensor ℝ} (h : k.term e q = .ok t) :
      P t := by
    obtain ⟨d, hd, h⟩ := bind_eq_ok.mp h
    obtain ⟨v, hv, h⟩ := bind_eq_ok.mp h
    cases h
    exact hmul v _ (mul_pos hq (Element.detJ_pos hd)).le (hk _ v hv)
  have hsum (points : List (QuadraturePoint ℝ)) (hpoints : ∀ q ∈ points, 0 < q.weight)
      (total : Tensor ℝ) (htotal : P total) (h : sumTerms (k.term e) total points = .ok t) : P t := by
    induction points generalizing total with
    | nil =>
      cases h
      exact htotal
    | cons q points ih =>
      obtain ⟨hq, hpoints⟩ := List.forall_mem_cons.mp hpoints
      obtain ⟨v, hv, h⟩ := bind_eq_ok.mp h
      obtain ⟨next, hnext, h⟩ := bind_eq_ok.mp h
      exact ih hpoints next
        (hadd total v next htotal (hterm hq hv) (orShapeMismatch_eq_ok.mp hnext)) h
  unfold integrate at h
  cases hrule : rule e with
  | none =>
    rw [hrule] at h
    exact hk none t h
  | some points =>
    have hpositive := (familyRule_pos hrule).2
    rw [hrule] at h
    cases points with
    | nil => cases h
    | cons q points =>
      obtain ⟨hq, hpoints⟩ := List.forall_mem_cons.mp hpositive
      obtain ⟨v, hv, h⟩ := bind_eq_ok.mp h
      exact hsum points hpoints v (hterm hq hv) h

end Sums

section Matrices

variable {W : ℕ → ℕ → ℝ}

/-- A congruence on an element that has a rule and whose derivative matrices have a column for every
degree of freedom. -/
structure IsStiffness (k : Kernel ℝ) (e : Element ℝ) (W : ℕ → ℕ → ℝ) : Prop where
  isCongruence : k.IsCongruence e W
  cols_eq : ∀ ξ B, e.shapeDerivative ξ = .ok B → B.cols = e.dofs
  hasRule : (rule e).isSome

/-- The matrix of an element is the weighted sum of the values of the kernel. -/
theorem localMatrix_of_values (hrule : (rule e).isSome) (he : e.IsRegular)
    {V : QuadraturePoint ℝ → DenseMatrix ℝ}
    (hV : ∀ q ∈ e.points, k.integrand (.regular e (some q.position)) = .ok (.ofMatrix (V q)))
    (hsize : ∀ q ∈ e.points, (V q).rows = e.dofs ∧ (V q).cols = e.dofs) :
    ∃ K, k.localMatrix e = .ok K ∧ ∀ i j, K.entry i j =
      (e.points.map fun q => e.weightAt q * (V q).entry i j).sum := by
  obtain ⟨points, hpoints⟩ := Option.isSome_iff_exists.mp hrule
  have hmem : e.points = points := by rw [Element.points, hpoints]; rfl
  have hd : ∀ q ∈ points, e.detJ q.position = .ok ((e.detJ q.position).toOption.getD 0) := by
    intro q hq
    obtain ⟨d, hd⟩ := he.exists_detJ (hmem ▸ hq)
    rw [hd]
    rfl
  obtain ⟨X, hX, hrows, hcols, hentry⟩ := integrate_eq hpoints hd (hmem ▸ hV) (hmem ▸ hsize)
  refine ⟨X, ?_, fun i j => ?_⟩
  · rw [Kernel.localMatrix, hX, ok_bind]
    exact if_pos ⟨hrows, hcols⟩
  · rw [hentry, hmem]
    rfl

/-- At the points of the rule of a regular element the values of the kernel are congruences of a weight
by matrices with a column for every degree of freedom. -/
structure IsQuadratic (k : Kernel ℝ) (e : Element ℝ) (W : ℕ → ℕ → ℝ)
    (F : QuadraturePoint ℝ → DenseMatrix ℝ) : Prop where
  isRegular : e.IsRegular
  hasRule : (rule e).isSome
  integrand_eq : ∀ q ∈ e.points,
    k.integrand (.regular e (some q.position)) = .ok (.ofMatrix ((F q).congruence W))
  cols_eq : ∀ q ∈ e.points, (F q).cols = e.dofs

/-- The matrix of an element is the weighted sum of congruences. -/
theorem IsQuadratic.localMatrix {F : QuadraturePoint ℝ → DenseMatrix ℝ} (hk : k.IsQuadratic e W F) :
    ∃ K, k.localMatrix e = .ok K ∧ ∀ i j, K.entry i j =
      (e.points.map fun q => e.weightAt q * ((F q).congruence W).entry i j).sum :=
  localMatrix_of_values hk.hasRule hk.isRegular hk.integrand_eq
    fun q hq => ⟨hk.cols_eq q hq, hk.cols_eq q hq⟩

theorem IsStiffness.isQuadratic (hk : k.IsStiffness e W) (he : e.IsDifferentiable) :
    k.IsQuadratic e W e.derivativeAt := by
  have hB : ∀ q ∈ e.points, e.shapeDerivative q.position = .ok (e.derivativeAt q) := by
    intro q hq
    obtain ⟨B, hB⟩ := he.exists_derivative q hq
    rw [Element.derivativeAt_eq hB, hB]
  refine ⟨he.isRegular, hk.hasRule, fun q hq => ?_, fun q hq => hk.cols_eq _ _ (hB q hq)⟩
  rw [hk.isCongruence]
  exact congrArg (Except.map _) (hB q hq)

theorem IsStiffness.localMatrix (hk : k.IsStiffness e W) (he : e.IsDifferentiable) :
    ∃ K, k.localMatrix e = .ok K ∧ ∀ i j, K.entry i j =
      (e.points.map fun q => e.weightAt q * ((e.derivativeAt q).congruence W).entry i j).sum :=
  (hk.isQuadratic he).localMatrix

theorem IsStiffness.exists_localMatrix (hk : k.IsStiffness e W) (he : e.IsDifferentiable) :
    ∃ K, k.localMatrix e = .ok K := (hk.localMatrix he).imp fun _ h => h.1

/-- With a number in the middle there is a matrix of every regular element that has the factor at the
points of its rule. -/
theorem IsSandwich.exists_localMatrix {x : Number ℝ}
    {matrixAt : List ℝ → Except (Error ℝ) (DenseMatrix ℝ)} (hk : k.IsSandwich e (.plain x) matrixAt)
    (hx : x.IsReal) (hrule : (rule e).isSome) (he : e.IsRegular) (hdofs : e.dofs ≠ 1)
    (hfactor : ∀ q ∈ e.points, ∃ A, matrixAt q.position = .ok A ∧ A.cols = e.dofs) :
    ∃ K, k.localMatrix e = .ok K := by
  have hvalue : ∀ q ∈ e.points, ∃ V : DenseMatrix ℝ,
      k.integrand (.regular e (some q.position)) = .ok (.ofMatrix V) ∧
        V.rows = e.dofs ∧ V.cols = e.dofs := by
    intro q hq
    obtain ⟨A, hA, hcols⟩ := hfactor q hq
    have hne := hcols.trans_ne hdofs
    obtain ⟨u, hu, hscaled⟩ := (Value.isMatrix_ofTensor A.transpose).mul_plain hx (.inl hne)
    obtain ⟨v, hv, hmatrix⟩ := hscaled.mul (Value.isMatrix_ofTensor A) (.inl hne) (.inr hne) rfl
    refine ⟨(A.transpose.map (· * x.value)).mul A, ?_, hcols, hcols⟩
    rw [hk, Option.getD_some, hA, ok_bind, hu, ok_bind, hv, ok_bind, hmatrix.toReals]
  have : Nonempty (DenseMatrix ℝ) := ⟨.ofFn 0 0 fun _ _ => 0⟩
  choose! V hV using hvalue
  exact (localMatrix_of_values hrule he (fun q hq => (hV q hq).1) fun q hq => (hV q hq).2).imp
    fun _ h => h.1

/-- An element with a matrix has a derivative matrix at every point. -/
theorem IsCongruence.isDifferentiable (hk : k.IsCongruence e W) {K : DenseMatrix ℝ}
    (hK : k.localMatrix e = .ok K) : e.IsDifferentiable := by
  refine ⟨isRegular_of_localMatrix k hK, fun q hq => ?_⟩
  obtain ⟨t, ht, -⟩ := bind_eq_ok.mp hK
  obtain ⟨u, hu⟩ := exists_term_of_integrate ht hq
  obtain ⟨d, -, hu⟩ := bind_eq_ok.mp hu
  obtain ⟨v, hv, -⟩ := bind_eq_ok.mp hu
  rw [hk] at hv
  obtain ⟨B, hB, -⟩ := map_eq_ok.mp hv
  exact ⟨B, hB⟩

end Matrices

section Vectors

variable {f : DenseMatrix ℝ → ℕ → ℝ}

theorem localVector_of_column {X : DenseMatrix ℝ} (hX : k.integrate e = .ok (.ofMatrix X))
    (hrows : X.rows = e.dofs) (hcols : X.cols = 1) :
    ∃ v, k.localVector e = .ok v ∧ ∀ i, v.getD i 0 = X.entry i 0 := by
  refine ⟨X.data, ?_, fun i => ?_⟩
  · have hsize : X.data.size = e.dofs := by rw [X.size_data, hrows, hcols, mul_one]
    rw [Kernel.localVector, hX, ok_bind]
    exact if_pos hsize
  · rw [DenseMatrix.entry, if_pos (hcols ▸ Nat.one_pos), hcols, mul_one, add_zero]

/-- The vector of an element is the weighted sum of columns. -/
theorem IsColumn.localVector (hk : k.IsColumn e f) (he : e.IsRegular)
    (hN : ∀ q ∈ e.points, ∃ N, e.shape q.position = .ok N ∧ N.cols = e.dofs)
    (hrule : (rule e).isSome) :
    ∃ v, k.localVector e = .ok v ∧ ∀ i < e.dofs, v.getD i 0 =
      (e.points.map fun q => e.weightAt q * f (e.shapeAt q) i).sum := by
  obtain ⟨points, hpoints⟩ := Option.isSome_iff_exists.mp hrule
  have hmem : e.points = points := by rw [Element.points, hpoints]; rfl
  have hd : ∀ q ∈ points, e.detJ q.position = .ok ((e.detJ q.position).toOption.getD 0) := by
    intro q hq
    obtain ⟨d, hd⟩ := he.exists_detJ (hmem ▸ hq)
    rw [hd]
    rfl
  have hshape : ∀ q ∈ points, e.shape q.position = .ok (e.shapeAt q) ∧ (e.shapeAt q).cols = e.dofs := by
    intro q hq
    obtain ⟨N, hN, hcols⟩ := hN q (hmem ▸ hq)
    rw [Element.shapeAt_eq hN]
    exact ⟨hN, hcols⟩
  obtain ⟨X, hX, hrows, hcols, hentry⟩ := integrate_eq hpoints hd
    (V := fun q => .ofFn (e.shapeAt q).cols 1 fun i _ => f (e.shapeAt q) i) (r := e.dofs) (c := 1)
    (fun q hq => by rw [hk]; exact congrArg (Except.map _) (hshape q hq).1)
    (fun q hq => ⟨(hshape q hq).2, rfl⟩)
  obtain ⟨v, hv, hvalue⟩ := localVector_of_column hX hrows hcols
  refine ⟨v, hv, fun i hi => ?_⟩
  rw [hvalue, hentry, hmem]
  refine congrArg List.sum (List.map_congr_left fun q hq => ?_)
  rw [DenseMatrix.entry_ofFn _ ((hshape q hq).2 ▸ hi) Nat.one_pos]
  rfl

/-- The vector of a point element is the value of the kernel. -/
theorem IsColumn.localVector_point (hk : k.IsColumn e f) (hrule : rule e = none) {N : DenseMatrix ℝ}
    (hN : e.shape [] = .ok N) (hcols : N.cols = e.dofs) :
    ∃ v, k.localVector e = .ok v ∧ ∀ i < e.dofs, v.getD i 0 = f N i := by
  have hX : k.integrate e = .ok (.ofMatrix (.ofFn N.cols 1 fun i _ => f N i)) := by
    rw [integrate, hrule, sumOverRule, hk]
    exact congrArg (Except.map _) hN
  obtain ⟨v, hv, hvalue⟩ := localVector_of_column hX hcols rfl
  refine ⟨v, hv, fun i hi => ?_⟩
  rw [hvalue, DenseMatrix.entry_ofFn _ (hcols ▸ hi) Nat.one_pos]

end Vectors

end Kernel
end WeakForm

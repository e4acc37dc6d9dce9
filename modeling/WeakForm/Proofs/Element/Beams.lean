import WeakForm.Proofs.RealScalar
import WeakForm.Proofs.Assembly.Energy
import WeakForm.Proofs.Element.Detection

/-!
# Beams

A beam has a deflection and a rotation at both ends, and its derivative matrix is the curvature. The
curvature is linear along the beam, so the two points of its rule give the exact energy, and a beam
without curvature at both points is moved rigidly. The end of a beam takes forces and moments as they
are.
-/

namespace WeakForm

open DenseMatrix

namespace Element

variable {e : Element ℝ} {h : ℝ}

/-- A beam on the line with the length `h`. -/
structure IsBeam (e : Element ℝ) (h : ℝ) : Prop where
  family_eq : e.family = .beam2
  cols_eq : e.nodes.cols = 1
  dofsPerNode_eq : e.dofsPerNode = 2
  length_eq : e.nodes.entry 1 0 - e.nodes.entry 0 0 = h
  length_pos : 0 < h

/-- A beam of the length `h`, wherever its ends lie. -/
structure HasSpan (e : Element ℝ) (h : ℝ) : Prop where
  family_eq : e.family = .beam2
  dofsPerNode_eq : e.dofsPerNode = 2
  beamLength_eq : Family.beamLength e.nodes = .ok h
  length_pos : 0 < h

/-- The curvature at a point of a beam with the deflections `u 0`, `u 2` and the rotations `u 1`,
`u 3` at its ends. -/
noncomputable def curvature (h : ℝ) (u : ℕ → ℝ) (x : ℝ) : ℝ :=
  (6 * (u 0 - u 2) / h + 3 * (u 1 + u 3)) / h * x + (u 3 - u 1) / h

/-- The Gauss point of the rule with two points. -/
noncomputable def gaussPoint : ℝ := 1 / Scalar.sqrt 3.0

theorem gaussPoint_sq : gaussPoint ^ 2 = 1 / 3 := by
  have hthree : (0 : ℝ) ≤ 3.0 := by norm_num
  rw [gaussPoint, div_pow, one_pow]
  change 1 / Real.sqrt 3.0 ^ 2 = _
  rw [Real.sq_sqrt hthree]
  norm_num

/-- The rule with two points of the segment, which have the same weight. -/
theorem points_of_rule (hrule : e.family.rule = some (.line, 2)) :
    e.points = [⟨[-gaussPoint], 1 * 1⟩, ⟨[gaussPoint], 1 * 1⟩] := by
  rw [points, Kernel.rule, Kernel.familyRule, hrule]
  rfl

/-- The length of a beam on the line does not depend on the order of its ends. -/
theorem beamLength_eq_abs (hf : e.family = .beam2) (hcols : e.nodes.cols = 1) :
    Family.beamLength e.nodes = .ok |e.nodes.entry 1 0 - e.nodes.entry 0 0| := by
  have hrows : ¬ e.nodes.rows < 2 := by
    rw [e.rows_nodes, hf]
    decide
  have hnorm (x : ℝ) : norm [x] = |x| := by
    change Real.sqrt (0 + x * x) = |x|
    rw [zero_add, Real.sqrt_mul_self_eq_abs]
  rw [Family.beamLength, if_neg hrows, hcols, ← hnorm]
  rfl

theorem IsBeam.hasSpan (he : e.IsBeam h) : e.HasSpan h := by
  refine ⟨he.family_eq, he.dofsPerNode_eq, ?_, he.length_pos⟩
  rw [beamLength_eq_abs he.family_eq he.cols_eq, he.length_eq, abs_of_pos he.length_pos]

/-- The derivative matrix makes the curvature out of deflections and rotations. -/
theorem IsBeam.times_curvature (h : ℝ) (u : ℕ → ℝ) (x : ℝ) :
    (ofRows 4 (Basis.beam2Curvature h x)).times u 0 = curvature h u x := by
  have hentry : ∀ q ∈ Finset.range 4, (ofRows 4 (Basis.beam2Curvature h x)).entry 0 q * u q =
      ((Basis.beam2Curvature h x).getD 0 []).getD q 0 * u q := fun q hq =>
    congrArg (· * u q) (entry_ofRows Nat.one_pos (Finset.mem_range.mp hq))
  have hcols : (ofRows 4 (Basis.beam2Curvature h x)).cols = 4 := rfl
  rw [times, hcols, Finset.sum_congr rfl hentry]
  simp only [Finset.sum_range_succ, Finset.sum_range_zero, Basis.beam2Curvature, List.getD_cons_zero,
    List.getD_cons_succ, curvature]
  norm_num
  ring

namespace HasSpan

variable (he : e.HasSpan h)
include he

theorem dofs_eq : e.dofs = 4 := by
  rw [dofs, he.family_eq, he.dofsPerNode_eq]
  rfl

theorem detJ_eq (ξ : List ℝ) : e.detJ ξ = .ok (h / 2) := by
  have hjacobian : e.jacobian ξ = .ok (.ofRows 1 [[0.5 * h]]) := by
    rw [jacobian, he.family_eq, Family.jacobian, he.beamLength_eq]
    rfl
  have hentry : (.ofRows 1 [[0.5 * h]] : DenseMatrix ℝ).entry 0 0 = 0.5 * h :=
    entry_ofRows Nat.one_pos Nat.one_pos
  have hmeasure : measure (.ofRows 1 [[0.5 * h]] : DenseMatrix ℝ) = h / 2 := by
    rw [measure_of_square rfl Nat.one_pos, det_one rfl rfl, hentry]
    ring
  have hpos : Scalar.less 0 (h / 2) = true := decide_eq_true (half_pos he.length_pos)
  rw [detJ, hjacobian, ok_bind]
  simp only [hmeasure, if_pos hpos]
  rfl

theorem shapeDerivative_eq (x : ℝ) (ξ : List ℝ) :
    e.shapeDerivative (x :: ξ) = .ok (.ofRows 4 (Basis.beam2Curvature h x)) := by
  have hgradient : e.family.gradient e.nodes (x :: ξ) =
      .ok (.ofRows 4 (Basis.beam2Curvature h x)) := by
    rw [he.family_eq, Family.gradient, he.beamLength_eq]
    rfl
  have hexpands : e.expands (ofRows 4 (Basis.beam2Curvature h x)).cols = false := by
    have hcols : (ofRows 4 (Basis.beam2Curvature h x)).cols = e.dofs := he.dofs_eq.symm
    simp [expands, hcols]
  rw [shapeDerivative, hgradient, ok_bind, hexpands]
  rfl

theorem cols_shapeDerivative {ξ : List ℝ} {B : DenseMatrix ℝ} (hB : e.shapeDerivative ξ = .ok B) :
    B.cols = 4 := by
  cases ξ with
  | nil =>
    have hgradient : e.family.gradient e.nodes [] = .error .outOfRange := by
      rw [he.family_eq]
      rfl
    rw [shapeDerivative, hgradient] at hB
    cases hB
  | cons x ξ =>
    rw [he.shapeDerivative_eq] at hB
    cases hB
    rfl

theorem points_eq : e.points = [⟨[-gaussPoint], 1 * 1⟩, ⟨[gaussPoint], 1 * 1⟩] :=
  points_of_rule (by rw [he.family_eq]; rfl)

theorem weightAt_eq {q : QuadraturePoint ℝ} (hq : q ∈ e.points) : e.weightAt q = h / 2 := by
  have hweight : q.weight = 1 := by
    rw [he.points_eq] at hq
    rcases List.mem_pair.mp hq with rfl | rfl <;> exact one_mul 1
  rw [Element.weightAt_eq (he.detJ_eq _), hweight, one_mul]

theorem derivativeAt_eq (x w : ℝ) :
    e.derivativeAt ⟨[x], w⟩ = .ofRows 4 (Basis.beam2Curvature h x) :=
  Element.derivativeAt_eq (he.shapeDerivative_eq x [])

theorem isDifferentiable : e.IsDifferentiable := by
  refine ⟨fun points hrule q _ => ⟨_, he.detJ_eq q.position⟩, ?_⟩
  rw [he.points_eq]
  simp only [List.forall_mem_cons, List.not_mem_nil, false_implies, implies_true, and_true]
  exact ⟨⟨_, he.shapeDerivative_eq _ _⟩, ⟨_, he.shapeDerivative_eq _ _⟩⟩

theorem isStiffness {defs : Definitions ℝ} {label text name : String} {k : Kernel ℝ}
    (hk : Kernel.compile label text defs = .ok k)
    (hparse : Expr.parse text = .ok (Kernel.sandwich "B" name)) (hreserved : Names.isReserved name = false)
    {v : Value ℝ} {x : ℝ} (hv : v.IsScalar x) (hname : defs.lookup name = some (.constant v)) :
    k.IsStiffness e (scalarWeight x) where
  isCongruence := Kernel.isCongruence_scalar hk hparse hreserved hv hname fun _ _ hB => by
    rw [he.cols_shapeDerivative hB]
    decide
  cols_eq := fun _ _ hB => (he.cols_shapeDerivative hB).trans he.dofs_eq.symm
  hasRule := by rw [Kernel.rule, he.family_eq]; rfl

/-- The product of a stiffness matrix with two fields is that of their curvatures. -/
theorem sum_matrixOf {k : Kernel ℝ} {EI : ℝ} (hk : k.IsStiffness e (scalarWeight EI)) (w u : ℕ → ℝ) :
    ∑ p ∈ Finset.range e.dofs, ∑ q ∈ Finset.range e.dofs, w p * (k.matrixOf e).entry p q * u q =
      h / 2 * EI * (curvature h w (-gaussPoint) * curvature h u (-gaussPoint) +
        curvature h w gaussPoint * curvature h u gaussPoint) := by
  have hweight := fun q hq => he.weightAt_eq (q := q) hq
  have hpairing (x : ℝ) : pairing (scalarWeight EI) (ofRows 4 (Basis.beam2Curvature h x)).rows
      ((ofRows 4 (Basis.beam2Curvature h x)).times w) ((ofRows 4 (Basis.beam2Curvature h x)).times u) =
        curvature h w x * EI * curvature h u x := by
    have hrows : (ofRows 4 (Basis.beam2Curvature h x)).rows = 1 := rfl
    rw [hrows, pairing, Finset.sum_range_one, Finset.sum_range_one, IsBeam.times_curvature, IsBeam.times_curvature,
      scalarWeight, if_pos rfl]
  rw [he.points_eq] at hweight
  rw [Kernel.sum_matrixOf hk he.isDifferentiable, he.points_eq, List.map_cons, List.map_cons,
    List.map_nil, List.sum_cons, List.sum_cons, List.sum_nil, hweight _ (by simp),
    hweight _ (by simp), he.derivativeAt_eq, he.derivativeAt_eq, hpairing, hpairing]
  ring

end HasSpan

section Curvatures

variable {h : ℝ} {u : ℕ → ℝ}

/-- A beam without curvature at both points of its rule is moved rigidly. -/
theorem rigid_of_curvature (hh : 0 < h) (hleft : curvature h u (-gaussPoint) = 0)
    (hright : curvature h u gaussPoint = 0) : u 3 = u 1 ∧ u 2 = u 0 + h * u 1 := by
  unfold curvature at hleft hright
  have hpoint : gaussPoint ≠ 0 := by
    intro hzero
    have hsq := gaussPoint_sq
    rw [hzero] at hsq
    norm_num at hsq
  have hrotation : u 3 = u 1 := by
    have hmean : (u 3 - u 1) / h = 0 := by linarith
    linarith [(div_eq_zero_iff.mp hmean).resolve_right hh.ne']
  have hslope : 6 * (u 0 - u 2) / h + 3 * (u 1 + u 3) = 0 := by
    have hzero : (6 * (u 0 - u 2) / h + 3 * (u 1 + u 3)) / h * gaussPoint = 0 := by linarith
    exact (div_eq_zero_iff.mp ((mul_eq_zero.mp hzero).resolve_right hpoint)).resolve_right hh.ne'
  refine ⟨hrotation, ?_⟩
  rw [hrotation] at hslope
  field_simp at hslope
  linarith

end Curvatures

section Ends

variable {k : Kernel ℝ} {P Q : ℝ}

/-- The shape matrix of a point with a deflection and a rotation is the identity. -/
theorem shape_end (hf : e.family = .point) (hdofs : e.dofsPerNode = 2) (ξ : List ℝ) :
    e.shape ξ = .ok (interleaved 2 [1]) := by
  have hbasis : e.family.basis e.nodes ξ = .ok [1] := by rw [hf]; rfl
  have hexpands : e.expands ([1] : List ℝ).length = true := by
    simp [expands, dofs, hf, hdofs, Family.nodeCount]
  rw [shape, hbasis, ok_bind, hexpands, hdofs]
  rfl

/-- The end of a beam takes the force and the moment. -/
theorem exists_localVector_end (hf : e.family = .point) (hdofs : e.dofsPerNode = 2)
    (hk : k.IsColumn e fun N i => N.entry 0 i * P + N.entry 1 i * Q) :
    ∃ f, k.localVector e = .ok f ∧ f.getD 0 0 = P ∧ f.getD 1 0 = Q := by
  have hcount : e.dofs = 2 := by rw [dofs, hf, hdofs]; rfl
  have hrule : (Kernel.rule e : Option (List (QuadraturePoint ℝ))) = none := by rw [Kernel.rule, hf]; rfl
  obtain ⟨f, hvector, hvalue⟩ := hk.localVector_point hrule (shape_end hf hdofs []) hcount.symm
  have hentry (i j : ℕ) (hi : i < 2) (hj : j < 2) :
      (interleaved 2 [(1 : ℝ)]).entry i j = if j = i then 1 else 0 := by
    have hcols : j < 2 * ([1] : List ℝ).length := hj
    rw [interleaved, entry_ofFn _ hi hcols]
    interval_cases i <;> interval_cases j <;> simp
  refine ⟨f, hvector, ?_, ?_⟩
  · simp [hvalue 0 (by omega), hentry]
  · simp [hvalue 1 (by omega), hentry]

end Ends

end Element
end WeakForm

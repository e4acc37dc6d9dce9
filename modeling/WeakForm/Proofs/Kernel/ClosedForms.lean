import WeakForm.Proofs.RealScalar
import WeakForm.Proofs.Element.Areas
import WeakForm.Proofs.Element.Beams
import WeakForm.Proofs.Element.LocalProducts
import WeakForm.Proofs.Element.SideCurves
import WeakForm.Proofs.Kernel.Mass

/-!
# Closed forms

The matrices of straight segments, of beams and of triangles can be written down from their length or their
area. Neither the frame in which an element is placed nor the irrational points of its rule are left in
them.
-/

namespace WeakForm

open Finset DenseMatrix

namespace DenseMatrix

theorem entry_congruence_scalarWeight (x : ℝ) (B : DenseMatrix ℝ) (i j : ℕ) :
    (congruence (scalarWeight x) B).entry i j = x * ∑ k ∈ range B.rows, B.entry k i * B.entry k j := by
  rw [entry_congruence, mul_sum]
  refine sum_congr rfl fun k hk => ?_
  simp only [scalarWeight, mul_ite, mul_zero, ite_mul, zero_mul]
  rw [sum_ite_eq, if_pos hk]
  ring

end DenseMatrix

namespace Kernel

variable {k : Kernel ℝ} {e : Element ℝ} {x c : ℝ} {F : QuadraturePoint ℝ → DenseMatrix ℝ}

/-- A weighted sum of squares is the matrix that has its entries. -/
theorem IsQuadratic.localMatrix_eq (hk : k.IsQuadratic e (scalarWeight x) F) {rows : List (List ℝ)}
    (hrows : rows.length = e.dofs) (hentry : ∀ i < e.dofs, ∀ j < e.dofs,
      (e.points.map fun q => e.weightAt q *
        (x * ∑ k ∈ range (F q).rows, (F q).entry k i * (F q).entry k j)).sum =
          c * (rows.getD i []).getD j 0) :
    k.localMatrix e = .ok ((DenseMatrix.ofRows e.dofs rows).map (c * ·)) := by
  obtain ⟨K, hK, hvalue⟩ := hk.localMatrix
  obtain ⟨hKrows, hKcols⟩ := localMatrix_size hK
  refine hK.trans (congrArg Except.ok (DenseMatrix.ext (hKrows.trans hrows.symm) hKcols fun i j hi hj => ?_))
  rw [hKrows] at hi
  rw [hKcols] at hj
  rw [hvalue, entry_map (φ := (c * ·)) (mul_zero _), entry_ofRows (hrows ▸ hi) hj, ← hentry i hi j hj]
  simp only [entry_congruence_scalarWeight]

end Kernel

namespace Element

variable {e : Element ℝ} {L : ℝ}

/-- The first two nodes are at the distance `L`. -/
structure IsOfLength (e : Element ℝ) (L : ℝ) : Prop where
  pos : 0 < L
  sq_eq : L ^ 2 = ∑ k ∈ range e.nodes.cols, (e.nodes.entry 1 k - e.nodes.entry 0 k) ^ 2

namespace IsOfLength

variable (h : e.IsOfLength L)
include h

theorem beamLength_eq (hf : e.family = .beam2) : Family.beamLength e.nodes = .ok L := by
  have hrows : ¬ e.nodes.rows < 2 := by
    rw [e.rows_nodes, hf]
    decide
  have hsum : ∑ k ∈ range e.nodes.cols, (e.nodes.entry 1 k - e.nodes.entry 0 k) *
      (e.nodes.entry 1 k - e.nodes.entry 0 k) = L ^ 2 := by
    rw [h.sq_eq]
    exact sum_congr rfl fun k _ => (sq _).symm
  rw [Family.beamLength, if_neg hrows, norm_map_range, norm_toSpace, hsum, Real.sqrt_sq h.pos.le]

end IsOfLength

/-- The sum over the two points of the rule of the segment, which share the length of the element. -/
theorem sum_points_of_rule (hrule : e.family.rule = some (.line, 2)) (hdet : ∀ ξ, e.detJ ξ = .ok (L / 2))
    (f : QuadraturePoint ℝ → ℝ) : (e.points.map fun q => e.weightAt q * f q).sum =
      L / 2 * (f ⟨[-gaussPoint], 1 * 1⟩ + f ⟨[gaussPoint], 1 * 1⟩) := by
  have hweight (x : ℝ) : e.weightAt ⟨[x], 1 * 1⟩ = L / 2 := by
    rw [weightAt_eq (hdet _), one_mul, one_mul]
  simp only [points_of_rule hrule, List.map_cons, List.map_nil, List.sum_cons, List.sum_nil, hweight]
  ring

/-- The curvature at a point of a beam is linear along it. -/
theorem entry_beam2Curvature (L x : ℝ) {j : ℕ} (hj : j < 4) :
    (ofRows 4 (Basis.beam2Curvature L x)).entry 0 j =
      [6 / L ^ 2, 3 / L, -6 / L ^ 2, 3 / L].getD j 0 * x + [0, -1 / L, 0, 1 / L].getD j 0 := by
  rw [entry_ofRows Nat.one_pos hj]
  interval_cases j <;> norm_num [Basis.beam2Curvature] <;> ring

theorem HasSpan.localMatrix_eq (he : e.HasSpan L) {k : Kernel ℝ} {EI : ℝ}
    (hk : k.IsStiffness e (scalarWeight EI)) : k.localMatrix e = .ok ((ofRows 4
      [[12, 6 * L, -12, 6 * L], [6 * L, 4 * L ^ 2, -6 * L, 2 * L ^ 2],
        [-12, -6 * L, 12, -6 * L], [6 * L, 2 * L ^ 2, -6 * L, 4 * L ^ 2]]).map (EI / L ^ 3 * ·)) := by
  have hquadratic := hk.isQuadratic he.isDifferentiable
  have hrule : e.family.rule = some (.line, 2) := by rw [he.family_eq]; rfl
  rw [← he.dofs_eq]
  refine hquadratic.localMatrix_eq he.dofs_eq.symm fun i hi j hj => ?_
  rw [he.dofs_eq] at hi hj
  have hrows (x : ℝ) : (ofRows 4 (Basis.beam2Curvature L x)).rows = 1 := rfl
  have hne := he.length_pos.ne'
  -- the points are opposite, so products of a slope and an offset cancel
  have hpair (a b a' b' : ℝ) : L / 2 * (EI * ((a * -gaussPoint + b) * (a' * -gaussPoint + b')) +
      EI * ((a * gaussPoint + b) * (a' * gaussPoint + b'))) = EI * L * (a * a' / 3 + b * b') := by
    linear_combination EI * L * a * a' * gaussPoint_sq
  simp only [sum_points_of_rule hrule he.detJ_eq, he.derivativeAt_eq, hrows, sum_range_one,
    entry_beam2Curvature L _ hi, entry_beam2Curvature L _ hj, hpair]
  interval_cases i <;> interval_cases j <;> simp <;> field_simp <;> ring

section Segments

variable (hf : e.family = .line2) (hscalar : e.dofsPerNode = 1) (h : e.IsOfLength L)
  (hincreasing : e.nodes.cols = 1 → e.nodes.entry 0 0 < e.nodes.entry 1 0)

/-- Half of the way from end to end, the one row of the Jacobian of a segment. -/
noncomputable def halfWay (e : Element ℝ) : DenseMatrix ℝ :=
  .ofFn 1 e.nodes.cols fun _ k => (e.nodes.entry 1 k - e.nodes.entry 0 k) / 2

theorem entry_halfWay {k : ℕ} (hk : k < e.nodes.cols) :
    e.halfWay.entry 0 k = (e.nodes.entry 1 k - e.nodes.entry 0 k) / 2 := entry_ofFn _ Nat.one_pos hk

include h in
theorem IsOfLength.cols_pos : 0 < e.nodes.cols := by
  by_contra hle
  have hsum := h.sq_eq
  rw [Nat.eq_zero_of_not_pos hle, sum_range_zero] at hsum
  exact h.pos.ne' (pow_eq_zero_iff two_ne_zero |>.mp hsum)

include h in
theorem IsOfLength.dot_halfWay : dot e.nodes.cols (e.halfWay.entry 0) (e.halfWay.entry 0) = L ^ 2 / 4 := by
  rw [dot, h.sq_eq, sum_div]
  refine sum_congr rfl fun k hk => ?_
  rw [entry_halfWay (mem_range.mp hk)]
  ring

include h hincreasing in
theorem IsOfLength.measure_halfWay : measure e.halfWay = L / 2 := by
  have hcols := h.cols_pos
  by_cases hone : e.nodes.cols = 1
  · have hdot := h.dot_halfWay
    rw [dot, hone, sum_range_one, entry_halfWay hcols] at hdot
    rw [measure_of_square (J := e.halfWay) hone.symm Nat.one_pos, det_one (A := e.halfWay) rfl hone,
      entry_halfWay hcols]
    have hpos := hincreasing hone
    have hL := h.pos
    nlinarith
  · have hne : e.halfWay.rows * e.halfWay.cols ≠ 0 := by
      change 1 * e.nodes.cols ≠ 0
      omega
    rw [measure, if_neg hne, if_neg (show e.halfWay.rows ≠ e.halfWay.cols from Ne.symm hone),
      det_one (A := e.halfWay.mul e.halfWay.transpose) rfl rfl,
      entry_mul_transpose e.halfWay Nat.one_pos]
    change √(dot e.nodes.cols _ _) = _
    rw [h.dot_halfWay, show L ^ 2 / 4 = (L / 2) ^ 2 by ring, Real.sqrt_sq (half_pos h.pos).le]

/-- The derivatives of the basis functions of a segment point along it. -/
noncomputable def segmentDerivative (e : Element ℝ) (L : ℝ) : DenseMatrix ℝ :=
  .ofFn e.nodes.cols 2 fun k j => (e.nodes.entry 1 k - e.nodes.entry 0 k) * [-1, 1].getD j 0 / L ^ 2

theorem entry_segmentDerivative {k j : ℕ} (hk : k < e.nodes.cols) (hj : j < 2) :
    (e.segmentDerivative L).entry k j =
      (e.nodes.entry 1 k - e.nodes.entry 0 k) * [-1, 1].getD j 0 / L ^ 2 := entry_ofFn _ hk hj

include hf hscalar h hincreasing in
theorem shapeDerivative_segment (ξ : List ℝ) : e.shapeDerivative ξ = .ok (e.segmentDerivative L) := by
  have hlagrange : e.family.IsLagrange := by rw [hf]; decide
  have hgradient : e.family.gradientRows ξ = .ok Basis.line2Gradient := by rw [hf]; rfl
  have hG := Family.localGradient_eq hgradient
  have hcount : e.family.nodeCount = 2 := by rw [hf]; rfl
  have hne := h.pos.ne'
  rw [shapeDerivative_of_scalar hscalar, hlagrange.gradient_eq_pullBack hG e.rows_nodes,
    (IsAffine.of_line2 hf).mul_nodes hlagrange hgradient, hcount]
  refine Family.pullBack_eq_ok (J := e.halfWay) ⟨Nat.one_pos, one_le_two⟩ h.cols_pos ?_ rfl ?_
    (a := fun _ j => 2 * [-1, 1].getD j 0 / L ^ 2) fun _ j hj k hk => ?_
  · rw [h.measure_halfWay hincreasing]
    exact half_pos h.pos
  · refine DenseMatrix.ext rfl rfl fun i j hi hj => ?_
    obtain rfl : i = 0 := Nat.lt_one_iff.mp hi
    change j < 2 at hj
    have hterm (k : ℕ) (hk : k ∈ range e.nodes.cols) : e.halfWay.entry 0 k * (e.segmentDerivative L).entry k j =
        2 * [-1, 1].getD j 0 / L ^ 2 * (e.halfWay.entry 0 k * e.halfWay.entry 0 k) := by
      rw [entry_halfWay (mem_range.mp hk), entry_segmentDerivative (mem_range.mp hk) hj]
      ring
    have hentry : (ofRows 2 (Basis.line2Gradient (α := ℝ))).entry 0 j = [-1, 1].getD j 0 / 2 := by
      rw [entry_ofRows Nat.one_pos hj]
      interval_cases j <;> norm_num [Basis.line2Gradient]
    rw [entry_mul, hentry]
    refine (sum_congr rfl hterm).trans ?_
    rw [← mul_sum, ← dot, h.dot_halfWay]
    field_simp
    ring
  · have hrows : e.halfWay.rows = 1 := rfl
    rw [entry_segmentDerivative hk hj, hrows, sum_range_one, entry_halfWay hk]
    ring

include hf h hincreasing in
theorem detJ_segment (ξ : List ℝ) : e.detJ ξ = .ok (L / 2) := by
  have hlagrange : e.family.IsLagrange := by rw [hf]; decide
  have hgradient : e.family.gradientRows ξ = .ok Basis.line2Gradient := by rw [hf]; rfl
  have hmeasure := h.measure_halfWay hincreasing
  have hpos : 0 < measure e.halfWay := hmeasure ▸ half_pos h.pos
  rw [← hmeasure]
  exact (IsAffine.of_line2 hf).detJ_eq hlagrange hpos hgradient

include hf hscalar h hincreasing in
theorem localMatrix_stiffness_segment {k : Kernel ℝ} {c : ℝ}
    (hk : k.IsQuadratic e (scalarWeight c) fun _ => e.segmentDerivative L) :
    k.localMatrix e = .ok ((ofRows 2 [[1, -1], [-1, 1]]).map (c / L * ·)) := by
  have hdofs : e.dofs = 2 := by rw [dofs, hf, hscalar]; rfl
  have hrule : e.family.rule = some (.line, 2) := by rw [hf]; rfl
  have hne := h.pos.ne'
  have hdet := detJ_segment hf h hincreasing
  have hrows : (e.segmentDerivative L).rows = e.nodes.cols := rfl
  rw [← hdofs]
  refine hk.localMatrix_eq hdofs.symm fun i hi j hj => ?_
  rw [hdofs] at hi hj
  have hsquare : ∑ k ∈ range e.nodes.cols,
      (e.segmentDerivative L).entry k i * (e.segmentDerivative L).entry k j =
        [-1, 1].getD i 0 * [-1, 1].getD j 0 / L ^ 2 := by
    calc ∑ k ∈ range e.nodes.cols, (e.segmentDerivative L).entry k i * (e.segmentDerivative L).entry k j
        = ∑ k ∈ range e.nodes.cols, [-1, 1].getD i 0 * [-1, 1].getD j 0 / L ^ 4 *
            (e.nodes.entry 1 k - e.nodes.entry 0 k) ^ 2 := by
          refine sum_congr rfl fun k hk => ?_
          have hk := mem_range.mp hk
          rw [entry_segmentDerivative hk hi, entry_segmentDerivative hk hj]
          ring
      _ = [-1, 1].getD i 0 * [-1, 1].getD j 0 / L ^ 2 := by
          rw [← mul_sum, ← h.sq_eq]
          field_simp
  rw [sum_points_of_rule hrule hdet, hrows, hsquare]
  interval_cases i <;> interval_cases j <;> simp <;> field_simp <;> ring

include hf hscalar h hincreasing in
theorem localMatrix_mass_segment {k : Kernel ℝ} {c : ℝ} (hk : k.IsQuadratic e (scalarWeight c) e.shapeAt) :
    k.localMatrix e = .ok ((ofRows 2 [[2, 1], [1, 2]]).map (c * L / 6 * ·)) := by
  have hdofs : e.dofs = 2 := by rw [dofs, hf, hscalar]; rfl
  have hrule : e.family.rule = some (.line, 2) := by rw [hf]; rfl
  rw [← hdofs]
  refine hk.localMatrix_eq hdofs.symm fun i hi j hj => ?_
  rw [hdofs] at hi hj
  have hshape (x : ℝ) : e.shapeAt ⟨[x], 1 * 1⟩ = .ofRows 2 [Basis.line2 x] :=
    shapeAt_eq (shape_line2 hf hscalar x [])
  have hrows (x : ℝ) : (ofRows 2 [Basis.line2 x]).rows = 1 := rfl
  have hentry (x : ℝ) {j : ℕ} (hj : j < 2) :
      (ofRows 2 [Basis.line2 x]).entry 0 j = 1 / 2 + [-1, 1].getD j 0 / 2 * x := by
    rw [entry_ofRows Nat.one_pos hj]
    interval_cases j <;> norm_num [Basis.line2] <;> ring
  have hpair (a a' : ℝ) : L / 2 * (c * ((1 / 2 + a / 2 * -gaussPoint) * (1 / 2 + a' / 2 * -gaussPoint)) +
      c * ((1 / 2 + a / 2 * gaussPoint) * (1 / 2 + a' / 2 * gaussPoint))) = c * L * (3 + a * a') / 12 := by
    linear_combination c * L * a * a' / 4 * gaussPoint_sq
  simp only [sum_points_of_rule hrule (detJ_segment hf h hincreasing), hshape, hrows, sum_range_one,
    hentry _ hi, hentry _ hj, hpair]
  interval_cases i <;> interval_cases j <;> simp <;> ring

end Segments

section Triangles

theorem points_tri3 (hf : e.family = .tri3) : e.points =
    [⟨[1 / 6, 1 / 6], 1 / 6⟩, ⟨[2 / 3, 1 / 6], 1 / 6⟩, ⟨[1 / 6, 2 / 3], 1 / 6⟩] := by
  rw [points, Kernel.rule, hf, Family.familyRule_tri3]
  rfl

variable (hf : e.family = .tri3) (hcols : e.nodes.cols = 2) (hscalar : e.dofsPerNode = 1)
  (hpos : 0 < e.signedArea)

include hf hcols hpos in
theorem detJ_triangle (ξ : List ℝ) : e.detJ ξ = .ok (2 * e.signedArea) := by
  have hlagrange : e.family.IsLagrange := by rw [hf]; decide
  have hgradient : e.family.gradientRows ξ = .ok Basis.tri3Gradient := by rw [hf]; rfl
  have hplaced := IsAffine.of_tri3 hf
  have harea := hplaced.signedArea_eq (.inr (.inl hf)) hcols
  rw [hf, Family.referenceMeasure] at harea
  obtain ⟨hmeasure, hmpos⟩ := hplaced.measure_pos hlagrange hcols.symm (by linarith)
  rw [hplaced.detJ_eq hlagrange hmpos hgradient, hmeasure, harea]
  refine congrArg Except.ok ?_
  ring

include hf hscalar in
theorem shape_triangle (x y : ℝ) : e.shape [x, y] = .ok (.ofRows 3 [Basis.tri3 x y]) := by
  have hbasis : e.family.basis e.nodes [x, y] = .ok (Basis.tri3 x y) := by rw [hf]; rfl
  have hexpands : e.expands (Basis.tri3 x y).length = false := by simp [expands, hscalar]
  rw [shape, hbasis, ok_bind, hexpands]
  rfl

include hf hcols hscalar hpos in
theorem localMatrix_mass_triangle {k : Kernel ℝ} {c : ℝ} (hk : k.IsQuadratic e (scalarWeight c) e.shapeAt) :
    k.localMatrix e =
      .ok ((ofRows 3 [[2, 1, 1], [1, 2, 1], [1, 1, 2]]).map (c * e.signedArea / 12 * ·)) := by
  have hdofs : e.dofs = 3 := by rw [dofs, hf, hscalar]; rfl
  rw [← hdofs]
  refine hk.localMatrix_eq hdofs.symm fun i hi j hj => ?_
  rw [hdofs] at hi hj
  have hweight (x y : ℝ) : e.weightAt ⟨[x, y], 1 / 6⟩ = 1 / 6 * (2 * e.signedArea) :=
    weightAt_eq (detJ_triangle hf hcols hpos _)
  have hshape (x y : ℝ) : e.shapeAt ⟨[x, y], 1 / 6⟩ = .ofRows 3 [Basis.tri3 x y] :=
    shapeAt_eq (shape_triangle hf hscalar x y)
  have hrows (x y : ℝ) : (ofRows 3 [Basis.tri3 x y]).rows = 1 := rfl
  have hentry (x y : ℝ) {j : ℕ} (hj : j < 3) :
      (ofRows 3 [Basis.tri3 x y]).entry 0 j = [1 - x - y, x, y].getD j 0 := entry_ofRows Nat.one_pos hj
  simp only [points_tri3 hf, List.map_cons, List.map_nil, List.sum_cons, List.sum_nil, hweight, hshape, hrows,
    sum_range_one, hentry _ _ hi, hentry _ _ hj]
  interval_cases i <;> interval_cases j <;> norm_num <;> ring

end Triangles

end Element

namespace Kernel

variable {e : Element ℝ}

section Forms

variable {defs : Definitions ℝ} {label text : String} {k : Kernel ℝ} {v : Value ℝ} {c : ℝ}

/-- A form that multiplies the square of a matrix of the site with a number, on an element that has the matrix at
the points of its rule. -/
theorem isQuadratic_of_integrand {matrixAt : List ℝ → Except (Error ℝ) (DenseMatrix ℝ)}
    (hk : ∀ ξ, k.integrand (.regular e ξ) = (matrixAt (ξ.getD [])).map fun A =>
      .ofMatrix (A.congruence (scalarWeight c)))
    (hrule : (rule e).isSome) (he : e.IsRegular) {F : QuadraturePoint ℝ → DenseMatrix ℝ}
    (hF : ∀ q ∈ e.points, matrixAt q.position = .ok (F q) ∧ (F q).cols = e.dofs) :
    k.IsQuadratic e (scalarWeight c) F := by
  refine ⟨he, hrule, fun q hq => ?_, fun q hq => (hF q hq).2⟩
  rw [hk]
  exact congrArg (Except.map _) (hF q hq).1

/-- A form with one name that is not reserved is compiled where this name is defined. -/
theorem exists_compile_of_lookup {tree : Expr} (hparse : Expr.parse text = .ok tree) (hdefs : defs.AreNamed)
    {name : String} {d : Definition ℝ} (hname : defs.lookup name = some d)
    (hnames : ∀ n ∈ tree.names, Names.isReserved n = true ∨ n = name) (label : String) :
    ∃ k, compile label text defs = .ok k := by
  refine exists_compile hparse hdefs (fun n hn => (hnames n hn).imp_right ?_) label
  rintro rfl
  exact List.mem_map_of_mem (mem_of_lookup_eq_some hname)

variable (hscalar : e.dofsPerNode = 1) (hv : v.IsScalar c) (hc : defs.lookup "c" = some (.constant v))
include hscalar hv hc

theorem isQuadratic_scaledGrammian (hk : compile label "c*B'*B" defs = .ok k) (hf : e.family = .line2) {L : ℝ}
    (h : e.IsOfLength L) (hincreasing : e.nodes.cols = 1 → e.nodes.entry 0 0 < e.nodes.entry 1 0) :
    k.IsQuadratic e (scalarWeight c) fun _ => e.segmentDerivative L := by
  have hlagrange : e.family.IsLagrange := by rw [hf]; decide
  have hdofs : e.dofs = 2 := by rw [Element.dofs, hf, hscalar]; rfl
  refine isQuadratic_of_integrand (integrand_scaledSquare hk parse_scaledGrammian (by decide) hv hc
    (fun _ => meaning_derivative) fun ξ A hA => (cols_shapeDerivative hlagrange hscalar hA).2)
    (isSome_rule hlagrange) (fun _ _ q _ => ⟨_, Element.detJ_segment hf h hincreasing q.position⟩)
    fun q _ => ⟨Element.shapeDerivative_segment hf hscalar h hincreasing q.position, hdofs.symm⟩

theorem isQuadratic_scaledMass (hk : compile label "c*N'*N" defs = .ok k) (hf : e.family.IsLagrange)
    (he : e.IsRegular) : k.IsQuadratic e (scalarWeight c) e.shapeAt := by
  have hcols {ξ : List ℝ} {N : DenseMatrix ℝ} (hN : e.shape ξ = .ok N) : N.cols = e.dofs := by
    obtain ⟨n, hn, hN⟩ := bind_eq_ok.mp hN
    have hexpands : e.expands n.length = false := by simp [Element.expands, hscalar]
    have hbeam : e.family ≠ .beam2 := by
      intro hbeam
      rw [hbeam] at hf
      exact absurd hf (by decide)
    rw [hexpands] at hN
    cases hN
    rw [Element.dofs, hscalar, mul_one]
    exact (Family.length_basis hn).trans (if_neg hbeam)
  have hdofs : e.dofs ≠ 1 := by
    have htwo := hf.two_le_nodeCount
    rw [Element.dofs, hscalar, mul_one]
    omega
  refine isQuadratic_of_integrand (integrand_scaledSquare hk parse_scaledMass (by decide) hv hc
    (fun _ => meaning_shape) fun ξ A hA => (hcols hA).trans_ne hdofs) (isSome_rule hf) he fun q hq => ?_
  have hshape := (Element.shapeAt_spec hf (hscalar ▸ Nat.one_pos) hq).1
  exact ⟨hshape, hcols hshape⟩

end Forms

/-- The matrices of a beam and of a segment of the length `L`, wherever they are placed, and of a plane triangle
whose corners run counter clockwise. -/
theorem closed_forms {defs : Definitions ℝ} (hdefs : defs.AreNamed) {v : Value ℝ} {x : ℝ} (hv : v.IsScalar x)
    (e : Element ℝ) (label : String) :
    (defs.lookup "EI" = some (.constant v) → e.family = .beam2 → e.dofsPerNode = 2 → ∀ L, e.IsOfLength L →
      ∃ k, compile label "B'*EI*B" defs = .ok k ∧ k.localMatrix e = .ok ((DenseMatrix.ofRows 4
        [[12, 6 * L, -12, 6 * L], [6 * L, 4 * L ^ 2, -6 * L, 2 * L ^ 2],
          [-12, -6 * L, 12, -6 * L], [6 * L, 2 * L ^ 2, -6 * L, 4 * L ^ 2]]).map (x / L ^ 3 * ·))) ∧
    (defs.lookup "c" = some (.constant v) → e.dofsPerNode = 1 →
      (e.family = .line2 → (e.nodes.cols = 1 → e.nodes.entry 0 0 < e.nodes.entry 1 0) → ∀ L, e.IsOfLength L →
        (∃ k, compile label "c*B'*B" defs = .ok k ∧
          k.localMatrix e = .ok ((DenseMatrix.ofRows 2 [[1, -1], [-1, 1]]).map (x / L * ·))) ∧
        ∃ k, compile label "c*N'*N" defs = .ok k ∧
          k.localMatrix e = .ok ((DenseMatrix.ofRows 2 [[2, 1], [1, 2]]).map (x * L / 6 * ·))) ∧
      (e.family = .tri3 → e.nodes.cols = 2 → 0 < e.signedArea →
        ∃ k, compile label "c*N'*N" defs = .ok k ∧ k.localMatrix e =
          .ok ((DenseMatrix.ofRows 3 [[2, 1, 1], [1, 2, 1], [1, 1, 2]]).map (x * e.signedArea / 12 * ·)))) := by
  refine ⟨fun hEI hf hdofs L hL => ?_, fun hc hscalar => ?_⟩
  · obtain ⟨k, hk⟩ := exists_compile_of_lookup parse_bending hdefs hEI (by decide) label
    have hspan : e.HasSpan L := ⟨hf, hdofs, hL.beamLength_eq hf, hL.pos⟩
    exact ⟨k, hk, hspan.localMatrix_eq (hspan.isStiffness hk parse_bending (by decide) hv hEI)⟩
  obtain ⟨m, hm⟩ := exists_compile_of_lookup parse_scaledMass hdefs hc (by decide) label
  refine ⟨fun hf hincreasing L hL => ⟨?_, m, hm, ?_⟩, fun hf hcols hpos => ⟨m, hm, ?_⟩⟩
  · obtain ⟨k, hk⟩ := exists_compile_of_lookup parse_scaledGrammian hdefs hc (by decide) label
    exact ⟨k, hk, Element.localMatrix_stiffness_segment hf hscalar hL hincreasing
      (isQuadratic_scaledGrammian hscalar hv hc hk hf hL hincreasing)⟩
  · have hregular : e.IsRegular := fun _ _ q _ => ⟨_, Element.detJ_segment hf hL hincreasing q.position⟩
    exact Element.localMatrix_mass_segment hf hscalar hL hincreasing
      (isQuadratic_scaledMass hscalar hv hc hm (by rw [hf]; decide) hregular)
  · have hregular : e.IsRegular := fun _ _ q _ => ⟨_, Element.detJ_triangle hf hcols hpos q.position⟩
    exact Element.localMatrix_mass_triangle hf hcols hscalar hpos
      (isQuadratic_scaledMass hscalar hv hc hm (by rw [hf]; decide) hregular)

/-- A beam in the plane, a segment in space and a triangle. -/
theorem closed_forms_oblique : let defs : Definitions ℝ :=
      [("EI", .constant (.plain (.integer 2))), ("c", .constant (.plain (.integer 2)))]
    let beam : Element ℝ := ⟨1, .beam2, .ofRows 2 [[0, 0], [3, 4]], [1, 2], 2, none, rfl, rfl⟩
    let segment : Element ℝ := ⟨1, .line2, .ofRows 3 [[0, 0, 0], [1, 2, 2]], [1, 2], 1, none, rfl, rfl⟩
    let triangle : Element ℝ := ⟨1, .tri3, .ofRows 2 [[0, 0], [3, 0], [0, 2]], [1, 2, 3], 1, none, rfl, rfl⟩
    (defs.AreNamed ∧ beam.IsOfLength 5 ∧ segment.IsOfLength 3 ∧ triangle.signedArea = 3) ∧
    (∃ k, compile "K" "B'*EI*B" defs = .ok k ∧ k.localMatrix beam = .ok ((DenseMatrix.ofRows 4
      [[12, 6 * 5, -12, 6 * 5], [6 * 5, 4 * 5 ^ 2, -6 * 5, 2 * 5 ^ 2],
        [-12, -6 * 5, 12, -6 * 5], [6 * 5, 2 * 5 ^ 2, -6 * 5, 4 * 5 ^ 2]]).map ((2 : ℤ) / 5 ^ 3 * ·))) ∧
    (∃ k, compile "K" "c*B'*B" defs = .ok k ∧
      k.localMatrix segment = .ok ((DenseMatrix.ofRows 2 [[1, -1], [-1, 1]]).map ((2 : ℤ) / 3 * ·))) ∧
    ∃ k, compile "M" "c*N'*N" defs = .ok k ∧ k.localMatrix triangle =
      .ok ((DenseMatrix.ofRows 3 [[2, 1, 1], [1, 2, 1], [1, 1, 2]]).map ((2 : ℤ) * 3 / 12 * ·)) := by
  intro defs beam segment triangle
  have hdefs : defs.AreNamed := by
    intro d hd
    rcases List.mem_pair.mp hd with rfl | rfl <;> exact ⟨by decide, by decide, rfl⟩
  have hvalue : (Value.plain (.integer 2) : Value ℝ).IsScalar (2 : ℤ) := Value.isScalar_plain trivial
  have hbeam : beam.IsOfLength 5 := by
    refine ⟨by norm_num, ?_⟩
    change _ = ∑ k ∈ range 2, _
    norm_num [beam, sum_range_succ, DenseMatrix.ofRows, entry_ofFn_eq]
  have hsegment : segment.IsOfLength 3 := by
    refine ⟨by norm_num, ?_⟩
    change _ = ∑ k ∈ range 3, _
    norm_num [segment, sum_range_succ, DenseMatrix.ofRows, entry_ofFn_eq]
  have harea : triangle.signedArea = 3 := by
    norm_num [Element.signedArea, triangle, Family.sides, Element.cross, DenseMatrix.ofRows, entry_ofFn_eq]
  refine ⟨⟨hdefs, hbeam, hsegment, harea⟩, ?_, ?_, ?_⟩
  · exact (closed_forms hdefs hvalue beam "K").1 rfl rfl rfl 5 hbeam
  · exact (((closed_forms hdefs hvalue segment "K").2 rfl rfl).1 rfl (fun h => absurd h (by decide)) 3 hsegment).1
  · have h := ((closed_forms hdefs hvalue triangle "M").2 rfl rfl).2 rfl rfl (by rw [harea]; norm_num)
    rwa [harea] at h

end Kernel
end WeakForm

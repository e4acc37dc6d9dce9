import Mathlib.Analysis.Calculus.Deriv.Comp
import Mathlib.Analysis.Calculus.Deriv.Mul
import Mathlib.Analysis.Calculus.Deriv.Pow
import WeakForm.Proofs.Element.Beams
import WeakForm.Proofs.Element.Fields

/-!
# Deflections of beams

The field of a beam on the line is a cubic function of the position. At both ends it has the deflection of the
node. Its slope there is the rotation of the node, but with the opposite sign if the beam is listed from right
to left: the functions of the rotations are scaled with the length, which has no sign, while the position follows
the order of the nodes.
-/

namespace WeakForm
namespace Element

variable {e : Element ℝ} {u : Array ℝ} {w w' : ℝ → ℝ}

/-- A beam on the line between two different points, in whatever order. -/
structure IsSpan (e : Element ℝ) : Prop where
  family_eq : e.family = .beam2
  cols_eq : e.nodes.cols = 1
  dofsPerNode_eq : e.dofsPerNode = 2
  side_eq : e.side = none
  ends_ne : e.nodes.entry 0 0 ≠ e.nodes.entry 1 0

/-- The direction along the line in which the nodes of a beam are listed. -/
noncomputable def direction (e : Element ℝ) : ℝ := if e.nodes.entry 0 0 < e.nodes.entry 1 0 then 1 else -1

/-- The values of a field are those of a function of the position. -/
def IsField (e : Element ℝ) (u : Array ℝ) (w : ℝ → ℝ) : Prop :=
  ∀ ξ, ∃ x, e.position [ξ] = .ok [x] ∧ e.evaluate u [ξ] = .ok [w x]

section Cubics

/-- The combination of the beam functions for a length. -/
noncomputable def hermite (L : ℝ) (v : ℕ → ℝ) (ξ : ℝ) : ℝ := blend (Basis.beam2 L ξ) v

variable (L : ℝ) (v : ℕ → ℝ)

theorem hermite_eq (ξ : ℝ) : hermite L v ξ = ((v 0 + v 2) / 2 + L / 8 * (v 1 - v 3)) +
    (3 / 4 * (v 2 - v 0) - L / 8 * (v 1 + v 3)) * ξ + L / 8 * (v 3 - v 1) * ξ ^ 2 +
      ((v 0 - v 2) / 4 + L / 8 * (v 1 + v 3)) * ξ ^ 3 := by
  simp only [hermite, Basis.beam2, blend_cons, blend_nil]
  norm_num
  ring

theorem hermite_ends : hermite L v (-1) = v 0 ∧ hermite L v 1 = v 2 := by
  constructor <;>
  · rw [hermite_eq]
    ring

theorem hasDerivAt_hermite (ξ : ℝ) : HasDerivAt (hermite L v) ((3 / 4 * (v 2 - v 0) - L / 8 * (v 1 + v 3)) +
    L / 4 * (v 3 - v 1) * ξ + (3 * ((v 0 - v 2) / 4 + L / 8 * (v 1 + v 3))) * ξ ^ 2) ξ := by
  rw [show hermite L v = _ from funext (hermite_eq L v)]
  have hlinear := ((hasDerivAt_id' ξ).const_mul (3 / 4 * (v 2 - v 0) - L / 8 * (v 1 + v 3))).const_add
    ((v 0 + v 2) / 2 + L / 8 * (v 1 - v 3))
  have hsquare := (hasDerivAt_pow 2 ξ).const_mul (L / 8 * (v 3 - v 1))
  have hcube := (hasDerivAt_pow 3 ξ).const_mul ((v 0 - v 2) / 4 + L / 8 * (v 1 + v 3))
  refine ((hlinear.add hsquare).add hcube).congr_deriv ?_
  push_cast
  ring

/-- The slopes at the ends are the rotations, in terms of half of the length. -/
theorem hasDerivAt_hermite_ends : HasDerivAt (hermite L v) (L / 2 * v 1) (-1) ∧
    HasDerivAt (hermite L v) (L / 2 * v 3) 1 := by
  constructor
  · exact (hasDerivAt_hermite L v (-1)).congr_deriv (by ring)
  · exact (hasDerivAt_hermite L v 1).congr_deriv (by ring)

end Cubics

section Spans

/-- The reference point at a position on the line. -/
noncomputable def referenceAt (e : Element ℝ) (x : ℝ) : ℝ :=
  (2 * x - e.nodes.entry 0 0 - e.nodes.entry 1 0) / (e.nodes.entry 1 0 - e.nodes.entry 0 0)

/-- Deflections and rotations at the ends of an element, in turn. -/
noncomputable def endValues (e : Element ℝ) (u : Array ℝ) (p : ℕ) : ℝ :=
  (e.getDof.map fun d => u.getD d.toNat 0).getD p 0

/-- The deflection of a beam at a position on the line. -/
noncomputable def deflection (e : Element ℝ) (u : Array ℝ) (x : ℝ) : ℝ :=
  hermite |e.nodes.entry 1 0 - e.nodes.entry 0 0| (e.endValues u) (e.referenceAt x)

theorem abs_eq_direction_mul (e : Element ℝ) : |e.nodes.entry 1 0 - e.nodes.entry 0 0| =
    e.direction * (e.nodes.entry 1 0 - e.nodes.entry 0 0) := by
  unfold direction
  split_ifs with h
  · rw [abs_of_pos (sub_pos.mpr h), one_mul]
  · rw [abs_of_nonpos (sub_nonpos.mpr (not_lt.mp h)), neg_one_mul]

namespace IsSpan

variable (he : e.IsSpan)
include he

theorem dofs_eq : e.dofs = 4 := by
  rw [dofs, he.family_eq, he.dofsPerNode_eq]
  rfl

theorem position_eq (ξ : ℝ) : e.position [ξ] = .ok [(e.nodes.entry 0 0 + e.nodes.entry 1 0) / 2 +
    (e.nodes.entry 1 0 - e.nodes.entry 0 0) / 2 * ξ] := by
  have hbasis : e.family.geometryBasis e.nodes [ξ] = .ok (Basis.line2 ξ) := by
    rw [he.family_eq]
    rfl
  have htrue : e.trueNodes = e.nodes := by rw [trueNodes, he.side_eq]
  have hrows : (Basis.line2 ξ).length = e.trueNodes.rows := by
    rw [htrue, e.rows_nodes, he.family_eq]
    rfl
  rw [position_eq_ok hbasis hrows, htrue, he.cols_eq, List.range_one, List.map_cons, List.map_nil]
  simp only [Basis.line2, blend_cons, blend_nil]
  norm_num
  ring

theorem position_referenceAt (x : ℝ) : e.position [e.referenceAt x] = .ok [x] := by
  have hne : e.nodes.entry 1 0 - e.nodes.entry 0 0 ≠ 0 := sub_ne_zero.mpr he.ends_ne.symm
  rw [he.position_eq, referenceAt]
  congr 2
  field_simp
  ring

theorem evaluate_eq (hu : ∀ d ∈ e.getDof, 0 ≤ d ∧ d < u.size) (ξ : ℝ) : e.evaluate u [ξ] =
    .ok [hermite |e.nodes.entry 1 0 - e.nodes.entry 0 0| (e.endValues u) ξ] := by
  have hbasis : e.family.basis e.nodes [ξ] =
      .ok (Basis.beam2 |e.nodes.entry 1 0 - e.nodes.entry 0 0| ξ) := by
    rw [he.family_eq, Family.basis, beamLength_eq_abs he.family_eq he.cols_eq]
    rfl
  have hexpands : e.expands (Basis.beam2 |e.nodes.entry 1 0 - e.nodes.entry 0 0| ξ).length = false := by
    have hlength : (Basis.beam2 |e.nodes.entry 1 0 - e.nodes.entry 0 0| ξ).length = e.dofs := he.dofs_eq.symm
    simp [expands, hlength]
  have hcols : (DenseMatrix.ofRows (Basis.beam2 |e.nodes.entry 1 0 - e.nodes.entry 0 0| ξ).length
      [Basis.beam2 |e.nodes.entry 1 0 - e.nodes.entry 0 0| ξ]).cols =
        (e.getDof.map fun d => u.getD d.toNat 0).length := by
    rw [List.length_map, length_getDof, he.dofs_eq]
    rfl
  rw [evaluate, shape, hbasis, ok_bind]
  simp only [hexpands, Bool.false_eq_true, if_false, pure_bind, mapM_getDof hu, hcols, if_true, mulVec_row]
  rfl

/-- The field of a beam. -/
theorem isField_deflection (hu : ∀ d ∈ e.getDof, 0 ≤ d ∧ d < u.size) : e.IsField u (e.deflection u) := by
  intro ξ
  have hne : e.nodes.entry 1 0 - e.nodes.entry 0 0 ≠ 0 := sub_ne_zero.mpr he.ends_ne.symm
  refine ⟨_, he.position_eq ξ, ?_⟩
  rw [he.evaluate_eq hu, deflection, referenceAt]
  congr 3
  field_simp
  ring

/-- Every position belongs to a reference point, so a beam has one field only. -/
theorem isField_unique (hw : e.IsField u w) (hw' : e.IsField u w') : w = w' := by
  funext x
  obtain ⟨y, hy, hvalue⟩ := hw (e.referenceAt x)
  obtain ⟨y', hy', hvalue'⟩ := hw' (e.referenceAt x)
  rw [he.position_referenceAt] at hy hy'
  simp only [Except.ok.injEq, List.cons.injEq, and_true] at hy hy'
  subst hy hy'
  simpa using hvalue.symm.trans hvalue'

theorem referenceAt_ends : e.referenceAt (e.nodes.entry 0 0) = -1 ∧ e.referenceAt (e.nodes.entry 1 0) = 1 := by
  have hne : e.nodes.entry 1 0 - e.nodes.entry 0 0 ≠ 0 := sub_ne_zero.mpr he.ends_ne.symm
  constructor <;>
  · rw [referenceAt, div_eq_iff hne]
    ring

/-- At both ends a beam has the deflection of the node and, up to the direction, its rotation as the slope. -/
theorem deflection_ends {p : ℕ} (hp : p < 2) :
    e.deflection u (e.nodes.entry p 0) = component u 2 (e.nodeIds.getD p 0) 0 ∧
      HasDerivAt (e.deflection u) (e.direction * component u 2 (e.nodeIds.getD p 0) 1) (e.nodes.entry p 0) := by
  have hvalues (i : ℕ) (hi : i < 2) : e.endValues u (p * 2 + i) = component u 2 (e.nodeIds.getD p 0) i := by
    have hcount : p < e.family.nodeCount := by rwa [he.family_eq]
    have hget := getD_map_getDof (u := u) hcount (he.dofsPerNode_eq.symm ▸ hi)
    rwa [he.dofsPerNode_eq] at hget
  have hslope (x : ℝ) : HasDerivAt e.referenceAt (2 / (e.nodes.entry 1 0 - e.nodes.entry 0 0)) x := by
    have hlinear := (((hasDerivAt_id' x).const_mul 2).sub_const (e.nodes.entry 0 0)).sub_const (e.nodes.entry 1 0)
    rw [mul_one] at hlinear
    exact hlinear.div_const _
  have hscale (r : ℝ) : |e.nodes.entry 1 0 - e.nodes.entry 0 0| / 2 * r *
      (2 / (e.nodes.entry 1 0 - e.nodes.entry 0 0)) = e.direction * r := by
    have hne : e.nodes.entry 1 0 - e.nodes.entry 0 0 ≠ 0 := sub_ne_zero.mpr he.ends_ne.symm
    rw [abs_eq_direction_mul]
    field_simp
  obtain ⟨hleft, hright⟩ := hermite_ends |e.nodes.entry 1 0 - e.nodes.entry 0 0| (e.endValues u)
  obtain ⟨hleft', hright'⟩ := hasDerivAt_hermite_ends |e.nodes.entry 1 0 - e.nodes.entry 0 0| (e.endValues u)
  rw [← hvalues 0 (by decide), ← hvalues 1 (by decide)]
  obtain ⟨hfirst, hsecond⟩ := he.referenceAt_ends
  obtain rfl | rfl : p = 0 ∨ p = 1 := by omega
  · rw [← hfirst] at hleft'
    exact ⟨by rw [deflection, hfirst, hleft], hscale _ ▸ hleft'.comp _ (hslope _)⟩
  · rw [← hsecond] at hright'
    exact ⟨by rw [deflection, hsecond, hright], hscale _ ▸ hright'.comp _ (hslope _)⟩

end IsSpan

end Spans

end Element
end WeakForm

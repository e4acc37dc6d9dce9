import Mathlib.Analysis.Calculus.Deriv.Comp
import Mathlib.Analysis.Calculus.Deriv.Pow
import WeakForm.Proofs.RealScalar
import WeakForm.Proofs.Element.Deflections
import WeakForm.Proofs.Element.Fields
import WeakForm.Proofs.Element.Traces

/-!
# Tables of basis functions

Basis functions and their derivatives come from tables of formulas that do not refer to each other. For
every Lagrange family the second table holds the derivatives of the first, the functions are one at their
own node, zero at the other ones and one in total, and on a side they are those of the family of the side.
The table of a beam holds second derivatives along the beam, and its functions are dual to the values and
the slopes at both ends.
-/

namespace WeakForm

open Finset

/-- The numerals of the tables. -/
theorem table_numerals : (0.5 : ℝ) = 1 / 2 ∧ (0.25 : ℝ) = 1 / 4 ∧ (2.0 : ℝ) = 2 ∧ (4.0 : ℝ) = 4 := by
  norm_num

/-- A polynomial of degree two has the slope of its linear part. Its leading coefficient is a second
difference, so it need not be known. -/
theorem hasDerivAt_of_quadratic {φ : ℝ → ℝ} {d x : ℝ}
    (h : ∀ t, φ t = φ x + d * (t - x) + (φ (x + 1) + φ (x - 1) - 2 * φ x) / 2 * (t - x) ^ 2) :
    HasDerivAt φ d x := by
  have hway := (hasDerivAt_id' x).sub_const x
  have hlinear := (hway.const_mul d).const_add (φ x)
  have hsquare := (hway.fun_pow 2).const_mul ((φ (x + 1) + φ (x - 1) - 2 * φ x) / 2)
  rw [funext h]
  refine (hlinear.fun_add hsquare).congr_deriv ?_
  simp

section Blends

theorem blend_one (weights : List ℝ) : blend weights 1 = weights.sum := by
  induction weights with
  | nil => simp
  | cons w weights ih =>
    rw [blend_cons, List.sum_cons, ← ih, Pi.one_apply, mul_one]
    rfl

/-- The weight of one item. -/
theorem blend_indicator (weights : List ℝ) (p : ℕ) :
    (blend weights fun q => if q = p then 1 else 0) = weights.getD p 0 := by
  simp only [blend, mul_ite, mul_one, mul_zero, sum_ite_eq', mem_range]
  split_ifs with hp
  · rfl
  · exact (List.getD_eq_default _ _ (not_lt.mp hp)).symm

end Blends

namespace Family

variable {f g : Family} {nodes : DenseMatrix ℝ} {ξ n : List ℝ} {p q : ℕ}

/-- The value of basis function `p` at a point. -/
noncomputable def basisValue (f : Family) (nodes : DenseMatrix ℝ) (p : ℕ) (ξ : List ℝ) : ℝ :=
  ((f.basis nodes ξ).toOption.getD []).getD p 0

theorem basisValue_eq (h : f.basis nodes ξ = .ok n) (p : ℕ) : f.basisValue nodes p ξ = n.getD p 0 := by
  rw [basisValue, h]
  rfl

/-- The functions of a family are one at one node each, and what is tabulated as their derivatives is so. -/
structure HasNodalTable (f : Family) (nodes : DenseMatrix ℝ) : Prop where
  sum_eq_one : ∀ ξ : List ℝ, f.dim ≤ ξ.length →
    ∃ n, f.basis nodes ξ = .ok n ∧ n.length = f.nodeCount ∧ n.sum = 1
  hasDerivAt : ∀ ξ : List ℝ, f.dim ≤ ξ.length →
    ∃ G, f.localGradient ξ = .ok G ∧ G.rows = f.dim ∧ G.cols = f.nodeCount ∧
      ∀ i < f.dim, ∀ p < f.nodeCount,
        HasDerivAt (fun t => f.basisValue nodes p (ξ.set i t)) (G.entry i p) (ξ.getD i 0)
  nodal : ∀ p < f.nodeCount, ∀ q < f.nodeCount,
    f.basisValue nodes p (f.referenceNodes.getD q []) = if p = q then 1 else 0
  /-- The reference element of the side is placed affinely on the side, node by node. -/
  side : ∃ g, f.sideFamily = some g ∧ ∀ places ∈ f.sides,
    (∀ q < g.nodeCount, f.sidePoint places (g.reference q 0) = f.referenceNodes.getD (places.getD q 0) []) ∧
    ∀ η : List ℝ, g.dim ≤ η.length →
      (∀ sideNodes, ∀ q < g.nodeCount, f.basisValue nodes (places.getD q 0) (f.sidePoint places (η.getD 0 0)) =
        g.basisValue sideNodes q η) ∧
      ∀ p < f.nodeCount, p ∉ places → f.basisValue nodes p (f.sidePoint places (η.getD 0 0)) = 0

section Sides

/-- The values of a family of sides at a parameter. -/
theorem IsSide.basisValue_eq (hg : g.IsSide) (nodes : DenseMatrix ℝ) {η : List ℝ} (hη : g.dim ≤ η.length) (q : ℕ) :
    g.basisValue nodes q η = (g.sideBasis (η.getD 0 0)).getD q 0 := by
  rcases hg.cases with rfl | rfl | rfl
  · rfl
  all_goals
    obtain ⟨x, η, rfl⟩ := List.exists_cons_of_length_pos hη
    rfl

end Sides

namespace IsLagrange

variable (hf : f.IsLagrange)
include hf

theorem hasDerivAt_basisValue (nodes : DenseMatrix ℝ) (hξ : f.dim ≤ ξ.length) {rows : List (List ℝ)}
    (hrows : f.gradientRows ξ = .ok rows) {i : ℕ} (hi : i < f.dim) (hp : p < f.nodeCount) :
    HasDerivAt (fun t => f.basisValue nodes p (ξ.set i t)) ((rows.getD i []).getD p 0) (ξ.getD i 0) := by
  apply hasDerivAt_of_quadratic
  intro t
  rcases hf.cases_of_length hξ with ⟨rfl | rfl, x, rest, rfl⟩ | ⟨rfl | rfl | rfl, x, y, rest, rfl⟩ <;>
    cases hrows <;> simp only [dim] at hi <;> simp only [nodeCount] at hp <;> interval_cases i <;>
    interval_cases p
  all_goals
    simp only [basisValue, basis, Except.toOption, Basis.line2, Basis.line2Gradient, Basis.line3,
      Basis.line3Gradient, Basis.quad4, Basis.quad4Gradient, Basis.tri3, Basis.tri3Gradient, Basis.tri6,
      Basis.tri6Gradient, Option.getD_some, List.set_cons_zero, List.set_cons_succ, List.getD_cons_zero,
      List.getD_cons_succ, table_numerals]
    ring

theorem basisValue_referenceNodes (nodes : DenseMatrix ℝ) (hp : p < f.nodeCount) (hq : q < f.nodeCount) :
    f.basisValue nodes p (f.referenceNodes.getD q []) = if p = q then 1 else 0 := by
  rcases hf.cases with rfl | rfl | rfl | rfl | rfl <;> simp only [nodeCount] at hp hq <;>
    interval_cases q <;> interval_cases p
  all_goals
    simp only [basisValue, basis, Except.toOption, referenceNodes, Basis.line2, Basis.line3, Basis.quad4,
      Basis.tri3, Basis.tri6, Option.getD_some, List.getD_cons_zero, List.getD_cons_succ, table_numerals]
    norm_num

/-- The nodes of a side are the images of those of its reference element. -/
theorem sidePoint_reference (hg : f.sideFamily = some g) {places : List ℕ} (hplaces : places ∈ f.sides)
    (hq : q < g.nodeCount) :
    f.sidePoint places (g.reference q 0) = f.referenceNodes.getD (places.getD q 0) [] := by
  rcases hf.cases with rfl | rfl | rfl | rfl | rfl <;> cases hg <;>
    simp only [sides, List.mem_cons, List.not_mem_nil, or_false] at hplaces <;> simp only [nodeCount] at hq <;>
    rcases hplaces with rfl | rfl | rfl | rfl <;> interval_cases q
  all_goals norm_num [sidePoint, reference, referenceNodes, dim, List.range_succ]

/-- On a side the functions of its nodes are those of the side, and the other ones vanish. -/
theorem basisValue_sidePoint (hg : f.sideFamily = some g) {places : List ℕ} (hplaces : places ∈ f.sides)
    (nodes : DenseMatrix ℝ) (x : ℝ) :
    (∀ q < g.nodeCount, f.basisValue nodes (places.getD q 0) (f.sidePoint places x) = (g.sideBasis x).getD q 0) ∧
      ∀ p ∉ places, f.basisValue nodes p (f.sidePoint places x) = 0 := by
  obtain ⟨n, hn, -, htrace⟩ := hf.basis_sidePoint hg hplaces nodes x
  have hlength := length_of_mem_sides hg hplaces
  obtain ⟨g', hg', hside⟩ := hf.exists_sideFamily
  obtain rfl : g' = g := Option.some.inj (hg'.symm.trans hg)
  have hcount := (hside.basis_eq nodes x).2.2
  have hvalue (p : ℕ) : f.basisValue nodes p (f.sidePoint places x) =
      blend (g'.sideBasis x) fun q => if places.getD q 0 = p then 1 else 0 := by
    rw [basisValue_eq hn, ← blend_indicator, htrace]
  constructor
  · intro q hq
    rw [hvalue, ← blend_indicator]
    apply blend_congr
    intro r hr
    have hr' : r < places.length := by omega
    have hq' : q < places.length := by omega
    simp only [List.getD_eq_getElem _ _ hr', List.getD_eq_getElem _ _ hq',
      (lt_of_mem_sides hplaces).1.getElem_inj_iff]
  · intro p hp
    rw [hvalue, blend_congr (g := fun _ => 0) ?_]
    · simp [blend]
    · intro r hr
      have hr' : r < places.length := by omega
      refine if_neg fun heq => hp ?_
      rw [← heq, List.getD_eq_getElem _ _ hr']
      exact List.getElem_mem hr'

theorem hasNodalTable (nodes : DenseMatrix ℝ) : f.HasNodalTable nodes where
  sum_eq_one ξ hξ := by
    obtain ⟨n, hn⟩ := hf.exists_basis_of_length hξ nodes
    obtain ⟨hlength, hone⟩ := hf.basis_eq_ok hn
    exact ⟨n, hn, hlength, blend_one n ▸ hone⟩
  hasDerivAt ξ hξ := by
    obtain ⟨rows, hrows⟩ := hf.exists_gradientRows_of_length hξ
    have hlength := length_gradientRows hrows
    refine ⟨.ofRows f.nodeCount rows, localGradient_eq hrows, hlength, rfl, fun i hi p hp => ?_⟩
    rw [DenseMatrix.entry_ofRows (hlength ▸ hi) hp]
    exact hf.hasDerivAt_basisValue nodes hξ hrows hi hp
  nodal p hp q hq := hf.basisValue_referenceNodes nodes hp hq
  side := by
    obtain ⟨g, hg, hside⟩ := hf.exists_sideFamily
    refine ⟨g, hg, fun places hplaces => ⟨fun q hq => hf.sidePoint_reference hg hplaces hq, fun η hη => ?_⟩⟩
    obtain ⟨hown, hother⟩ := hf.basisValue_sidePoint hg hplaces nodes (η.getD 0 0)
    refine ⟨fun sideNodes q hq => ?_, fun p _ hp => hother p hp⟩
    rw [hside.basisValue_eq sideNodes hη, hown q hq]

end IsLagrange

section Beams

open Element

/-- The functions of a beam of length `L` are functions `φ` of the distance from its first end, which are dual to
the values and the slopes at both ends. What is tabulated are their second derivatives. -/
structure IsHermiteTable (nodes : DenseMatrix ℝ) (L : ℝ) (φ : ℕ → ℝ → ℝ) : Prop where
  basis : ∀ x : ℝ, ∃ n, beam2.basis nodes [x] = .ok n ∧ n.length = 4 ∧
    ∀ p, φ p (L * (1 + x) / 2) = n.getD p 0
  secondDerivative : ∀ x : ℝ, ∃ b, beam2.gradient nodes [x] = .ok b ∧ b.rows = 1 ∧ b.cols = 4 ∧
    ∀ p < 4, ∃ slope : ℝ → ℝ, (∀ s, HasDerivAt (φ p) (slope s) s) ∧
      HasDerivAt slope (b.entry 0 p) (L * (1 + x) / 2)
  start : ∀ p < 4, (φ p 0 = if p = 0 then 1 else 0) ∧ HasDerivAt (φ p) (if p = 1 then 1 else 0) 0
  finish : ∀ p < 4, (φ p L = if p = 2 then 1 else 0) ∧ HasDerivAt (φ p) (if p = 3 then 1 else 0) L

variable {L : ℝ}

/-- The reference coordinate at a distance from the first end. -/
theorem hasDerivAt_beamCoordinate (L s : ℝ) : HasDerivAt (fun s : ℝ => 2 * s / L - 1) (2 / L) s := by
  have hscaled := ((hasDerivAt_id' s).const_mul 2).div_const L
  rw [mul_one] at hscaled
  exact hscaled.sub_const 1

/-- Twice along the beam, the derivative of a combination of its functions is the curvature. -/
theorem hasDerivAt_hermite_along (hL : 0 < L) (v : ℕ → ℝ) (x : ℝ) : ∃ slope : ℝ → ℝ,
    (∀ s, HasDerivAt (fun s => hermite L v (2 * s / L - 1)) (slope s) s) ∧
      HasDerivAt slope (curvature L v x) (L * (1 + x) / 2) := by
  refine ⟨_, fun s => (hasDerivAt_hermite L v _).comp s (hasDerivAt_beamCoordinate L s), ?_⟩
  have hway := hasDerivAt_beamCoordinate L (L * (1 + x) / 2)
  have hlinear := (hway.const_mul (L / 4 * (v 3 - v 1))).const_add (3 / 4 * (v 2 - v 0) - L / 8 * (v 1 + v 3))
  have hsquare := (hway.fun_pow 2).const_mul (3 * ((v 0 - v 2) / 4 + L / 8 * (v 1 + v 3)))
  refine ((hlinear.fun_add hsquare).mul_const (2 / L)).congr_deriv ?_
  rw [curvature]
  field_simp
  ring

theorem isHermiteTable {nodes : DenseMatrix ℝ} (hL : 0 < L) (hlength : beamLength nodes = .ok L) :
    IsHermiteTable nodes L fun p s => hermite L (fun q => if q = p then 1 else 0) (2 * s / L - 1) where
  basis x := by
    have hpoint : 2 * (L * (1 + x) / 2) / L - 1 = x := by field_simp; ring
    refine ⟨Basis.beam2 L x, by rw [Family.basis, hlength]; rfl, rfl, fun p => ?_⟩
    rw [hpoint]
    exact blend_indicator _ p
  secondDerivative x := by
    refine ⟨.ofRows 4 (Basis.beam2Curvature L x), by rw [gradient, hlength]; rfl, rfl, rfl, fun p hp => ?_⟩
    have hentry : (DenseMatrix.ofRows 4 (Basis.beam2Curvature L x)).entry 0 p =
        curvature L (fun q => if q = p then 1 else 0) x := by
      have hcols : (DenseMatrix.ofRows 4 (Basis.beam2Curvature L x)).cols = 4 := rfl
      rw [← IsBeam.times_curvature, DenseMatrix.times, hcols]
      simp [hp]
    rw [hentry]
    exact hasDerivAt_hermite_along hL _ x
  start p hp := by
    have hpoint : 2 * 0 / L - 1 = -1 := by ring
    have hslope : HasDerivAt (hermite L fun q => if q = p then 1 else 0) _ (2 * 0 / L - 1) :=
      hpoint ▸ (hasDerivAt_hermite_ends L _).1
    constructor
    · rw [hpoint, (hermite_ends L _).1]
      simp only [eq_comm]
    · refine (hslope.comp 0 (hasDerivAt_beamCoordinate L 0)).congr_deriv ?_
      field_simp
      simp only [eq_comm]
  finish p hp := by
    have hpoint : 2 * L / L - 1 = 1 := by field_simp; ring
    have hslope : HasDerivAt (hermite L fun q => if q = p then 1 else 0) _ (2 * L / L - 1) :=
      hpoint ▸ (hasDerivAt_hermite_ends L _).2
    constructor
    · rw [hpoint, (hermite_ends L _).2]
      simp only [eq_comm]
    · refine (hslope.comp L (hasDerivAt_beamCoordinate L L)).congr_deriv ?_
      field_simp
      simp only [eq_comm]

end Beams

/-- The tables of all families are consistent, for Lagrange families with any nodes and for beams of any length. -/
theorem tables_consistent (nodes : DenseMatrix ℝ) : (∀ f : Family, f.IsLagrange → f.HasNodalTable nodes) ∧
    ∀ L, 0 < L → beamLength nodes = .ok L → ∃ φ, IsHermiteTable nodes L φ :=
  ⟨fun _ hf => hf.hasNodalTable nodes, fun _ hL hlength => ⟨_, isHermiteTable hL hlength⟩⟩

/-- The tables of a triangle with mid-side nodes and of a beam in the plane whose sides are 3 and 4. -/
theorem tables_consistent_triangle_beam : let nodes : DenseMatrix ℝ := .ofRows 2 [[0, 0], [3, 4]]
    tri6.HasNodalTable nodes ∧ beamLength nodes = .ok 5 ∧ ∃ φ, IsHermiteTable nodes 5 φ := by
  have hlength : beamLength (.ofRows 2 [[0, 0], [3, 4]] : DenseMatrix ℝ) = .ok 5 := by
    have hsum : norm [(3 : ℝ) - 0, 4 - 0] = 5 := by
      change Real.sqrt (0 + (3 - 0) * (3 - 0) + (4 - 0) * (4 - 0)) = 5
      rw [show (0 + (3 - 0) * (3 - 0) + (4 - 0) * (4 - 0) : ℝ) = 5 * 5 by norm_num]
      exact Real.sqrt_mul_self (by norm_num)
    exact congrArg Except.ok hsum
  exact ⟨(tables_consistent _).1 tri6 (by decide), hlength, (tables_consistent _).2 5 (by norm_num) hlength⟩

end Family
end WeakForm

import WeakForm.Proofs.RealScalar
import WeakForm.Proofs.Element.Gradients
import WeakForm.Proofs.Element.Placements

/-!
# Areas

The signed area of a plane element is that of the polygon of its corners, positive if they run counter
clockwise. The Jacobian determinant of a quadrilateral is a mean of the signed areas of the triangles at
its corners, so at a point of the rule it depends on the nearest corner and on the opposite one only.
-/

namespace WeakForm

open Finset DenseMatrix

/-- The length or the area of the reference element. -/
noncomputable def Family.referenceMeasure : Family → ℝ
  | point => 1
  | line2 | line3 | beam2 => 2
  | quad4 => 4
  | tri3 | tri6 => 1 / 2

/-- The rule of a quadrilateral. Its points are nearest to the corners 0, 1, 3 and 2. -/
theorem Family.familyRule_quad4 : Kernel.familyRule .quad4 =
    some [⟨[-(√3)⁻¹, -(√3)⁻¹], 1⟩, ⟨[(√3)⁻¹, -(√3)⁻¹], 1⟩, ⟨[-(√3)⁻¹, (√3)⁻¹], 1⟩,
      ⟨[(√3)⁻¹, (√3)⁻¹], 1⟩] := by
  have hpoint : (1 : ℝ) / Scalar.sqrt 3.0 = (√3)⁻¹ := by
    change 1 / √3.0 = (√3)⁻¹
    norm_num
  simp [Kernel.familyRule, rule, Quadrature.rule?, Quadrature.gaussLine, Quadrature.tensorProduct_eq,
    Quadrature.tuples, RuleKind.dim, hpoint]

/-- The three points of the rule of a triangle. -/
theorem Family.familyRule_tri3 : Kernel.familyRule .tri3 =
    some [⟨[1 / 6, 1 / 6], (1 / 6 : ℝ)⟩, ⟨[2 / 3, 1 / 6], 1 / 6⟩, ⟨[1 / 6, 2 / 3], 1 / 6⟩] := by
  norm_num [Kernel.familyRule, rule, Quadrature.rule?, Quadrature.gaussTriangle]

namespace Element

variable {e : Element ℝ} {x y : ℝ}

/-- Twice the signed area of the triangle of the origin and two nodes. -/
noncomputable def cross (e : Element ℝ) (p q : ℕ) : ℝ :=
  e.nodes.entry p 0 * e.nodes.entry q 1 - e.nodes.entry q 0 * e.nodes.entry p 1

/-- The signed area within the sides, taken from end to end. -/
noncomputable def signedArea (e : Element ℝ) : ℝ :=
  1 / 2 * (e.family.sides.map fun places => e.cross (places.getD 0 0) (places.getD 1 0)).sum

/-- An affine map takes the reference element to one whose area is greater by the determinant of its
directions. -/
theorem IsAffine.signedArea_eq {origin : ℕ → ℝ} {directions : DenseMatrix ℝ}
    (h : e.IsAffine origin directions) (hf : e.family = .quad4 ∨ e.family = .tri3 ∨ e.family = .tri6)
    (hc : e.nodes.cols = 2) : e.signedArea = e.family.referenceMeasure * directions.det := by
  have hrows : directions.rows = 2 := by
    rw [h.rows_eq]
    rcases hf with hf | hf | hf <;> rw [hf] <;> rfl
  have hentry {p : ℕ} (hp : p < e.family.nodeCount) {k : ℕ} (hk : k < 2) := h.entry_eq p hp k (hc ▸ hk)
  rw [det_two hrows (h.cols_eq.trans hc), signedArea]
  rcases hf with hf | hf | hf
  all_goals
    rw [hf] at hentry ⊢
    simp only [Family.nodeCount, Family.dim, sum_range_succ, sum_range_zero, zero_add] at hentry
    norm_num [Family.sides, cross, hentry, Family.reference, Family.referenceNodes,
      Family.referenceMeasure]
    ring

/-- The signed area of the triangle of corner `i` of a quadrilateral and its two neighbours. -/
noncomputable def cornerArea (e : Element ℝ) (i : ℕ) : ℝ :=
  1 / 2 * (e.cross i ((i + 1) % 4) + e.cross ((i + 1) % 4) ((i + 3) % 4) + e.cross ((i + 3) % 4) i)

/-- Two opposite corners share the area of a quadrilateral. -/
theorem signedArea_quad4 (hf : e.family = .quad4) : e.signedArea = e.cornerArea 0 + e.cornerArea 2 ∧
    e.signedArea = e.cornerArea 1 + e.cornerArea 3 := by
  simp only [signedArea, hf, Family.sides, cornerArea, cross, List.map_cons, List.map_nil, List.sum_cons,
    List.sum_nil, List.getD_cons_zero, List.getD_cons_succ]
  norm_num
  constructor <;> ring

/-- The determinant at a corner is half the area there, and in between it is the mean by the basis. -/
theorem det_quad4 (hc : e.nodes.cols = 2) (x y : ℝ) :
    ((ofRows 4 (Basis.quad4Gradient x y)).mul e.nodes).det =
      ((1 - x) * (1 - y) * e.cornerArea 0 + (1 + x) * (1 - y) * e.cornerArea 1 +
        (1 + x) * (1 + y) * e.cornerArea 2 + (1 - x) * (1 + y) * e.cornerArea 3) / 8 := by
  have hentry {i : ℕ} (hi : i < 2) (k : ℕ) :
      ((ofRows 4 (Basis.quad4Gradient x y)).mul e.nodes).entry i k =
        ∑ p ∈ range 4, ((Basis.quad4Gradient x y).getD i []).getD p 0 * e.nodes.entry p k :=
    entry_ofRows_mul hi e.nodes k
  rw [det_two (A := (ofRows 4 (Basis.quad4Gradient x y)).mul e.nodes) rfl hc, hentry (by decide),
    hentry (by decide), hentry (by decide), hentry (by decide)]
  norm_num [sum_range_succ, Basis.quad4Gradient, cornerArea, cross]
  ring

/-- The weighted areas that have to be positive: that of a corner and that of the opposite one. -/
noncomputable def cornerMeasure (e : Element ℝ) (i : ℕ) : ℝ :=
  (2 + √3) * e.cornerArea i + e.cornerArea ((i + 2) % 4)

theorem exists_detJ_quad4_iff (hf : e.family = .quad4) (hc : e.nodes.cols = 2) (x y : ℝ) :
    (∃ d, e.detJ [x, y] = .ok d) ↔
      0 < (1 - x) * (1 - y) * e.cornerArea 0 + (1 + x) * (1 - y) * e.cornerArea 1 +
        (1 + x) * (1 + y) * e.cornerArea 2 + (1 - x) * (1 + y) * e.cornerArea 3 := by
  simp only [detJ_eq_ok (jacobian_quad4 hf x y), measure_quad4 hc, det_quad4 hc, exists_and_left,
    exists_eq', and_true]
  constructor
  · exact fun h => by linarith
  · exact fun h => by linarith

/-- A plane quadrilateral is regular exactly if at every corner its area, with a greater weight, and the
area at the opposite corner have a positive sum. -/
theorem isRegular_quad4_iff (hf : e.family = .quad4) (hc : e.nodes.cols = 2) :
    e.IsRegular ↔ ∀ i < 4, 0 < e.cornerMeasure i := by
  have hregular : e.IsRegular ↔ ∀ ξ ∈ [[-(√3)⁻¹, -(√3)⁻¹], [(√3)⁻¹, -(√3)⁻¹], [-(√3)⁻¹, (√3)⁻¹],
      [(√3)⁻¹, (√3)⁻¹]], ∃ d, e.detJ ξ = .ok d := by
    simp [IsRegular, Kernel.rule, hf, Family.familyRule_quad4]
  have hroot : √3 * √3 = 3 := Real.mul_self_sqrt (by norm_num)
  obtain ⟨g, hg⟩ : ∃ g, g = (√3)⁻¹ := ⟨_, rfl⟩
  have hproduct : g * √3 = 1 := hg ▸ inv_mul_cancel₀ (by positivity)
  have hless : 0 < 1 - g := by nlinarith [Real.sqrt_nonneg 3]
  have hratio : (1 - g) * (2 + √3) = 1 + g := by linear_combination g * hroot - (1 + √3) * hproduct
  obtain ⟨harea, harea'⟩ := signedArea_quad4 hf
  -- the sum at each point is a positive multiple of the one at the nearest corner
  have hcorner {c : ℝ} {i : ℕ} (h : c = 2 * (1 - g) * e.cornerMeasure i) :
      0 < c ↔ 0 < e.cornerMeasure i := by
    rw [h, mul_pos_iff_of_pos_left (by linarith)]
  have hfour : (∀ i < 4, 0 < e.cornerMeasure i) ↔ 0 < e.cornerMeasure 0 ∧ 0 < e.cornerMeasure 1 ∧
      0 < e.cornerMeasure 3 ∧ 0 < e.cornerMeasure 2 := by
    constructor
    · exact fun h => ⟨h 0 (by decide), h 1 (by decide), h 3 (by decide), h 2 (by decide)⟩
    · rintro ⟨h₀, h₁, h₃, h₂⟩ i hi
      interval_cases i <;> assumption
  rw [hregular, ← hg, hfour]
  simp only [List.forall_mem_cons, exists_detJ_quad4_iff hf hc, List.not_mem_nil, false_implies,
    implies_true, and_true]
  refine and_congr (hcorner ?_) (and_congr (hcorner ?_) (and_congr (hcorner ?_) (hcorner ?_))) <;>
    simp only [cornerMeasure, Nat.reduceAdd, Nat.reduceMod]
  · linear_combination (1 - g * g) * (harea - harea') - 2 * e.cornerArea 0 * hratio
  · linear_combination (1 - g * g) * (harea' - harea) - 2 * e.cornerArea 1 * hratio
  · linear_combination (1 - g * g) * (harea' - harea) - 2 * e.cornerArea 3 * hratio
  · linear_combination (1 - g * g) * (harea - harea') - 2 * e.cornerArea 2 * hratio

/-- A quadrilateral that encloses no area, or runs around it clockwise, is not regular. -/
theorem signedArea_pos (hf : e.family = .quad4) (h : ∀ i < 4, 0 < e.cornerMeasure i) :
    0 < e.signedArea := by
  have hsum : e.cornerMeasure 0 + e.cornerMeasure 2 = (3 + √3) * e.signedArea := by
    rw [(signedArea_quad4 hf).1, cornerMeasure, cornerMeasure]
    ring
  have hpos : 0 < (3 + √3) * e.signedArea := hsum ▸ add_pos (h 0 (by decide)) (h 2 (by decide))
  exact pos_of_mul_pos_right hpos (by positivity)

end Element
end WeakForm

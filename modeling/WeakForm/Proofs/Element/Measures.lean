import WeakForm.Proofs.RealScalar
import WeakForm.Proofs.Element.Areas
import WeakForm.Proofs.Element.SideCurves
import WeakForm.Proofs.Kernel.Mass

/-!
# Lengths and areas by quadrature

The weights in space of the points of a rule add up to the length of a line, to the area of a triangle
or quadrilateral, and to the distance between the ends of a side. The Jacobian need not be constant:
that of a quadrilateral is bilinear and that of a line with a middle node is linear, and the rules are
exact for both.
-/

namespace WeakForm

open Finset DenseMatrix

namespace Family

theorem referenceTotal_line3 (u : ℕ → ℝ) : referenceTotal .line3 u 0 = u 1 - u 0 := by
  have hpoint (x : ℝ) : (ofRows 3 ((gradientRows .line3 [x]).toOption.getD [])).times u 0 =
      (x - 1 / 2) * u 0 + (x + 1 / 2) * u 1 - 2 * x * u 2 := by
    change (ofRows 3 (Basis.line3Gradient x)).times u 0 = _
    rw [times_ofRows _ _ _ (by simp [Basis.line3Gradient])]
    norm_num [Finset.sum_range_succ, Basis.line3Gradient]
    ring
  simp only [referenceTotal, nodeCount, Kernel.familyRule, rule, Quadrature.rule?,
    Quadrature.gaussLine, Quadrature.tensorProduct_eq, Quadrature.tuples, RuleKind.dim, Option.map_some,
    Option.getD_some, List.map_cons, List.map_nil, List.flatMap_cons, List.flatMap_nil,
    List.append_nil, List.foldl_cons, List.foldl_nil, List.sum_cons, List.sum_nil, hpoint]
  norm_num
  ring

end Family

namespace Element

variable {e side : Element ℝ} {q : QuadraturePoint ℝ}

/-- The distance between the ends of a side in the plane. -/
noncomputable def sideLength (e : Element ℝ) (s : ℕ) : ℝ :=
  let ends := e.family.sides.getD s []
  √((e.nodes.entry (ends.getD 1 0) 0 - e.nodes.entry (ends.getD 0 0) 0) ^ 2 +
    (e.nodes.entry (ends.getD 1 0) 1 - e.nodes.entry (ends.getD 0 0) 1) ^ 2)

/-- The length of a line, or the area within the sides of a plane element. -/
noncomputable def extent (e : Element ℝ) : ℝ :=
  if e.family.dim = 2 then |e.signedArea| else |e.nodes.entry 1 0 - e.nodes.entry 0 0|

theorem IsRegular.totalWeight_nonneg (h : e.IsRegular) : 0 ≤ e.totalWeight := by
  refine List.sum_nonneg fun y hy => ?_
  obtain ⟨q, hq, rfl⟩ := List.mem_map.mp hy
  exact (h.weightAt_pos hq).le

/-- The weight of a point of a regular element is that of the rule times the measure of the Jacobian. -/
theorem IsRegular.weightAt_eq_measure (h : e.IsRegular) (hf : e.family.IsLagrange)
    (hq : q ∈ e.points) : e.weightAt q = q.weight * measure ((ofRows e.family.nodeCount
      ((e.family.gradientRows q.position).toOption.getD [])).mul e.nodes) := by
  obtain ⟨rows, hrows⟩ := hf.exists_gradientRows _ (List.mem_map_of_mem hq)
  have hG := Family.localGradient_eq hrows
  obtain ⟨d, hd⟩ := h.exists_detJ hq
  rw [weightAt_eq hd, ← ((detJ_eq_ok (hf.jacobian_eq hG e.rows_nodes)).mp hd).2, hrows]
  rfl

theorem totalWeight_line (h : e.IsRegular) (hf : e.family = .line2 ∨ e.family = .line3)
    (hc : e.nodes.cols = 1) : e.totalWeight = e.nodes.entry 1 0 - e.nodes.entry 0 0 := by
  have hlagrange : e.family.IsLagrange := by rcases hf with hf | hf <;> rw [hf] <;> decide
  have hdim : e.family.dim = 1 := by rcases hf with hf | hf <;> rw [hf] <;> rfl
  have htotal : e.totalWeight = e.family.referenceTotal (e.nodes.entry · 0) 0 := by
    refine congrArg List.sum (List.map_congr_left fun q hq => ?_)
    rw [h.weightAt_eq_measure hlagrange hq]
    obtain ⟨rows, hrows⟩ := hlagrange.exists_gradientRows _ (List.mem_map_of_mem hq)
    have hlength : rows.length = 1 := (Family.length_gradientRows hrows).trans hdim
    rw [hrows]
    have hsize : ((ofRows e.family.nodeCount rows).mul e.nodes).rows = 1 := hlength
    have hcols : ((ofRows e.family.nodeCount rows).mul e.nodes).cols = 1 := hc
    change q.weight * measure ((ofRows e.family.nodeCount rows).mul e.nodes) = _
    rw [measure_of_square (hsize.trans hcols.symm) (hsize.symm ▸ Nat.one_pos), det_one hsize hcols,
      entry_mul]
    rfl
  rw [htotal]
  rcases hf with hf | hf <;> rw [hf]
  · exact Family.referenceTotal_line2 _
  · exact Family.referenceTotal_line3 _

theorem totalWeight_quad4 (h : e.IsRegular) (hf : e.family = .quad4) (hc : e.nodes.cols = 2) :
    e.totalWeight = e.signedArea := by
  have hpoints : e.points = [⟨[-(√3)⁻¹, -(√3)⁻¹], 1⟩, ⟨[(√3)⁻¹, -(√3)⁻¹], 1⟩,
      ⟨[-(√3)⁻¹, (√3)⁻¹], 1⟩, ⟨[(√3)⁻¹, (√3)⁻¹], 1⟩] := by
    rw [points, Kernel.rule, hf, Family.familyRule_quad4]
    rfl
  have hweight {x y : ℝ} (hq : ⟨[x, y], 1⟩ ∈ e.points) : e.weightAt ⟨[x, y], 1⟩ =
      ((1 - x) * (1 - y) * e.cornerArea 0 + (1 + x) * (1 - y) * e.cornerArea 1 +
        (1 + x) * (1 + y) * e.cornerArea 2 + (1 - x) * (1 + y) * e.cornerArea 3) / 8 := by
    have hrows : e.family.gradientRows [x, y] = .ok (Basis.quad4Gradient x y) := by rw [hf]; rfl
    rw [h.weightAt_eq_measure (by rw [hf]; decide) hq, hrows, one_mul, hf]
    exact (measure_quad4 hc x y).trans (det_quad4 hc x y)
  obtain ⟨harea, harea'⟩ := signedArea_quad4 hf
  have hsum : e.cornerArea 0 + e.cornerArea 2 + (e.cornerArea 1 + e.cornerArea 3) =
      2 * e.signedArea := by linarith
  rw [hpoints] at hweight
  rw [totalWeight, hpoints]
  simp only [List.map_cons, List.map_nil, List.sum_cons, List.sum_nil]
  rw [hweight (by simp), hweight (by simp), hweight (by simp), hweight (by simp)]
  linear_combination hsum / 2

theorem totalWeight_tri3 (h : e.IsRegular) (hf : e.family = .tri3) (hc : e.nodes.cols = 2) :
    e.totalWeight = e.signedArea := by
  have hlagrange : e.family.IsLagrange := by rw [hf]; decide
  have haffine := IsAffine.of_tri3 hf
  have hweight : ∀ q ∈ e.points, e.weightAt q = q.weight *
      (ofFn 2 e.nodes.cols fun d k => e.nodes.entry (d + 1) k - e.nodes.entry 0 k).det := by
    intro q hq
    obtain ⟨rows, hrows⟩ := hlagrange.exists_gradientRows _ (List.mem_map_of_mem hq)
    rw [h.weightAt_eq_measure hlagrange hq, hrows]
    change q.weight * measure ((ofRows e.family.nodeCount rows).mul e.nodes) = _
    rw [haffine.mul_nodes hlagrange hrows, measure_of_square hc.symm Nat.two_pos]
  have hweights : (e.points.map QuadraturePoint.weight).sum = 1 / 2 := by
    rw [points, Kernel.rule, hf]
    norm_num [Kernel.familyRule, Family.rule, Quadrature.rule?, Quadrature.gaussTriangle]
  rw [haffine.signedArea_eq (.inr (.inl hf)) hc, totalWeight, List.map_congr_left hweight,
    List.sum_map_mul_right, hweights, hf]
  rfl

/-- The weights of all points add up to the length or the area. -/
theorem totalWeight_eq_extent (h : e.IsRegular)
    (hplace : (e.family = .quad4 ∨ e.family = .tri3) ∧ e.nodes.cols = 2 ∨
      (e.family = .line2 ∨ e.family = .line3) ∧ e.nodes.cols = 1) : e.totalWeight = e.extent := by
  have hnonneg := h.totalWeight_nonneg
  rcases hplace with ⟨hf, hc⟩ | ⟨hf, hc⟩
  · have harea : e.totalWeight = e.signedArea := by
      rcases hf with hf | hf
      · exact totalWeight_quad4 h hf hc
      · exact totalWeight_tri3 h hf hc
    have hdim : e.family.dim = 2 := by rcases hf with hf | hf <;> rw [hf] <;> rfl
    rw [extent, if_pos hdim, ← harea, abs_of_nonneg hnonneg]
  · have hlength := totalWeight_line h hf hc
    have hdim : e.family.dim ≠ 2 := by rcases hf with hf | hf <;> rw [hf] <;> decide
    rw [extent, if_neg hdim, ← hlength, abs_of_nonneg hnonneg]

/-- A segment of a line is regular if it runs forward. -/
theorem isRegular_line2 (hf : e.family = .line2) (hc : e.nodes.cols = 1)
    (hpos : e.nodes.entry 0 0 < e.nodes.entry 1 0) : e.IsRegular := by
  refine (IsAffine.of_line2 hf).isRegular (by rw [hf]; decide) ?_
  rw [measure_of_square (J := ofFn 1 e.nodes.cols _) hc.symm Nat.one_pos,
    det_one (A := ofFn 1 e.nodes.cols _) rfl hc, entry_ofFn _ Nat.one_pos (by omega)]
  linarith

/-- A natural number names the side at its place. -/
theorem getElem?_sides_of_sideNodes {s : ℕ} {places : List ℕ} (h : e.sideNodes s = .ok places) :
    e.family.sides[s]? = some places := by
  have hlt : s < e.family.sides.length := by
    by_contra hge
    have hnone : position? e.family.sides.length (s : ℤ) = none := by
      rw [position?, if_pos (Int.natCast_nonneg s), if_neg (by omega)]
    rw [sideNodes, hnone] at h
    cases h
  rw [sideNodes, position?_natCast hlt, Option.bind_some, List.getElem?_eq_getElem hlt] at h
  rw [List.getElem?_eq_getElem hlt, Except.ok.inj h]

section Sides

variable {s : ℕ} (hf : e.family = .quad4 ∨ e.family = .tri3) (hc : e.nodes.cols = 2)
  (hs : e.buildSide s = .ok side)
include hf hc hs

/-- A side of a quadrilateral or triangle is a segment from zero to its length. -/
theorem nodes_side : side.family = .line2 ∧ side.nodes.cols = 1 ∧ side.nodes.entry 0 0 = 0 ∧
    side.nodes.entry 1 0 = e.sideLength s := by
  have hlagrange : e.family.IsLagrange := by rcases hf with hf | hf <;> rw [hf] <;> decide
  have hdim : e.family.dim = 2 := by rcases hf with hf | hf <;> rw [hf] <;> rfl
  have hline : side.family = .line2 := by
    have hfamily := sideFamily_of_buildSide hs
    rcases hf with hf | hf <;> rw [hf] at hfamily <;> exact (Option.some.inj hfamily).symm
  obtain ⟨places, hplaces, -⟩ := buildSide_eq_ok hs
  have hcurve := IsCurve.of_buildSide hlagrange hdim hs
  have htrue := trueNodes_of_buildSide hs hplaces
  have hlength : places.length = 2 := by
    have hrows := hcurve.rows_eq
    rw [htrue, hline] at hrows
    exact hrows
  have hentry : ∀ p < 2, ∀ k < 2,
      side.trueNodes.entry p k = e.nodes.entry (places.getD p 0) k := by
    intro p hp k hk
    rw [htrue, selectRows, entry_ofFn _ (hlength.symm ▸ hp) (hc.symm ▸ hk)]
  have hends : e.family.sides.getD s [] = places := by
    rw [List.getD_eq_getElem?_getD, getElem?_sides_of_sideNodes hplaces, Option.getD_some]
  refine ⟨hline, hcurve.cols_eq, ?_, ?_⟩
  · rw [hcurve.entry_eq 0 (by rw [hline]; decide), sub_self, norm_zero]
  · rw [hcurve.entry_eq 1 (by rw [hline]; decide), norm_sub_trueNode (by rw [htrue]; exact hc),
      sideLength, hends, hentry 1 (by decide) 0 (by decide), hentry 0 (by decide) 0 (by decide),
      hentry 1 (by decide) 1 (by decide), hentry 0 (by decide) 1 (by decide)]

/-- The weights of a side add up to the distance between its ends. -/
theorem totalWeight_side (h : side.IsRegular) : side.totalWeight = e.sideLength s := by
  obtain ⟨hline, hcols, hfirst, hsecond⟩ := nodes_side hf hc hs
  rw [totalWeight_line h (.inl hline) hcols, hfirst, hsecond, sub_zero]

theorem isRegular_side (hpos : 0 < e.sideLength s) : side.IsRegular := by
  obtain ⟨hline, hcols, hfirst, hsecond⟩ := nodes_side hf hc hs
  exact isRegular_line2 hline hcols (by rwa [hfirst, hsecond])

end Sides

end Element
end WeakForm

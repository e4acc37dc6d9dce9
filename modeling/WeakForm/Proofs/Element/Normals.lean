import WeakForm.Proofs.Element.Areas
import WeakForm.Proofs.Element.DataSides
import WeakForm.Proofs.Element.SideCurves

/-!
# Outward normals

The sides of a triangle or a quadrilateral run around it counter clockwise if its Jacobian determinant is
positive at its corners: all other corners lie on the left of a side. Turned to the right, the direction
of a side is therefore a normal that points away from them, and the normals of all sides, each as long as
its side, add up to a way around the element. An end of a line is a side with the direction from the mean
of the nodes to the end, which is that of the line as long as no middle node lies beyond the ends.
-/

namespace WeakForm

open Finset DenseMatrix

namespace Element

variable {e side : Element ℝ} {s : ℤ} {places : List ℕ} {p q r : ℕ}

/-- The way from one node to another. -/
noncomputable def way (e : Element ℝ) (p q k : ℕ) : ℝ := e.nodes.entry q k - e.nodes.entry p k

/-- The distance of two nodes. -/
noncomputable def distance (e : Element ℝ) (p q : ℕ) : ℝ :=
  norm ((List.range e.nodes.cols).map (e.way p q))

/-- The coordinates of the points on the line through the ends of a side, the first one at zero and the
second one at one. A side that is a node has no other points. -/
noncomputable def sidePoint (e : Element ℝ) (places : List ℕ) (t : ℝ) (k : ℕ) : ℝ :=
  (1 - t) * e.nodes.entry (places.getD 0 0) k + t * e.nodes.entry (places.getD 1 (places.getD 0 0)) k

/-- The product of a direction and a vector. -/
noncomputable def along (n : List ℝ) (v : ℕ → ℝ) : ℝ := ∑ k ∈ range n.length, n.getD k 0 * v k

/-- A unit vector that is orthogonal to a side and points away from all nodes that the side does not
have, as seen from each of its points. -/
structure IsOutward (e : Element ℝ) (places : List ℕ) (n : List ℝ) : Prop where
  length_eq : n.length = e.nodes.cols
  unit : norm n = 1
  orthogonal : ∀ p ∈ places, ∀ q ∈ places, along n (e.way p q) = 0
  outward : ∀ p < e.family.nodeCount, p ∉ places → ∀ t,
    along n (fun k => e.nodes.entry p k - e.sidePoint places t k) < 0

/-- Twice the signed area of the triangle of three nodes, positive if they run counter clockwise. -/
noncomputable def turn (e : Element ℝ) (p q r : ℕ) : ℝ :=
  e.way p q 0 * e.way p r 1 - e.way p q 1 * e.way p r 0

/-- Plane elements that lie on the left of their sides. -/
structure IsConvex (e : Element ℝ) : Prop where
  family_cases : e.family = .tri3 ∨ e.family = .quad4
  cols_eq : e.nodes.cols = 2
  turn_pos : ∀ places ∈ e.family.sides, ∀ p < e.family.nodeCount, p ∉ places →
    0 < e.turn (places.getD 0 0) (places.getD 1 0) p

section Plane

theorem turn_rotate (e : Element ℝ) (p q r : ℕ) : e.turn q r p = e.turn p q r := by
  simp only [turn, way]
  ring

theorem turn_eq_cross (e : Element ℝ) (p q r : ℕ) :
    e.turn p q r = e.cross p q + e.cross q r + e.cross r p := by
  simp only [turn, way, cross]
  ring

theorem cornerArea_eq_turn (e : Element ℝ) (i : ℕ) :
    e.cornerArea i = 1 / 2 * e.turn i ((i + 1) % 4) ((i + 3) % 4) := by
  rw [cornerArea, turn_eq_cross]

/-- The Jacobian determinant of a triangle is twice its signed area. -/
theorem detJ_tri3 (hf : e.family = .tri3) (hcols : e.nodes.cols = 2) {ξ : List ℝ} {d : ℝ}
    (h : e.detJ ξ = .ok d) : d = e.turn 0 1 2 := by
  have hlagrange : e.family.IsLagrange := by rw [hf]; decide
  have hJ := hlagrange.jacobian_eq (ξ := ξ) (G := .ofRows 3 Basis.tri3Gradient) (by rw [hf]; rfl) e.rows_nodes
  have hentry {i : ℕ} (hi : i < 2) (k : ℕ) : ((ofRows 3 Basis.tri3Gradient).mul e.nodes).entry i k =
      e.way 0 (i + 1) k := by
    rw [entry_ofRows_mul hi e.nodes k]
    interval_cases i <;> norm_num [sum_range_succ, Basis.tri3Gradient, way] <;> ring
  rw [← ((detJ_eq_ok hJ).mp h).2, measure_of_square hcols.symm Nat.two_pos,
    det_two (A := (ofRows 3 Basis.tri3Gradient).mul e.nodes) rfl hcols, hentry Nat.two_pos,
    hentry Nat.two_pos, hentry Nat.one_lt_two, hentry Nat.one_lt_two]
  rfl

theorem isConvex_tri3 (hf : e.family = .tri3) (hcols : e.nodes.cols = 2) {ξ : List ℝ} {d : ℝ}
    (h : e.detJ ξ = .ok d) : e.IsConvex := by
  have hturn : 0 < e.turn 0 1 2 := detJ_tri3 hf hcols h ▸ detJ_pos h
  refine ⟨.inl hf, hcols, ?_⟩
  rw [hf]
  simp only [Family.sides, Family.nodeCount, List.forall_mem_cons]
  refine ⟨fun p hp hside => ?_, fun p hp hside => ?_, fun p hp hside => ?_, by simp⟩
  · obtain rfl : p = 2 := by simp at hside; omega
    exact hturn
  · obtain rfl : p = 0 := by simp at hside; omega
    exact (e.turn_rotate 0 1 2).symm ▸ hturn
  · obtain rfl : p = 1 := by simp at hside; omega
    exact (e.turn_rotate 2 0 1) ▸ hturn

/-- The four corners of the reference square. -/
def quadCorners : List (List ℝ) := [[-1, -1], [1, -1], [1, 1], [-1, 1]]

theorem isConvex_quad4 (hf : e.family = .quad4) (hcols : e.nodes.cols = 2)
    (h : ∀ ξ ∈ quadCorners, ∃ d, e.detJ ξ = .ok d) : e.IsConvex := by
  have hcorner : ∀ i < 4, 0 < e.turn i ((i + 1) % 4) ((i + 3) % 4) := by
    simp only [quadCorners, List.forall_mem_cons, exists_detJ_quad4_iff hf hcols, cornerArea_eq_turn] at h
    obtain ⟨h₀, h₁, h₂, h₃, -⟩ := h
    intro i hi
    interval_cases i <;> linarith
  -- the other corner that a side does not have belongs to the turn at the end of the side
  have hnext : ∀ i < 4, 0 < e.turn i ((i + 1) % 4) ((i + 2) % 4) := by
    intro i hi
    have hturn := hcorner ((i + 1) % 4) (Nat.mod_lt _ (by decide))
    have hfirst : ((i + 1) % 4 + 3) % 4 = i := by omega
    rw [Nat.mod_add_mod, hfirst, turn_rotate] at hturn
    exact hturn
  have hside {i : ℕ} (hi : i < 4) {p : ℕ} (hp : p < 4) (hmem : p ∉ [i, (i + 1) % 4]) :
      0 < e.turn i ((i + 1) % 4) p := by
    simp only [List.mem_cons, List.not_mem_nil, or_false, not_or] at hmem
    obtain rfl | rfl : p = (i + 2) % 4 ∨ p = (i + 3) % 4 := by omega
    · exact hnext i hi
    · exact hcorner i hi
  refine ⟨.inr hf, hcols, ?_⟩
  rw [hf]
  simp only [Family.sides, Family.nodeCount, List.forall_mem_cons]
  exact ⟨fun _ => hside (i := 0) (by decide), fun _ => hside (i := 1) (by decide),
    fun _ => hside (i := 2) (by decide), fun _ => hside (i := 3) (by decide), by simp⟩

/-- The direction of a side of a plane element, turned to the right. -/
noncomputable def rightNormal (e : Element ℝ) (p q : ℕ) : List ℝ :=
  [e.way p q 1 / e.distance p q, -e.way p q 0 / e.distance p q]

theorem distance_eq_sqrt (hcols : e.nodes.cols = 2) (p q : ℕ) :
    e.distance p q = √(e.way p q 0 ^ 2 + e.way p q 1 ^ 2) := by
  rw [distance, norm_map_range, norm_toSpace, hcols, sum_range_succ, sum_range_one, sq, sq]

/-- Different ends of a side are apart. -/
theorem distance_pos_of_turn (hcols : e.nodes.cols = 2) (h : 0 < e.turn p q r) : 0 < e.distance p q := by
  rw [distance_eq_sqrt hcols, Real.sqrt_pos]
  by_contra hzero
  have hx : e.way p q 0 = 0 := by nlinarith [sq_nonneg (e.way p q 0), sq_nonneg (e.way p q 1)]
  have hy : e.way p q 1 = 0 := by nlinarith [sq_nonneg (e.way p q 0), sq_nonneg (e.way p q 1)]
  rw [turn, hx, hy] at h
  linarith

/-- A multiple of a vector is longer by its factor. -/
theorem norm_map_mul (n : ℕ) (c : ℝ) (v : ℕ → ℝ) :
    norm ((List.range n).map fun k => c * v k) = |c| * norm ((List.range n).map v) := by
  have hsmul : toSpace n (fun k => c * v k) = c • toSpace n v := rfl
  rw [norm_map_range, norm_map_range, hsmul, norm_smul, Real.norm_eq_abs]

/-- The normal of a side with two nodes is the same at all of its points. -/
theorem normal_of_plane (hbuild : e.buildSide s = .ok side) (hs : e.sideNodes s = .ok places)
    (hf : side.family = .line2) (hcols : e.nodes.cols = 2) (ξ : List ℝ) :
    side.normal ξ = .ok (e.rightNormal (places.getD 0 0) (places.getD 1 0)) := by
  obtain ⟨places', hs', hside, hrows⟩ := side_of_buildSide hbuild
  obtain rfl : places = places' := Except.ok.inj (hs.symm.trans hs')
  rw [hf] at hrows
  have hlength : places.length = 2 := hrows
  let direction := ((ofRows 2 Basis.line2Gradient).mul (e.nodes.selectRows places)).row 0
  have hrow : direction = (List.range 2).map fun k =>
      1 / 2 * e.way (places.getD 0 0) (places.getD 1 0) k := by
    change (List.range e.nodes.cols).map _ = _
    rw [hcols]
    refine List.map_congr_left fun k hk => ?_
    have hnode {i : ℕ} (hi : i < 2) :
        (e.nodes.selectRows places).entry i k = e.nodes.entry (places.getD i 0) k :=
      entry_ofFn _ (hlength ▸ hi) (hcols ▸ List.mem_range.mp hk)
    rw [entry_ofRows_mul Nat.one_pos]
    norm_num [sum_range_succ, Basis.line2Gradient, hnode, way]
    ring
  have hget {k : ℕ} (hk : k < 2) :
      direction.getD k 0 = 1 / 2 * e.way (places.getD 0 0) (places.getD 1 0) k := by
    simp [hrow, hk]
  have hnorm : norm direction = 1 / 2 * e.distance (places.getD 0 0) (places.getD 1 0) := by
    rw [hrow, norm_map_mul, abs_of_pos (by norm_num), ← hcols]
    rfl
  have hhalf (x : ℝ) : 1 / 2 * x / (1 / 2 * e.distance (places.getD 0 0) (places.getD 1 0)) =
      x / e.distance (places.getD 0 0) (places.getD 1 0) := mul_div_mul_left _ _ (by norm_num)
  have hline : side.family.dim ≠ 0 := by rw [hf]; decide
  have hplane : side.family.dim = 1 ∧ (e.nodes.selectRows places).cols = 2 := ⟨by rw [hf]; rfl, hcols⟩
  have hgradient : side.family.localGradient ξ = .ok (.ofRows 2 Basis.line2Gradient) := by rw [hf]; rfl
  rw [normal, hside]
  dsimp only
  rw [if_neg hline, if_pos hplane, hgradient]
  change Except.ok [direction.getD 1 0 / norm direction, -direction.getD 0 0 / norm direction] = _
  rw [hnorm, hget Nat.one_lt_two, hget Nat.two_pos, ← mul_neg, hhalf, hhalf]
  rfl

theorem along_rightNormal (p q : ℕ) (v : ℕ → ℝ) : along (e.rightNormal p q) v =
    (e.way p q 1 * v 0 - e.way p q 0 * v 1) / e.distance p q := by
  change ∑ k ∈ range 2, (e.rightNormal p q).getD k 0 * v k = _
  rw [sum_range_succ, sum_range_one, rightNormal]
  simp only [List.getD_cons_zero, List.getD_cons_succ]
  ring

/-- A side with all other nodes on its left has an outward normal. -/
theorem isOutward_rightNormal (hcols : e.nodes.cols = 2) (hlength : places.length = 2)
    (hturn : ∀ r < e.family.nodeCount, r ∉ places → 0 < e.turn (places.getD 0 0) (places.getD 1 0) r)
    (hpos : 0 < e.distance (places.getD 0 0) (places.getD 1 0)) :
    e.IsOutward places (e.rightNormal (places.getD 0 0) (places.getD 1 0)) := by
  obtain ⟨p, q, rfl⟩ := List.length_eq_two.mp hlength
  simp only [List.getD_cons_zero, List.getD_cons_succ] at hturn hpos ⊢
  refine ⟨hcols.symm, ?_, ?_, fun r hr hmem t => ?_⟩
  · have hsquare : e.distance p q ^ 2 = e.way p q 0 ^ 2 + e.way p q 1 ^ 2 := by
      rw [distance_eq_sqrt hcols, Real.sq_sqrt (by positivity)]
    change √(0 + e.way p q 1 / e.distance p q * (e.way p q 1 / e.distance p q) +
      -e.way p q 0 / e.distance p q * (-e.way p q 0 / e.distance p q)) = 1
    rw [Real.sqrt_eq_one]
    field_simp
    linarith
  · simp only [List.mem_cons, List.not_mem_nil, or_false, forall_eq_or_imp, forall_eq, along_rightNormal]
    refine ⟨⟨?_, ?_⟩, ?_, ?_⟩ <;> simp only [way] <;> ring
  · rw [along_rightNormal]
    refine div_neg_of_neg_of_pos ?_ hpos
    have hleft := hturn r hr hmem
    simp only [turn, way, sidePoint, List.getD_cons_zero, List.getD_cons_succ] at hleft ⊢
    linarith

/-- The sides of a plane element close, so their normals, each as long as its side, add up to zero. -/
theorem sum_way_sides (hf : e.family = .tri3 ∨ e.family = .quad4) (k : ℕ) :
    (e.family.sides.map fun places => e.way (places.getD 0 0) (places.getD 1 0) k).sum = 0 := by
  rcases hf with hf | hf
  all_goals
    rw [hf]
    simp only [Family.sides, List.map_cons, List.map_nil, List.sum_cons, List.sum_nil, way,
      List.getD_cons_zero, List.getD_cons_succ]
    ring

end Plane

/-- Lines with different ends. A middle node is between them. -/
structure IsSegment (e : Element ℝ) : Prop where
  family_cases : e.family = .line2 ∨ e.family = .beam2 ∨ e.family = .line3
  apart : ∃ k < e.nodes.cols, e.nodes.entry 0 k ≠ e.nodes.entry 1 k
  between : e.family = .line3 → ∃ t, 0 < t ∧ t < 1 ∧ ∀ k < e.nodes.cols,
    e.nodes.entry 2 k = (1 - t) * e.nodes.entry 0 k + t * e.nodes.entry 1 k

section Lines

/-- The direction from one node to another. -/
noncomputable def endNormal (e : Element ℝ) (q p : ℕ) : List ℝ :=
  (List.range e.nodes.cols).map fun k => e.way q p k / e.distance q p

theorem distance_eq_norm (p q : ℕ) : e.distance p q = ‖toSpace e.nodes.cols (e.way p q)‖ :=
  norm_map_range _ _

theorem distance_sq (p q : ℕ) : e.distance p q ^ 2 = ∑ k ∈ range e.nodes.cols, e.way p q k ^ 2 := by
  rw [distance_eq_norm, norm_toSpace, Real.sq_sqrt (sum_nonneg fun k _ => mul_self_nonneg _)]
  simp only [sq]

theorem distance_pos {k : ℕ} (hk : k < e.nodes.cols) (h : e.way p q k ≠ 0) : 0 < e.distance p q := by
  have hsum : 0 < e.distance p q ^ 2 := by
    rw [distance_sq]
    exact sum_pos' (fun _ _ => sq_nonneg _) ⟨k, mem_range.mpr hk, by positivity⟩
  have hnonneg : 0 ≤ e.distance p q := distance_eq_norm (e := e) p q ▸ norm_nonneg _
  exact lt_of_le_of_ne hnonneg fun hzero => by simp [← hzero] at hsum

/-- The normal at an end is the direction from another node if the mean of the nodes is on the way. -/
theorem normal_of_end (hbuild : e.buildSide s = .ok side) (hs : e.sideNodes s = .ok [p])
    (hf : side.family = .point) {c : ℝ} (hc : 0 < c) (hmean : ∀ k < e.nodes.cols,
      e.nodes.entry p k - (∑ i ∈ range e.nodes.rows, e.nodes.entry i k) / e.nodes.rows = c * e.way q p k)
    (ξ : List ℝ) : side.normal ξ = .ok (e.endNormal q p) := by
  obtain ⟨places, hs', hside, -⟩ := side_of_buildSide hbuild
  obtain rfl : [p] = places := Except.ok.inj (hs.symm.trans hs')
  have hpoint : side.family.dim = 0 := by rw [hf]; rfl
  have hdirection : List.zipWith (· - ·) ((e.nodes.selectRows [p]).row 0) (center e.nodes) =
      (List.range e.nodes.cols).map fun k => c * e.way q p k := by
    change List.zipWith (· - ·) ((List.range e.nodes.cols).map _) ((List.range e.nodes.cols).map _) = _
    rw [List.zipWith_map, List.zipWith_self]
    refine List.map_congr_left fun k hk => ?_
    have hk := List.mem_range.mp hk
    have hnode : (e.nodes.selectRows [p]).entry 0 k = e.nodes.entry p k := entry_ofFn _ Nat.one_pos hk
    rw [hnode, sumTo_eq_sum, hmean k hk]
  rw [normal, hside]
  dsimp only
  rw [if_pos hpoint, hdirection, norm_map_mul, abs_of_pos hc, List.map_map, endNormal]
  refine congrArg Except.ok (List.map_congr_left fun k _ => ?_)
  exact mul_div_mul_left _ _ hc.ne'

/-- Seen from an end, all other nodes are on the side of another node. -/
theorem isOutward_endNormal (hpos : 0 < e.distance q p) (hother : ∀ r < e.family.nodeCount, r ≠ p →
    ∃ c > 0, ∀ k < e.nodes.cols, e.way p r k = -(c * e.way q p k)) :
    e.IsOutward [p] (e.endNormal q p) := by
  have hlength : (e.endNormal q p).length = e.nodes.cols := by simp [endNormal]
  refine ⟨hlength, ?_, ?_, fun r hr hmem t => ?_⟩
  · have hunit : e.endNormal q p =
        (List.range e.nodes.cols).map fun k => (e.distance q p)⁻¹ * e.way q p k := by
      simp only [endNormal, div_eq_inv_mul]
    rw [hunit, norm_map_mul, abs_of_pos (inv_pos.mpr hpos)]
    exact inv_mul_cancel₀ hpos.ne'
  · simp [along, way]
  · obtain ⟨c, hc, hway⟩ := hother r hr (by simpa using hmem)
    have hterm : ∀ k ∈ range e.nodes.cols, (e.endNormal q p).getD k 0 *
        (e.nodes.entry r k - e.sidePoint [p] t k) = -(c / e.distance q p) * e.way q p k ^ 2 := by
      intro k hk
      have hget : (e.endNormal q p).getD k 0 = e.way q p k / e.distance q p := by
        simp [endNormal, mem_range.mp hk]
      have hpoint : e.nodes.entry r k - e.sidePoint [p] t k = e.way p r k := by
        simp only [sidePoint, way, List.getD_cons_zero, List.getD_cons_succ, List.getD_nil]
        ring
      rw [hget, hpoint, hway k (mem_range.mp hk)]
      ring
    rw [along, hlength, sum_congr rfl hterm, ← mul_sum, ← distance_sq]
    have hdistance : 0 < c / e.distance q p := div_pos hc hpos
    nlinarith [mul_pos hdistance (pow_pos hpos 2)]

/-- A segment may be read from either end. -/
theorem IsSegment.from_end (h : e.IsSegment) (hends : p = 0 ∧ q = 1 ∨ p = 1 ∧ q = 0) :
    (∃ k < e.nodes.cols, e.way q p k ≠ 0) ∧
    (e.family = .line3 → ∃ t, 0 < t ∧ t < 1 ∧ ∀ k < e.nodes.cols,
      e.nodes.entry 2 k = (1 - t) * e.nodes.entry p k + t * e.nodes.entry q k) := by
  obtain ⟨k, hk, hne⟩ := h.apart
  rcases hends with ⟨rfl, rfl⟩ | ⟨rfl, rfl⟩
  · exact ⟨⟨k, hk, sub_ne_zero.mpr hne⟩, h.between⟩
  · refine ⟨⟨k, hk, sub_ne_zero.mpr hne.symm⟩, fun hf => ?_⟩
    obtain ⟨t, hpos, hlt, hmiddle⟩ := h.between hf
    refine ⟨1 - t, by linarith, by linarith, fun k hk => ?_⟩
    rw [hmiddle k hk]
    ring

/-- Seen from an end of a line, all other nodes and their mean are on the side of the other end. -/
theorem IsSegment.ways (h : e.IsSegment) (hends : p = 0 ∧ q = 1 ∨ p = 1 ∧ q = 0) :
    (∀ r < e.family.nodeCount, r ≠ p → ∃ c > 0, ∀ k < e.nodes.cols, e.way p r k = -(c * e.way q p k)) ∧
    ∃ c > 0, ∀ k < e.nodes.cols, e.nodes.entry p k -
      (∑ i ∈ range e.family.nodeCount, e.nodes.entry i k) / e.family.nodeCount = c * e.way q p k := by
  have hother : ∃ c > 0, ∀ k < e.nodes.cols, e.way p q k = -(c * e.way q p k) :=
    ⟨1, one_pos, fun k _ => by simp only [way]; ring⟩
  have hpair (k : ℕ) : e.nodes.entry 0 k + e.nodes.entry 1 k = e.nodes.entry p k + e.nodes.entry q k := by
    rcases hends with ⟨rfl, rfl⟩ | ⟨rfl, rfl⟩
    · rfl
    · exact add_comm _ _
  by_cases hf : e.family = .line3
  · obtain ⟨t, hpos, hlt, hmiddle⟩ := (h.from_end hends).2 hf
    rw [hf]
    refine ⟨fun r hr hne => ?_, (1 + t) / 3, by linarith, fun k hk => ?_⟩
    · have hcases : r = q ∨ r = 2 := by
        simp only [Family.nodeCount] at hr
        omega
      rcases hcases with rfl | rfl
      · exact hother
      · refine ⟨t, hpos, fun k hk => ?_⟩
        rw [way, way, hmiddle k hk]
        ring
    · simp only [Family.nodeCount, sum_range_succ, sum_range_zero, zero_add, hpair, hmiddle k hk, way]
      push_cast
      ring
  · have hcount : e.family.nodeCount = 2 := by
      rcases h.family_cases with hf' | hf' | hf'
      · rw [hf']; rfl
      · rw [hf']; rfl
      · exact absurd hf' hf
    rw [hcount]
    refine ⟨fun r hr hne => ?_, 1 / 2, by norm_num, fun k hk => ?_⟩
    · obtain rfl : r = q := by omega
      exact hother
    · simp only [sum_range_succ, sum_range_zero, zero_add, hpair, way]
      push_cast
      ring

end Lines

section Elements

/-- Triangles with a positive Jacobian determinant, quadrilaterals with a positive one at their corners,
and segments. -/
inductive HasOutwardNormals (e : Element ℝ) : Prop
  | triangle (hf : e.family = .tri3) (hcols : e.nodes.cols = 2) {ξ : List ℝ} {d : ℝ}
      (h : e.detJ ξ = .ok d)
  | quadrilateral (hf : e.family = .quad4) (hcols : e.nodes.cols = 2)
      (h : ∀ ξ ∈ quadCorners, ∃ d, e.detJ ξ = .ok d)
  | segment (h : e.IsSegment)

theorem HasOutwardNormals.convex_or_segment (h : e.HasOutwardNormals) : e.IsConvex ∨ e.IsSegment := by
  cases h with
  | triangle hf hcols h => exact .inl (isConvex_tri3 hf hcols h)
  | quadrilateral hf hcols h => exact .inl (isConvex_quad4 hf hcols h)
  | segment h => exact .inr h

theorem HasOutwardNormals.exists_sideFamily (h : e.HasOutwardNormals) :
    ∃ g, e.family.sideFamily = some g := by
  rcases h.convex_or_segment with h | h
  · rcases h.family_cases with hf | hf <;> rw [hf] <;> exact ⟨_, rfl⟩
  · rcases h.family_cases with hf | hf | hf <;> rw [hf] <;> exact ⟨_, rfl⟩

/-- The normal of the side with the given nodes: to the right of its direction, or away from the other
end of a line. -/
noncomputable def outwardNormal (e : Element ℝ) : List ℕ → List ℝ
  | [p] => e.endNormal (1 - p) p
  | places => e.rightNormal (places.getD 0 0) (places.getD 1 0)

/-- The distance between the ends of a side. -/
noncomputable def endDistance (e : Element ℝ) (places : List ℕ) : ℝ :=
  e.distance (places.getD 0 0) (places.getD 1 0)

theorem IsConvex.length_places (h : e.IsConvex) (hplaces : places ∈ e.family.sides) : places.length = 2 := by
  have hside : e.family.sideFamily = some .line2 := by
    rcases h.family_cases with hf | hf <;> rw [hf] <;> rfl
  exact Family.length_of_mem_sides hside hplaces

theorem IsConvex.endDistance_pos (h : e.IsConvex) (hplaces : places ∈ e.family.sides) :
    0 < e.endDistance places := by
  have hlength := h.length_places hplaces
  obtain ⟨r, hr, hmem⟩ : ∃ r < e.family.nodeCount, r ∉ places := by
    by_contra hall
    have hsubset : List.range e.family.nodeCount ⊆ places := fun r hr => by
      by_contra hmem
      exact hall ⟨r, List.mem_range.mp hr, hmem⟩
    have hcount := (List.subperm_of_subset List.nodup_range hsubset).length_le
    rw [hlength, List.length_range] at hcount
    rcases h.family_cases with hf | hf <;> rw [hf] at hcount <;> exact absurd hcount (by decide)
  exact distance_pos_of_turn h.cols_eq (h.turn_pos places hplaces r hr hmem)

theorem IsConvex.outwardNormal_eq (h : e.IsConvex) (hplaces : places ∈ e.family.sides) :
    e.outwardNormal places = e.rightNormal (places.getD 0 0) (places.getD 1 0) := by
  obtain ⟨p, q, rfl⟩ := List.length_eq_two.mp (h.length_places hplaces)
  rfl

/-- The normals of all sides, each as long as its side, add up to zero. -/
theorem IsConvex.sum_normals (h : e.IsConvex) (k : ℕ) :
    (e.family.sides.map fun places => e.endDistance places * (e.outwardNormal places).getD k 0).sum = 0 := by
  have hterm : ∀ places ∈ e.family.sides, e.endDistance places * (e.outwardNormal places).getD k 0 =
      [e.way (places.getD 0 0) (places.getD 1 0) 1, -e.way (places.getD 0 0) (places.getD 1 0) 0].getD k 0 := by
    intro places hplaces
    have hpos := h.endDistance_pos hplaces
    rw [h.outwardNormal_eq hplaces]
    match k with
    | 0 => exact mul_div_cancel₀ _ hpos.ne'
    | 1 => exact mul_div_cancel₀ _ hpos.ne'
    | k + 2 => exact mul_zero _
  rw [List.map_congr_left hterm]
  match k with
  | 0 => exact sum_way_sides h.family_cases 1
  | 1 =>
    have hsum := sum_way_sides h.family_cases 0
    have hneg := List.sum_map_mul_left e.family.sides
      (fun places => e.way (places.getD 0 0) (places.getD 1 0) 0) (-1)
    simp only [neg_one_mul, hsum, neg_zero] at hneg
    exact hneg
  | k + 2 => exact List.sum_map_zero

/-- The side of a plane element has an outward normal. -/
theorem IsConvex.side_spec (h : e.IsConvex) (hs : e.sideNodes s = .ok places)
    (hbuild : e.buildSide s = .ok side) :
    side.family = .line2 ∧ (∀ ξ, side.normal ξ = .ok (e.outwardNormal places)) ∧
      e.IsOutward places (e.outwardNormal places) := by
  have hplaces := sideNodes_mem hs
  have hfamily : side.family = .line2 := by
    have hside := sideFamily_of_buildSide hbuild
    rcases h.family_cases with hf | hf <;> rw [hf] at hside <;> exact (Option.some.inj hside).symm
  rw [h.outwardNormal_eq hplaces]
  exact ⟨hfamily, normal_of_plane hbuild hs hfamily h.cols_eq, isOutward_rightNormal h.cols_eq
    (h.length_places hplaces) (h.turn_pos places hplaces) (h.endDistance_pos hplaces)⟩

/-- The ends of a segment have outward normals. -/
theorem IsSegment.side_spec (h : e.IsSegment) (hs : e.sideNodes s = .ok places)
    (hbuild : e.buildSide s = .ok side) :
    side.family = .point ∧ (∀ ξ, side.normal ξ = .ok (e.outwardNormal places)) ∧
      e.IsOutward places (e.outwardNormal places) := by
  have hplaces := sideNodes_mem hs
  have hside := sideFamily_of_buildSide hbuild
  obtain ⟨hfamily, hsides⟩ : side.family = .point ∧ (places = [0] ∨ places = [1]) := by
    rcases h.family_cases with hf | hf | hf <;> rw [hf] at hside hplaces <;>
      exact ⟨(Option.some.inj hside).symm, by simpa [Family.sides] using hplaces⟩
  obtain ⟨p, rfl, hends⟩ : ∃ p, places = [p] ∧ (p = 0 ∧ 1 - p = 1 ∨ p = 1 ∧ 1 - p = 0) := by
    rcases hsides with rfl | rfl
    · exact ⟨0, rfl, .inl ⟨rfl, rfl⟩⟩
    · exact ⟨1, rfl, .inr ⟨rfl, rfl⟩⟩
  obtain ⟨⟨k, hk, hne⟩, -⟩ := h.from_end hends
  obtain ⟨hother, c, hc, hmean⟩ := h.ways hends
  rw [← e.rows_nodes] at hmean
  exact ⟨hfamily, normal_of_end hbuild hs hfamily hc hmean, isOutward_endNormal (distance_pos hk hne) hother⟩

/-- The normal at an end of a segment points there from all other nodes. -/
theorem IsSegment.endNormal_spec (h : e.IsSegment) (hp : p < 2) {r : ℕ} (hr : r < e.family.nodeCount)
    (hne : r ≠ p) : ∃ c > 0, ∀ k < e.nodes.cols, (e.outwardNormal [p]).getD k 0 = c * e.way r p k := by
  have hends : p = 0 ∧ 1 - p = 1 ∨ p = 1 ∧ 1 - p = 0 := by omega
  obtain ⟨⟨k, hk, hway⟩, -⟩ := h.from_end hends
  have hpos := distance_pos hk hway
  obtain ⟨c, hc, hother⟩ := (h.ways hends).1 r hr hne
  refine ⟨(c * e.distance (1 - p) p)⁻¹, by positivity, fun k hk => ?_⟩
  have hget : (e.outwardNormal [p]).getD k 0 = e.way (1 - p) p k / e.distance (1 - p) p := by
    simp [outwardNormal, endNormal, hk]
  have hback : e.way r p k = c * e.way (1 - p) p k := by
    rw [← neg_neg (c * _), ← hother k hk, way, way, neg_sub]
  rw [hget, hback]
  field_simp

/-- Every side of a triangle with a positive Jacobian determinant, of a quadrilateral with a positive one
at its corners and of a segment has one normal at all of its points, which is a unit vector orthogonal to
the side and points away from all other nodes. The normals of a plane element add up to zero if each is
as long as its side, and those of a segment point along it. -/
theorem normals_point_outward (h : e.HasOutwardNormals) :
    (∀ s places, e.sideNodes s = .ok places → ∃ side, e.buildSide s = .ok side ∧
      (ElementData.ofElement e).buildSide (.integer s) = .ok (.ofElement side) ∧
      (∀ ξ, side.normal ξ = .ok (e.outwardNormal places)) ∧
      (∀ ξ, (ElementData.ofElement side).normal ξ = .ok (.ofArray (e.outwardNormal places).toArray)) ∧
      e.IsOutward places (e.outwardNormal places)) ∧
    (e.family.dim = 2 → ∀ k, (e.family.sides.map fun places =>
      e.endDistance places * (e.outwardNormal places).getD k 0).sum = 0) ∧
    (e.family.dim = 1 → ∀ p < 2, ∀ r < e.family.nodeCount, r ≠ p →
      ∃ c > 0, ∀ k < e.nodes.cols, (e.outwardNormal [p]).getD k 0 = c * e.way r p k) := by
  refine ⟨fun s places hs => ?_, fun hdim k => ?_, fun hdim p hp r hr hne => ?_⟩
  · obtain ⟨g, hg⟩ : ∃ g, e.family.sideFamily = some g := h.exists_sideFamily
    obtain ⟨side, hbuild⟩ := exists_buildSide hg hs
    obtain ⟨hfamily, hnormal, houtward⟩ : (side.family = .point ∨ side.family = .line2) ∧
        (∀ ξ, side.normal ξ = .ok (e.outwardNormal places)) ∧
        e.IsOutward places (e.outwardNormal places) := by
      rcases h.convex_or_segment with hconvex | hsegment
      · obtain ⟨hfamily, hnormal⟩ := hconvex.side_spec hs hbuild
        exact ⟨.inr hfamily, hnormal⟩
      · obtain ⟨hfamily, hnormal⟩ := hsegment.side_spec hs hbuild
        exact ⟨.inl hfamily, hnormal⟩
    refine ⟨side, hbuild, ElementData.buildSide_ofElement hbuild, hnormal, fun ξ => ?_, houtward⟩
    rw [ElementData.normal_ofElement hbuild hfamily ξ [], hnormal]
    rfl
  · rcases h.convex_or_segment with hconvex | hsegment
    · exact hconvex.sum_normals k
    · rcases hsegment.family_cases with hf | hf | hf <;> rw [hf] at hdim <;> cases hdim
  · rcases h.convex_or_segment with hconvex | hsegment
    · rcases hconvex.family_cases with hf | hf <;> rw [hf] at hdim <;> cases hdim
    · exact hsegment.endNormal_spec hp hr hne

/-- A quadrilateral with two slanted sides. -/
noncomputable def trapezoid : Element ℝ :=
  ⟨1, .quad4, .ofRows 2 [[0, 0], [4, 0], [4, 3], [0, 6]], [1, 2, 3, 4], 1, none, rfl, rfl⟩

theorem entry_trapezoid {p k : ℕ} (hp : p < 4) (hk : k < 2) : trapezoid.nodes.entry p k =
    (([[0, 0], [4, 0], [4, 3], [0, 6]] : List (List ℝ)).getD p []).getD k 0 := entry_ofRows hp hk

theorem hasOutwardNormals_trapezoid : trapezoid.HasOutwardNormals := by
  have hcorners : ∀ ξ ∈ quadCorners, ∃ d, trapezoid.detJ ξ = .ok d := by
    simp only [quadCorners, List.forall_mem_cons, exists_detJ_quad4_iff (e := trapezoid) rfl rfl,
      cornerArea, cross]
    norm_num [entry_trapezoid]
  exact .quadrilateral rfl rfl hcorners

theorem normals_of_trapezoid : ∃ side, trapezoid.buildSide 2 = .ok side ∧
    side.normal [] = .ok [3 / 5, 4 / 5] ∧ trapezoid.IsOutward [2, 3] [3 / 5, 4 / 5] := by
  obtain ⟨hsides, -, -⟩ := normals_point_outward hasOutwardNormals_trapezoid
  obtain ⟨side, hbuild, -, hnormal, -, houtward⟩ := hsides 2 [2, 3] rfl
  have hvalue : trapezoid.outwardNormal [2, 3] = [3 / 5, 4 / 5] := by
    have hx : trapezoid.way 2 3 0 = -4 := by norm_num [way, entry_trapezoid]
    have hy : trapezoid.way 2 3 1 = 3 := by norm_num [way, entry_trapezoid]
    have hdistance : trapezoid.distance 2 3 = 5 := by
      rw [distance_eq_sqrt rfl, hx, hy, Real.sqrt_eq_iff_mul_self_eq_of_pos (by norm_num)]
      norm_num
    change trapezoid.rightNormal 2 3 = _
    rw [rightNormal, hx, hy, hdistance, neg_neg]
  rw [hvalue] at hnormal houtward
  exact ⟨side, hbuild, hnormal [], houtward⟩

end Elements

end Element
end WeakForm

import WeakForm.Proofs.RealScalar
import WeakForm.Proofs.Element.Areas
import WeakForm.Proofs.Mesh.Tilings

/-!
# Conforming grids

The grid of a rectangle covers it without gaps and overlaps: its sides meet side to side, the sides left
over lie on the edges of the rectangle, and all elements have the same Jacobian determinant.
-/

namespace WeakForm

/-- A point lies on the line along an edge of a rectangle. -/
def Location.HasPoint (xlo xhi ylo yhi : ℝ) (x : List ℝ) : Location → Prop
  | left => x.getD 0 0 = xlo
  | right => x.getD 0 0 = xhi
  | bottom => x.getD 1 0 = ylo
  | top => x.getD 1 0 = yhi

namespace Mesh

variable {m : Mesh ℝ} {n s : ℕ}

/-- The coordinates of a node. -/
noncomputable def point (m : Mesh ℝ) (k : ℤ) : List ℝ := m.nodes.getD (k - 1).toNat []

/-- The sides that belong to one element only. -/
def exteriorSides (m : Mesh ℝ) : Set SideRef := {ref | ∃ side, m.side? ref = some side ∧ side.onBoundary = true}

theorem mem_exteriorSides (hm : m.Reachable) (hfrozen : m.frozen = true) {ref : SideRef} :
    ref ∈ m.exteriorSides ↔ ∃ n s ids, ref = (n + 1, s) ∧ IsExterior m.connectivity n s ids := by
  simp only [exteriorSides, Set.mem_ofPred_eq, side?_eq_some, isExterior_iff hm hfrozen]
  constructor
  · rintro ⟨side, ⟨n, c, s, rfl, hc, hs⟩, hboundary⟩
    exact ⟨n, s, _, rfl, c, side, hc, hs, hboundary, rfl⟩
  · rintro ⟨n, s, ids, rfl, c, side, hc, hs, hboundary, -⟩
    exact ⟨side, ⟨n, c, s, rfl, hc, hs⟩, hboundary⟩

/-- A boundary of all exterior sides has the nodes of these sides. -/
theorem mem_regionNodeIds_exterior (hm : m.Reachable) (hfrozen : m.frozen = true) {r : Region}
    (hkind : r.kind = .boundary) (hr : ∀ ref, ref ∈ r.sides ↔ ref ∈ m.exteriorSides) {k : ℤ} :
    k ∈ m.regionNodeIds r ↔ ∃ n s ids, IsExterior m.connectivity n s ids ∧ k ∈ ids := by
  simp only [mem_regionNodeIds hkind, hr, mem_exteriorSides hm hfrozen]
  constructor
  · rintro ⟨_, ⟨n, s, ids, rfl, hexterior⟩, c, side, hc, hs, hk⟩
    have hids := (sideOf_eq_some hm.wellFormed hfrozen).mpr ⟨c, side, hc, hs, rfl⟩
    rw [Option.some.inj (hids.symm.trans hexterior.sideOf_eq)] at hk
    exact ⟨n, s, ids, hexterior, hk⟩
  · rintro ⟨n, s, ids, hexterior, hk⟩
    obtain ⟨c, side, hc, hs, rfl⟩ := (sideOf_eq_some hm.wellFormed hfrozen).mp hexterior.sideOf_eq
    exact ⟨_, ⟨n, s, _, rfl, hexterior⟩, c, side, hc, hs, hk⟩

end Mesh

namespace Grid

/-- The Jacobian determinant of the elements cut from cells of the given width and height. -/
noncomputable def cellMeasure (f : Family) (width height : ℝ) : ℝ :=
  match f with
  | .quad4 => width * height / 4
  | _ => width * height

theorem IsTile.isLagrange {f : Family} (hf : IsTile f) : f.IsLagrange := by
  rcases hf with rfl | rfl | rfl <;> decide

theorem cellMeasure_pos (f : Family) {width height : ℝ} (hwidth : 0 < width) (hheight : 0 < height) :
    0 < cellMeasure f width height := by
  unfold cellMeasure
  split <;> positivity

variable {f : Family} {xlo xhi ylo yhi : ℝ} {nx ny d : ℕ} {m : Mesh ℝ}

section Elements

variable {e : Element ℝ} {stencil : List (ℕ × ℕ)} {x y dx dy : ℝ}

/-- An element whose nodes are at the places of a cell is placed affinely. -/
theorem exists_isAffine (hf : IsTile f) (hstencil : stencil ∈ stencils f) (hfamily : e.family = f)
    (hc : e.nodes.cols = 2)
    (hfirst : ∀ p < f.nodeCount, e.nodes.entry p 0 = x + (stencil.getD p (0, 0)).2 * dx)
    (hsecond : ∀ p < f.nodeCount, e.nodes.entry p 1 = y + (stencil.getD p (0, 0)).1 * dy) :
    ∃ origin directions, e.IsAffine origin directions ∧ directions.rows = 2 ∧ directions.cols = 2 ∧
      directions.det = cellMeasure f (partsPerCell f * dx) (partsPerCell f * dy) := by
  have hfar (p k : ℕ) : e.nodes.entry p (k + 2) = 0 := DenseMatrix.entry_of_cols_le _ (by omega)
  have hdet := DenseMatrix.det_ofFn_two hc
  rcases hf with rfl | rfl | rfl
  · have hparts : partsPerCell .quad4 = 1 := rfl
    obtain rfl := List.mem_singleton.mp hstencil
    simp only [Family.nodeCount] at hfirst hsecond
    refine ⟨_, _, .of_quad4 hfamily fun k => ?_, rfl, hc, ?_⟩
    · rcases k with - | - | k
      · norm_num [hfirst]
        exact add_comm _ _
      · norm_num [hsecond]
      · simp only [hfar]
    · norm_num [hdet, hfirst, hsecond, cellMeasure, hparts]
      ring
  · have hparts : partsPerCell .tri3 = 1 := rfl
    simp only [Family.nodeCount] at hfirst hsecond
    simp only [stencils, List.mem_cons, List.not_mem_nil, or_false] at hstencil
    refine ⟨_, _, .of_tri3 hfamily, rfl, hc, ?_⟩
    rcases hstencil with rfl | rfl <;> norm_num [hdet, hfirst, hsecond, cellMeasure, hparts]
  · have hparts : partsPerCell .tri6 = 2 := rfl
    simp only [Family.nodeCount] at hfirst hsecond
    simp only [stencils, List.mem_cons, List.not_mem_nil, or_false] at hstencil
    refine ⟨_, _, .of_tri6 hfamily fun k => ?_, rfl, hc, ?_⟩
    · rcases k with - | - | k
      · rcases hstencil with rfl | rfl <;> norm_num [hfirst] <;> refine ⟨?_, ?_, ?_⟩ <;> ring
      · rcases hstencil with rfl | rfl <;> norm_num [hsecond] <;> refine ⟨?_, ?_, ?_⟩ <;> ring
      · norm_num [hfar]
    · rcases hstencil with rfl | rfl <;> norm_num [hdet, hfirst, hsecond, cellMeasure, hparts]

theorem mul_spacing_mul {k : ℕ} (hk : 0 < k) (lo hi : ℝ) (n : ℕ) :
    k * spacing lo hi (k * n) = spacing lo hi n := by
  have hne : (k : ℝ) ≠ 0 := Nat.cast_ne_zero.mpr hk.ne'
  rw [spacing, spacing, Nat.cast_mul, mul_div_assoc', mul_div_mul_left _ _ hne]

/-- All elements of the grid are placed affinely, with the same determinant. -/
theorem exists_isAffine_of_mem (hf : IsTile f) {c : Family × List ℤ} (hc : c ∈ tilingCells f nx ny)
    (he : e.IsMade c.1 (Mesh.nodesOf (Mesh.coordinateMatrix (tilingNodes f xlo xhi ylo yhi nx ny)) c.2)
      c.2 d) :
    e.family = f ∧ e.nodes.cols = 2 ∧ ∃ origin directions, e.IsAffine origin directions ∧
      directions.rows = 2 ∧ directions.cols = 2 ∧
        directions.det = cellMeasure f (spacing xlo xhi nx) (spacing ylo yhi ny) := by
  obtain ⟨j, hj, i, hi, stencil, hstencil, rfl⟩ := mem_tilingCells.mp hc
  have hcols : e.nodes.cols = 2 := by
    rw [he.nodes_eq]
    exact nodeDim_rectangleNodes
  have hentry (p : ℕ) (hp : p < f.nodeCount) : e.nodes.entry p 0 =
        xlo + (partsPerCell f * i : ℕ) * spacing xlo xhi (partsPerCell f * nx) +
          (stencil.getD p (0, 0)).2 * spacing xlo xhi (partsPerCell f * nx) ∧
      e.nodes.entry p 1 = ylo + (partsPerCell f * j : ℕ) * spacing ylo yhi (partsPerCell f * ny) +
          (stencil.getD p (0, 0)).1 * spacing ylo yhi (partsPerCell f * ny) := by
    have hlt : p < stencil.length := (length_of_mem_stencils hstencil).symm ▸ hp
    obtain ⟨hrow, hcolumn⟩ := le_of_mem_stencils hstencil _ (List.getElem_mem hlt)
    obtain ⟨hfirst, hsecond⟩ := entry_nodesOf_place xlo xhi ylo yhi
      (List.getElem?_eq_getElem hlt) (mul_add_le hj hrow) (mul_add_le hi hcolumn)
    rw [List.getD_eq_getElem _ _ hlt, he.nodes_eq]
    refine ⟨hfirst.trans ?_, hsecond.trans ?_⟩ <;>
    · push_cast
      ring
  have haffine := exists_isAffine hf hstencil he.family_eq hcols (fun p hp => (hentry p hp).1)
    fun p hp => (hentry p hp).2
  rw [mul_spacing_mul (partsPerCell_pos f), mul_spacing_mul (partsPerCell_pos f)] at haffine
  exact ⟨he.family_eq, hcols, haffine⟩

theorem detJ_of_mem (hf : IsTile f) (hx : xlo < xhi) (hy : ylo < yhi) (hnx : 0 < nx) (hny : 0 < ny)
    {c : Family × List ℤ} (hc : c ∈ tilingCells f nx ny)
    (he : e.IsMade c.1 (Mesh.nodesOf (Mesh.coordinateMatrix (tilingNodes f xlo xhi ylo yhi nx ny)) c.2)
      c.2 d) (x y : ℝ) :
    e.detJ [x, y] = .ok (cellMeasure f (spacing xlo xhi nx) (spacing ylo yhi ny)) := by
  obtain ⟨hfamily, -, origin, directions, haffine, hrows, hcols, hdet⟩ := exists_isAffine_of_mem hf hc he
  have hlagrange : e.family.IsLagrange := hfamily ▸ hf.isLagrange
  have hpos : 0 < directions.det :=
    hdet ▸ cellMeasure_pos f (spacing_pos hx hnx) (spacing_pos hy hny)
  obtain ⟨hmeasure, hpositive⟩ := haffine.measure_pos hlagrange (hrows.trans hcols.symm) hpos
  obtain ⟨rows, hgradient⟩ : ∃ rows, e.family.gradientRows [x, y] = .ok rows := by
    rw [hfamily]
    rcases hf with rfl | rfl | rfl <;> exact ⟨_, rfl⟩
  rw [haffine.detJ_eq hlagrange hpositive hgradient, hmeasure, hdet]

theorem signedArea_of_mem (hf : IsTile f) {c : Family × List ℤ} (hc : c ∈ tilingCells f nx ny)
    (he : e.IsMade c.1 (Mesh.nodesOf (Mesh.coordinateMatrix (tilingNodes f xlo xhi ylo yhi nx ny)) c.2)
      c.2 d) :
    e.signedArea = f.referenceMeasure * cellMeasure f (spacing xlo xhi nx) (spacing ylo yhi ny) := by
  obtain ⟨hfamily, hcols, origin, directions, haffine, -, -, hdet⟩ := exists_isAffine_of_mem hf hc he
  rw [haffine.signedArea_eq (hfamily ▸ hf) hcols, hfamily, hdet]

/-- The elements of one cell have the area of the cell. -/
theorem length_stencils_mul_area (hf : IsTile f) (width height : ℝ) :
    (stencils f).length * (f.referenceMeasure * cellMeasure f width height) = width * height := by
  rcases hf with rfl | rfl | rfl <;>
  · simp only [stencils, List.length_cons, List.length_nil, Family.referenceMeasure, cellMeasure]
    norm_num
    ring

end Elements

section Edges

/-- A node lies on an edge of the rectangle if its place is in the first or last row or column. -/
theorem hasPoint_iff (hx : xlo < xhi) (hy : ylo < yhi) (hnx : 0 < nx) (hny : 0 < ny) (r c : ℕ)
    (l : Location) : l.HasPoint xlo xhi ylo yhi [xlo + c * spacing xlo xhi nx, ylo + r * spacing ylo yhi ny] ↔
      l.HasPlace ny nx (r, c) := by
  have hfirst {lo hi : ℝ} {n : ℕ} (hlt : lo < hi) (hn : 0 < n) (i : ℕ) :
      lo + i * spacing lo hi n = lo ↔ i = 0 := by
    simp [(spacing_pos hlt hn).ne']
  have hlast {lo hi : ℝ} {n : ℕ} (hlt : lo < hi) (hn : 0 < n) (i : ℕ) :
      lo + i * spacing lo hi n = hi ↔ i = n := by
    rw [← eq_sub_iff_add_eq', ← mul_spacing hn, mul_left_inj' (spacing_pos hlt hn).ne', Nat.cast_inj]
  cases l with
  | left => exact hfirst hx hnx c
  | right => exact hlast hx hnx c
  | bottom => exact hfirst hy hny r
  | top => exact hlast hy hny r

end Edges

section Meshes

/-- It does not matter from where elements are numbered. -/
theorem ncard_image_succ (refs : Set (ℕ × ℕ)) :
    ((fun ref : ℕ × ℕ => (ref.1 + 1, ref.2)) '' refs).ncard = refs.ncard := by
  refine Set.ncard_image_of_injective _ fun ref ref' hsame => ?_
  simpa [Prod.ext_iff] using hsame

/-- A mesh that covers a rectangle by elements cut from `nx` by `ny` cells, side to side. -/
structure Tiles (m : Mesh ℝ) (f : Family) (xlo xhi ylo yhi : ℝ) (nx ny : ℕ) : Prop where
  nodes_eq : m.nodes = tilingNodes f xlo xhi ylo yhi nx ny
  exists_element : ∀ k : ℤ, 1 ≤ k → k ≤ m.nodes.length → ∃ c ∈ m.cells, k ∈ c.element.nodeIds
  exterior_iff : ∀ ref side, m.side? ref = some side → (side.onBoundary = true ↔
    ∃ l : Location, ∀ k ∈ m.sideNodeIds ref, l.HasPoint xlo xhi ylo yhi (m.point k))
  ncard_exterior : m.exteriorSides.ncard = 2 * (nx + ny)
  exists_neighbor : ∀ ref side, m.side? ref = some side → side.onBoundary = false →
    ∃ other, other ≠ ref ∧ m.neighbor? ref = some other ∧ m.alike ref = {ref, other}
  nodes_of_exterior : ∀ r : Region, r.kind = .boundary → (∀ ref, ref ∈ r.sides ↔ ref ∈ m.exteriorSides) →
    ∀ k, k ∈ m.regionNodeIds r ↔ 1 ≤ k ∧ k ≤ m.nodes.length ∧
      ∃ l : Location, l.HasPoint xlo xhi ylo yhi (m.point k)
  detJ_eq : ∀ c ∈ m.cells, ∀ x y, c.element.detJ [x, y] =
    .ok (cellMeasure f (spacing xlo xhi nx) (spacing ylo yhi ny))
  sum_area : ((m.cells.map Cell.element).map Element.signedArea).sum = (xhi - xlo) * (yhi - ylo)

section Conditions

variable (hf : IsTile f) (hx : xlo < xhi) (hy : ylo < yhi) (hnx : 0 < nx) (hny : 0 < ny)
  (h : m.IsOver (tilingNodes f xlo xhi ylo yhi nx ny) (tilingCells f nx ny) d)
include hf hx hy hnx hny h

omit hf hx hy hnx hny in
theorem point_nodeId {r c : ℕ} (hr : r ≤ partsPerCell f * ny) (hc : c ≤ partsPerCell f * nx) :
    m.point (nodeId (partsPerCell f * nx + 1) r c) =
      [xlo + c * spacing xlo xhi (partsPerCell f * nx), ylo + r * spacing ylo yhi (partsPerCell f * ny)] := by
  rw [Mesh.point, h.nodes_eq, tilingNodes, List.getD_eq_getElem?_getD,
    getElem?_rectangleNodes xlo xhi ylo yhi hr hc, Option.getD_some]

omit hf in
theorem hasPoint_nodeId_iff {r c : ℕ} (hr : r ≤ partsPerCell f * ny) (hc : c ≤ partsPerCell f * nx)
    (l : Location) : l.HasPoint xlo xhi ylo yhi (m.point (nodeId (partsPerCell f * nx + 1) r c)) ↔
      l.HasPlace (partsPerCell f * ny) (partsPerCell f * nx) (r, c) := by
  rw [point_nodeId h hr hc]
  exact hasPoint_iff hx hy (Nat.mul_pos (partsPerCell_pos f) hnx) (Nat.mul_pos (partsPerCell_pos f) hny) r c l

/-- The nodes of the exterior sides are the nodes on the edges of the rectangle. -/
theorem mem_exterior_iff {k : ℤ} :
    (∃ n s ids, Mesh.IsExterior (tilingCells f nx ny) n s ids ∧ k ∈ ids) ↔ 1 ≤ k ∧ k ≤ m.nodes.length ∧
      ∃ l : Location, l.HasPoint xlo xhi ylo yhi (m.point k) := by
  rw [exists_isExterior_iff hf hnx hny, h.nodes_eq, tilingNodes, length_rectangleNodes]
  constructor
  · rintro ⟨r, c, hr, hc, rfl, l, hl⟩
    obtain ⟨hone, hle⟩ := nodeId_bounds hr hc
    exact ⟨hone, hle, l, (hasPoint_nodeId_iff hx hy hnx hny h hr hc l).mpr hl⟩
  · rintro ⟨hone, hle, l, hl⟩
    obtain ⟨r, c, hr, hc, rfl⟩ := exists_place hone hle
    exact ⟨r, c, hr, hc, rfl, l, (hasPoint_nodeId_iff hx hy hnx hny h hr hc l).mp hl⟩

omit hx hy hnx hny in
/-- The sides of the mesh are those of the cells of the grid. -/
theorem exists_sideAt {ref : Mesh.SideRef} {side : CellSide} (hside : m.side? ref = some side) :
    ∃ n s j i b, ref = (n + 1, s) ∧ SideAt f nx ny n s j i b ∧
      m.sideNodeIds ref = cellNodes f nx j i b.places ∧ (side.onBoundary = true ↔
        ∃ l : Location, l.HasPlace (2 * ny) (2 * nx) (2 * j + b.middle.1, 2 * i + b.middle.2)) := by
  obtain ⟨n, c, s, rfl, hc, hs⟩ := Mesh.side?_eq_some.mp hside
  have hids := (Mesh.sideOf_eq_some h.reachable.wellFormed h.frozen).mpr ⟨c, side, hc, hs, rfl⟩
  rw [h.connectivity_eq] at hids
  obtain ⟨j, i, b, hat, hnodes⟩ := sideOf_tilingCells.mp hids
  refine ⟨n, s, j, i, b, rfl, hat, (Mesh.sideNodeIds_eq hc hs).trans hnodes, ?_⟩
  have hexterior : side.onBoundary = true ↔ Mesh.IsExterior (tilingCells f nx ny) n s (c.sideNodeIds side) := by
    rw [← h.connectivity_eq, Mesh.isExterior_iff h.reachable h.frozen]
    constructor
    · exact fun hboundary => ⟨c, side, hc, hs, hboundary, rfl⟩
    · rintro ⟨c', side', hc', hs', hboundary, -⟩
      obtain rfl := Option.some.inj (hc.symm.trans hc')
      obtain rfl := Option.some.inj (hs.symm.trans hs')
      exact hboundary
  rw [hexterior, hnodes]
  constructor
  · intro hunique
    refine not_forall_not.mp fun hinner => ?_
    obtain ⟨n', s', hshared⟩ := hat.exists_isShared hf hinner
    exact hshared.not_isExterior hunique.sideOf_eq hunique
  · rintro ⟨l, hl⟩
    exact hat.isExterior hf hl

omit hx hy in
/-- Every node of the grid belongs to an element. -/
theorem exists_element {k : ℤ} (hone : 1 ≤ k) (hle : k ≤ m.nodes.length) :
    ∃ c ∈ m.cells, k ∈ c.element.nodeIds := by
  rw [h.nodes_eq, tilingNodes, length_rectangleNodes] at hle
  obtain ⟨c, hc, hk⟩ := exists_mem_tilingCells hf hnx hny hone hle
  obtain ⟨n, hn, rfl⟩ := List.mem_iff_getElem.mp hc
  have hcells := h.forall₂_cells
  have hn' : n < m.cells.length := hcells.length_eq ▸ hn
  exact ⟨_, List.getElem_mem hn', (hcells.get hn hn').1.nodeIds_eq ▸ hk⟩

/-- All nodes of a side lie on an edge of the rectangle exactly if its middle does. -/
theorem forall_hasPoint_iff {n s j i : ℕ} {b : Border} (hat : SideAt f nx ny n s j i b) (l : Location) :
    (∀ k ∈ cellNodes f nx j i b.places, l.HasPoint xlo xhi ylo yhi (m.point k)) ↔
      l.HasPlace (2 * ny) (2 * nx) (2 * j + b.middle.1, 2 * i + b.middle.2) := by
  rw [← hat.forall_hasPlace_iff hf l, cellNodes, place, List.forall_mem_map]
  refine forall₂_congr fun o ho => ?_
  obtain ⟨hrow, hcolumn⟩ := hat.places_le hf o ho
  exact hasPoint_nodeId_iff hx hy hnx hny h hrow hcolumn l

/-- A side is exterior exactly if its nodes lie on one edge of the rectangle. -/
theorem onBoundary_iff {ref : Mesh.SideRef} {side : CellSide} (hside : m.side? ref = some side) :
    side.onBoundary = true ↔
      ∃ l : Location, ∀ k ∈ m.sideNodeIds ref, l.HasPoint xlo xhi ylo yhi (m.point k) := by
  obtain ⟨n, s, j, i, b, rfl, hat, hids, hboundary⟩ := exists_sideAt hf h hside
  rw [hboundary, hids]
  exact exists_congr fun l => (forall_hasPoint_iff hf hx hy hnx hny h hat l).symm

omit hx hy in
theorem ncard_exteriorSides : m.exteriorSides.ncard = 2 * (nx + ny) := by
  have himage : m.exteriorSides = (fun ref : ℕ × ℕ => (ref.1 + 1, ref.2)) ''
      {ref : ℕ × ℕ | ∃ ids, Mesh.IsExterior (tilingCells f nx ny) ref.1 ref.2 ids} := by
    ext ref
    rw [Mesh.mem_exteriorSides h.reachable h.frozen, h.connectivity_eq]
    simp only [Set.mem_image, Set.mem_ofPred_eq, Prod.exists]
    constructor
    · rintro ⟨n, s, ids, rfl, hexterior⟩
      exact ⟨n, s, ⟨ids, hexterior⟩, rfl⟩
    · rintro ⟨n, s, ⟨ids, hexterior⟩, rfl⟩
      exact ⟨n, s, ids, rfl, hexterior⟩
  rw [himage, ncard_image_succ, ncard_isExterior hf hnx hny]

omit hx hy hnx hny in
/-- A side inside the rectangle is shared with exactly one other element. -/
theorem exists_other {ref : Mesh.SideRef} {side : CellSide} (hside : m.side? ref = some side)
    (hinner : side.onBoundary = false) :
    ∃ other, other ≠ ref ∧ m.neighbor? ref = some other ∧ m.alike ref = {ref, other} := by
  obtain ⟨n, s, j, i, b, rfl, hat, -, hboundary⟩ := exists_sideAt hf h hside
  rw [hinner] at hboundary
  have hnone : ∀ l : Location, ¬ l.HasPlace (2 * ny) (2 * nx) (2 * j + b.middle.1, 2 * i + b.middle.2) :=
    fun l hl => Bool.false_ne_true (hboundary.mpr ⟨l, hl⟩)
  obtain ⟨n', s', hshared⟩ := hat.exists_isShared hf hnone
  rw [← h.connectivity_eq] at hshared
  refine ⟨(n' + 1, s'), fun hsame => hshared.ne ?_, hshared.neighbor?_eq h.reachable h.frozen,
    hshared.alike_eq h.reachable.wellFormed h.frozen⟩
  simpa using hsame.symm

omit hx hy in
/-- The elements have the area of the rectangle altogether. -/
theorem sum_signedArea :
    ((m.cells.map Cell.element).map Element.signedArea).sum = (xhi - xlo) * (yhi - ylo) := by
  have hlength : (tilingCells f nx ny).length = ny * nx * (stencils f).length :=
    length_cells fun _ _ => List.length_map _
  rw [h.sum_cells (List.map_id _).symm fun c hc e he => signedArea_of_mem hf hc he, List.map_const',
    List.sum_replicate, hlength, nsmul_eq_mul, Nat.cast_mul, mul_assoc, length_stencils_mul_area hf,
    ← mul_spacing hnx, ← mul_spacing hny]
  push_cast
  ring

theorem tiles : Tiles m f xlo xhi ylo yhi nx ny where
  nodes_eq := h.nodes_eq
  exists_element _ hone hle := exists_element hf hnx hny h hone hle
  exterior_iff _ _ hside := onBoundary_iff hf hx hy hnx hny h hside
  ncard_exterior := ncard_exteriorSides hf hnx hny h
  exists_neighbor _ _ hside hinner := exists_other hf h hside hinner
  nodes_of_exterior r hkind hr k := by
    rw [Mesh.mem_regionNodeIds_exterior h.reachable h.frozen hkind hr, h.connectivity_eq]
    exact mem_exterior_iff hf hx hy hnx hny h
  detJ_eq := h.of_mem_cells fun _ hc _ he => detJ_of_mem hf hx hy hnx hny hc he
  sum_area := sum_signedArea hf hnx hny h

end Conditions

/-- For every number of cells in both directions the grid of a rectangle is a conforming tiling, as soon
as it is frozen and however it is tagged then. The tag of its whole exterior has the nodes on the edges. -/
theorem grid_tiles (hf : IsTile f) {space : Datum ℝ} (hspace : Space.dofsPerNode space 2 = .ok d)
    (hx : xlo < xhi) (hy : ylo < yhi) (hnx : 0 < nx) (hny : 0 < ny) :
    ∃ grid, rectangleOfData space (.real xlo) (.real xhi) (.real ylo) (.real yhi) (.integer nx)
        (.integer ny) f.name = .ok grid ∧
      grid.freeze.1 = .ok () ∧
      (∀ m, Relation.ReflTransGen Mesh.Step grid.freeze.2 m → Tiles m f xlo xhi ylo yhi nx ny) ∧
      ∀ (tag : TagId) (essential : Bool), tag.IsPlain → ∃ r m,
        grid.freeze.2.addBoundary tag [] essential = (.ok r, m) ∧
        ∀ k, k ∈ m.regionNodeIds r ↔ 1 ≤ k ∧ k ≤ m.nodes.length ∧
          ∃ l : Location, l.HasPoint xlo xhi ylo yhi (m.point k) := by
  obtain ⟨hfreeze, hover, hregions⟩ := isOver_tiling xlo xhi ylo yhi hf hspace hnx hny
  refine ⟨_, rectangleOfData_eq_tiling hf space hx hy hnx hny, hfreeze,
    fun m hm => tiles hf hx hy hnx hny (hover.of_steps hm), fun tag essential htag => ?_⟩
  obtain ⟨r, m, hadd, hm, -, -, hexterior⟩ := hover.exists_tagExterior hregions htag essential
  refine ⟨r, m, hadd, fun k => ?_⟩
  rw [hexterior, mem_exterior_iff hf hx hy hnx hny hm]

theorem grid_of_triangles_tiles : ∃ grid,
    rectangleOfData (.integer 1) (.real (-1)) (.real 2) (.real 0) (.real 1) (.integer (3 : ℕ))
        (.integer (1 : ℕ)) "Tri6" = .ok grid ∧
      grid.freeze.1 = .ok () ∧
      (∀ m, Relation.ReflTransGen Mesh.Step grid.freeze.2 m → Tiles m .tri6 (-1) 2 0 1 3 1) ∧
      ∀ (tag : TagId) (essential : Bool), tag.IsPlain → ∃ r m,
        grid.freeze.2.addBoundary tag [] essential = (.ok r, m) ∧
        ∀ k, k ∈ m.regionNodeIds r ↔ 1 ≤ k ∧ k ≤ m.nodes.length ∧
          ∃ l : Location, l.HasPoint (-1) 2 0 1 (m.point k) :=
  grid_tiles (.inr (.inr rfl)) rfl (by norm_num) one_pos (by norm_num) one_pos

end Meshes

end Grid
end WeakForm

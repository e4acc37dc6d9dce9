import WeakForm.Proofs.Mesh.Scaling

/-!
# Sides on the edges of a rectangle

Along each edge of the grid of a rectangle there are as many exterior sides as cells. They are told apart by
their places exactly if the tolerance is less than the width of a cell and less than the height of the rectangle.
Otherwise the first side at the bottom is known as one on the left, or those at the top as ones at the bottom.
-/

namespace WeakForm

/-- The number of steps from an edge of a lattice with the given numbers of steps. -/
def Location.steps (rows columns : ℕ) (o : ℕ × ℕ) : Location → ℕ
  | left => o.2
  | right => columns - o.2
  | bottom => o.1
  | top => rows - o.1

/-- The exterior sides on one edge of a rectangle. -/
def Mesh.edgeSides (m : Mesh ℝ) (xlo xhi ylo yhi : ℝ) (l : Location) : Set SideRef :=
  {ref ∈ m.exteriorSides | ∀ k ∈ m.sideNodeIds ref, l.HasPoint xlo xhi ylo yhi (m.point k)}

namespace Grid

variable {f : Family} {nx ny n s j i r c d : ℕ} {b : Border} {l l' : Location}

section Steps

theorem steps_eq_zero (hl : l.HasPlace ny nx (r, c)) : l.steps ny nx (r, c) = 0 := by
  cases l <;> simp only [Location.HasPlace, Location.steps] at hl ⊢ <;> omega

/-- A side of a cell with no node as far from an edge as the opposite edge lies on the edge. -/
theorem hasPlace_of_steps_lt (hf : IsTile f) (l : Location) : ∀ b ∈ borders f,
    (∀ o ∈ b.places, l.steps (partsPerCell f) (partsPerCell f) o < partsPerCell f) → l.HasPlace 2 2 b.middle := by
  rcases hf with rfl | rfl | rfl <;> cases l <;> decide

/-- Places less than a cell away from an edge are in the cells at this edge. -/
theorem hasPlace_of_steps_mul_lt {k : ℕ} (hj : j < ny) (hi : i < nx) {o : ℕ × ℕ} (ho : o.1 ≤ k ∧ o.2 ≤ k)
    (h : l.steps (k * ny) (k * nx) (k * j + o.1, k * i + o.2) < k) :
    l.HasPlace (ny - 1) (nx - 1) (j, i) ∧ l.steps k k o < k := by
  have hfirst {i a : ℕ} (h : k * i + a < k) : i = 0 ∧ a < k := by
    have hzero : k * i < k * 1 := by omega
    exact ⟨Nat.lt_one_iff.mp (Nat.lt_of_mul_lt_mul_left hzero), by omega⟩
  have hlast {i n a : ℕ} (hi : i < n) (ha : a ≤ k) (h : k * n - (k * i + a) < k) : i = n - 1 ∧ k - a < k := by
    obtain ⟨d, rfl⟩ := Nat.exists_eq_add_of_lt hi
    have hsum : k * (i + d + 1) = k * i + k * d + k := by ring
    have hzero : k * d < k * 1 := by omega
    have hd := Nat.lt_one_iff.mp (Nat.lt_of_mul_lt_mul_left hzero)
    exact ⟨by omega, by omega⟩
  cases l with
  | left => exact hfirst h
  | right => exact hlast hi ho.2 h
  | bottom => exact hfirst h
  | top => exact hlast hj ho.1 h

variable (hf : IsTile f) (h : SideAt f nx ny n s j i b)
include hf h

/-- A side less than a cell away from an edge lies on it. -/
theorem SideAt.hasPlace_of_steps_lt (hnear : ∀ o ∈ b.places, l.steps (partsPerCell f * ny) (partsPerCell f * nx)
      (partsPerCell f * j + o.1, partsPerCell f * i + o.2) < partsPerCell f) :
    l.HasPlace (2 * ny) (2 * nx) (2 * j + b.middle.1, 2 * i + b.middle.2) := by
  have hplaces := fun o ho =>
    hasPlace_of_steps_mul_lt h.row_lt h.column_lt (Grid.places_le hf b h.mem o ho) (hnear o ho)
  obtain ⟨o, ho⟩ := List.exists_mem_of_ne_nil _ (places_ne_nil hf b h.mem)
  exact (hasPlace_iff two_pos h.row_lt h.column_lt (middle_le hf b h.mem) l).mpr
    ⟨(hplaces o ho).1, Grid.hasPlace_of_steps_lt hf l b h.mem fun o ho => (hplaces o ho).2⟩

/-- No side lies on two edges. -/
theorem SideAt.edge_unique (hl : l.HasPlace (2 * ny) (2 * nx) (2 * j + b.middle.1, 2 * i + b.middle.2))
    (hl' : l'.HasPlace (2 * ny) (2 * nx) (2 * j + b.middle.1, 2 * i + b.middle.2)) : l' = l := by
  have hcases := h.middle_cases hf
  have hj := h.row_lt
  have hi := h.column_lt
  simp only [Prod.ext_iff] at hcases
  cases l <;> cases l' <;> simp only [Location.HasPlace] at hl hl' <;> first | rfl | omega

omit h in
/-- Every cell at an edge has a side on it. -/
theorem exists_sideAt_edge (hj : j < ny) (hi : i < nx) (hl : l.HasPlace (ny - 1) (nx - 1) (j, i)) :
    ∃ n s b, SideAt f nx ny n s j i b ∧
      l.HasPlace (2 * ny) (2 * nx) (2 * j + b.middle.1, 2 * i + b.middle.2) := by
  have hcorner : ∃ r ∈ List.range (partsPerCell f + 1), ∃ c ∈ List.range (partsPerCell f + 1),
      l.HasPlace (partsPerCell f) (partsPerCell f) (r, c) := by
    have hzero : 0 ∈ List.range (partsPerCell f + 1) := by simp
    have hlast : partsPerCell f ∈ List.range (partsPerCell f + 1) := by simp
    cases l with
    | left => exact ⟨0, hzero, 0, hzero, rfl⟩
    | right => exact ⟨0, hzero, _, hlast, rfl⟩
    | bottom => exact ⟨0, hzero, 0, hzero, rfl⟩
    | top => exact ⟨_, hlast, 0, hzero, rfl⟩
  obtain ⟨r, hr, c, hc, hplace⟩ := hcorner
  obtain ⟨b, hb, hmiddle, -⟩ := exists_border hf l r hr c hc hplace
  exact ⟨_, _, b, ⟨hj, hi, hb, rfl, rfl⟩,
    (hasPlace_iff two_pos hj hi (middle_le hf b hb) l).mpr ⟨hl, hmiddle⟩⟩

end Steps

section Boxes

/-- The length of a step away from an edge of a lattice. -/
noncomputable def stepLength (xlo xhi ylo yhi : ℝ) (nx ny : ℕ) : Location → ℝ
  | .left | .right => spacing xlo xhi nx
  | .bottom | .top => spacing ylo yhi ny

/-- A column that holds equal steps from one number to another goes from the one to the other. -/
theorem columnRange_of_steps {A : DenseMatrix ℝ} (hrows : 0 < A.rows) {lo hi : ℝ} (hlohi : lo < hi) (hn : 0 < n)
    (hmem : ∀ x, (∃ i < A.rows, A.entry i j = x) ↔ ∃ k ≤ n, x = lo + (k : ℕ) * spacing lo hi n) :
    Mesh.columnRange A j = (lo, hi) := by
  obtain ⟨hleast, hgreatest⟩ := Mesh.columnRange_spec A hrows j
  have hstep := (spacing_pos hlohi hn).le
  have hlow : IsLeast {x | ∃ i < A.rows, A.entry i j = x} lo := by
    refine ⟨(hmem lo).mpr ⟨0, n.zero_le, by simp⟩, fun x hx => ?_⟩
    obtain ⟨k, -, rfl⟩ := (hmem x).mp hx
    exact le_add_of_nonneg_right (by positivity)
  have hhigh : IsGreatest {x | ∃ i < A.rows, A.entry i j = x} hi := by
    refine ⟨(hmem hi).mpr ⟨n, le_rfl, by rw [mul_spacing hn]; ring⟩, fun x hx => ?_⟩
    obtain ⟨k, hk, rfl⟩ := (hmem x).mp hx
    have hle : (k : ℝ) * spacing lo hi n ≤ n * spacing lo hi n :=
      mul_le_mul_of_nonneg_right (by exact_mod_cast hk) hstep
    rw [mul_spacing hn] at hle
    linarith
  exact Prod.ext (hleast.unique hlow) (hgreatest.unique hhigh)

theorem rows_rectangleNodes (xlo xhi ylo yhi : ℝ) (nx ny : ℕ) :
    (Mesh.coordinateMatrix (rectangleNodes xlo xhi ylo yhi nx ny)).rows = (ny + 1) * (nx + 1) :=
  length_rectangleNodes

/-- The coordinates of the nodes of a lattice. -/
theorem exists_entry_rectangleNodes (xlo xhi ylo yhi : ℝ) (nx ny j : ℕ) (x : ℝ) :
    (∃ i < (Mesh.coordinateMatrix (rectangleNodes xlo xhi ylo yhi nx ny)).rows,
      (Mesh.coordinateMatrix (rectangleNodes xlo xhi ylo yhi nx ny)).entry i j = x) ↔
      ∃ r ≤ ny, ∃ c ≤ nx, x = [xlo + c * spacing xlo xhi nx, ylo + r * spacing ylo yhi ny].getD j 0 := by
  have hentry {r c : ℕ} (hr : r ≤ ny) (hc : c ≤ nx) :=
    Mesh.entry_coordinateMatrix (getElem?_rectangleNodes xlo xhi ylo yhi hr hc) j
  rw [rows_rectangleNodes]
  constructor
  · rintro ⟨i, hi, rfl⟩
    have hpositive : 1 ≤ (i : ℤ) + 1 := by omega
    have hlast : (i : ℤ) + 1 ≤ ((ny + 1) * (nx + 1) : ℕ) := by omega
    obtain ⟨r, c, hr, hc, hk⟩ := exists_place hpositive hlast
    obtain rfl : i = (nodeId (nx + 1) r c - 1).toNat := by omega
    exact ⟨r, hr, c, hc, hentry hr hc⟩
  · rintro ⟨r, hr, c, hc, rfl⟩
    have hbounds := nodeId_bounds hr hc
    exact ⟨_, by omega, hentry hr hc⟩

variable {xlo xhi ylo yhi : ℝ} (hx : xlo < xhi) (hy : ylo < yhi) (hnx : 0 < nx) (hny : 0 < ny)
include hx hy hnx hny

/-- The bounding box of a lattice is its rectangle. -/
theorem columnRange_rectangleNodes :
    Mesh.columnRange (Mesh.coordinateMatrix (rectangleNodes xlo xhi ylo yhi nx ny)) 0 = (xlo, xhi) ∧
      Mesh.columnRange (Mesh.coordinateMatrix (rectangleNodes xlo xhi ylo yhi nx ny)) 1 = (ylo, yhi) := by
  have hrows : 0 < (Mesh.coordinateMatrix (rectangleNodes xlo xhi ylo yhi nx ny)).rows := by
    rw [rows_rectangleNodes]
    positivity
  constructor
  · refine columnRange_of_steps hrows hx hnx fun x => ?_
    rw [exists_entry_rectangleNodes]
    exact ⟨fun ⟨_, _, c, hc, h⟩ => ⟨c, hc, h⟩, fun ⟨c, hc, h⟩ => ⟨0, ny.zero_le, c, hc, h⟩⟩
  · refine columnRange_of_steps hrows hy hny fun x => ?_
    rw [exists_entry_rectangleNodes]
    exact ⟨fun ⟨r, hr, _, _, h⟩ => ⟨r, hr, h⟩, fun ⟨r, hr, h⟩ => ⟨r, hr, 0, nx.zero_le, h⟩⟩

variable {m : Mesh ℝ} (hnodes : m.nodes = rectangleNodes xlo xhi ylo yhi nx ny)
include hnodes

theorem extent_rectangleNodes : m.extent = max (xhi - xlo) (yhi - ylo) := by
  obtain ⟨hfirst, hsecond⟩ := columnRange_rectangleNodes hx hy hnx hny
  have hwidths : (List.range 2).map (Mesh.boxWidth (Mesh.coordinateMatrix m.nodes)) =
      [xhi - xlo, yhi - ylo] := by
    simp only [List.range_succ, List.range_zero, List.nil_append, List.map_cons, List.map_nil,
      List.cons_append, Mesh.boxWidth, hnodes, hfirst, hsecond]
  rw [Mesh.extent, hnodes, nodeDim_rectangleNodes, ← hnodes, hwidths]
  rfl

/-- Whether a node lies on a face is a matter of the steps to this edge. -/
theorem nodeOn_nodeId_iff {t : ℝ} (hr : r ≤ ny) (hc : c ≤ nx) (l : Location) :
    m.NodeOn t l (nodeId (nx + 1) r c) ↔ l.steps ny nx (r, c) * stepLength xlo xhi ylo yhi nx ny l ≤ t := by
  obtain ⟨hfirst, hsecond⟩ := columnRange_rectangleNodes hx hy hnx hny
  have hentry := Mesh.entry_coordinateMatrix (getElem?_rectangleNodes xlo xhi ylo yhi hr hc)
  have hlo {lo hi : ℝ} {n : ℕ} (hlohi : lo < hi) (hn : 0 < n) (k : ℕ) :
      |lo + k * spacing lo hi n - lo| = k * spacing lo hi n := by
    have hstep := spacing_pos hlohi hn
    rw [add_sub_cancel_left, abs_of_nonneg (by positivity)]
  have hhi {lo hi : ℝ} {n k : ℕ} (hlohi : lo < hi) (hn : 0 < n) (hk : k ≤ n) :
      |lo + k * spacing lo hi n - hi| = (n - k : ℕ) * spacing lo hi n := by
    have hstep := spacing_pos hlohi hn
    have hback : lo + k * spacing lo hi n - hi = -((n - k : ℕ) * spacing lo hi n) := by
      have hwhole : n * spacing lo hi n = hi - lo := mul_spacing hn
      rw [Nat.cast_sub hk]
      linarith
    rw [hback, abs_neg, abs_of_nonneg (by positivity)]
  rw [Mesh.nodeOn_iff, hnodes, hentry]
  cases l with
  | left => rw [Mesh.boxSide, hfirst]; exact (hlo hx hnx c).symm ▸ Iff.rfl
  | right => rw [Mesh.boxSide, hfirst]; exact (hhi hx hnx hc).symm ▸ Iff.rfl
  | bottom => rw [Mesh.boxSide, hsecond]; exact (hlo hy hny r).symm ▸ Iff.rfl
  | top => rw [Mesh.boxSide, hsecond]; exact (hhi hy hny hr).symm ▸ Iff.rfl

end Boxes

section Meshes

variable {xlo xhi ylo yhi t : ℝ} {m : Mesh ℝ} {ref : Mesh.SideRef}
  (hf : IsTile f) (hx : xlo < xhi) (hy : ylo < yhi) (hnx : 0 < nx) (hny : 0 < ny)
  (h : m.IsOver (tilingNodes f xlo xhi ylo yhi nx ny) (tilingCells f nx ny) d)
include hf hx hy hnx hny h

omit hf hx hy hnx hny in
theorem sideNodeIds_of_sideAt (hat : SideAt f nx ny n s j i b) :
    m.sideNodeIds (n + 1, s) = cellNodes f nx j i b.places :=
  Mesh.sideNodeIds_of_sideOf h.reachable.wellFormed h.frozen
    (h.connectivity_eq ▸ sideOf_tilingCells.mpr ⟨j, i, b, hat, rfl⟩)

/-- The exterior sides on an edge are those with their middles on it. -/
theorem mem_edgeSides : ref ∈ m.edgeSides xlo xhi ylo yhi l ↔ ∃ n s j i b, ref = (n + 1, s) ∧
    SideAt f nx ny n s j i b ∧ l.HasPlace (2 * ny) (2 * nx) (2 * j + b.middle.1, 2 * i + b.middle.2) := by
  constructor
  · rintro ⟨⟨side, hside, -⟩, hon⟩
    obtain ⟨n, s, j, i, b, rfl, hat, hids, -⟩ := exists_sideAt hf h hside
    rw [hids] at hon
    exact ⟨n, s, j, i, b, rfl, hat, (forall_hasPoint_iff hf hx hy hnx hny h hat l).mp hon⟩
  · rintro ⟨n, s, j, i, b, rfl, hat, hl⟩
    refine ⟨(Mesh.mem_exteriorSides h.reachable h.frozen).mpr
      ⟨n, s, _, rfl, h.connectivity_eq ▸ hat.isExterior hf hl⟩, ?_⟩
    rw [sideNodeIds_of_sideAt h hat]
    exact (forall_hasPoint_iff hf hx hy hnx hny h hat l).mpr hl

/-- There are as many exterior sides on an edge as cells along it. -/
theorem ncard_edgeSides (l : Location) : (m.edgeSides xlo xhi ylo yhi l).ncard = edgeCells nx ny l := by
  have himage : m.edgeSides xlo xhi ylo yhi l = (fun ref : ℕ × ℕ => (ref.1 + 1, ref.2)) ''
      {ref : ℕ × ℕ | ∃ j i b, SideAt f nx ny ref.1 ref.2 j i b ∧ ∃ l' : Location, (l' == l) = true ∧
        l'.HasPlace (2 * ny) (2 * nx) (2 * j + b.middle.1, 2 * i + b.middle.2)} := by
    ext ref
    simp only [mem_edgeSides hf hx hy hnx hny h, Set.mem_image, Set.mem_ofPred_eq, Prod.exists, beq_iff_eq,
      exists_eq_left]
    constructor
    · rintro ⟨n, s, j, i, b, rfl, hat, hl⟩
      exact ⟨n, s, ⟨j, i, b, hat, hl⟩, rfl⟩
    · rintro ⟨n, s, ⟨j, i, b, hat, hl⟩, rfl⟩
      exact ⟨n, s, j, i, b, rfl, hat, hl⟩
  rw [himage, ncard_image_succ, ncard_sideAt hf hnx hny fun l' => l' == l]
  simp only [beq_iff_eq, Finset.sum_ite_eq', Finset.mem_univ, if_true]

/-- A side lies on a face if no node of it is too many steps away from that edge. -/
theorem sideOn_iff (hat : SideAt f nx ny n s j i b) (l : Location) : m.SideOn t l (n + 1, s) ↔
    ∀ o ∈ b.places, l.steps (partsPerCell f * ny) (partsPerCell f * nx)
        (partsPerCell f * j + o.1, partsPerCell f * i + o.2) *
      stepLength xlo xhi ylo yhi (partsPerCell f * nx) (partsPerCell f * ny) l ≤ t := by
  rw [Mesh.SideOn, sideNodeIds_of_sideAt h hat, cellNodes, place, List.forall_mem_map]
  refine forall₂_congr fun o ho => ?_
  obtain ⟨hrow, hcolumn⟩ := hat.places_le hf o ho
  exact nodeOn_nodeId_iff hx hy (Nat.mul_pos (partsPerCell_pos f) hnx) (Nat.mul_pos (partsPerCell_pos f) hny)
    h.nodes_eq hrow hcolumn l

/-- For a tolerance less than the width of a cell and the height of the rectangle, a side on an edge has its
place there. -/
theorem hasFace_of_mem_edgeSides (hpos : 0 ≤ t) (ht : t < min (spacing xlo xhi nx) (yhi - ylo))
    (hmem : ref ∈ m.edgeSides xlo xhi ylo yhi l) : m.HasFace t ref l := by
  have hexterior : m.IsExteriorSide ref := hmem.1
  obtain ⟨n, s, j, i, b, rfl, hat, hl⟩ := (mem_edgeSides hf hx hy hnx hny h).mp hmem
  obtain ⟨hwidth, hheight⟩ := lt_min_iff.mp ht
  have hon := (hat.forall_hasPlace_iff hf l).mpr hl
  have hk := partsPerCell_pos f
  -- on the left and on the right only sides lie that are on this edge
  have hsideways (l' : Location) (hstep : stepLength xlo xhi ylo yhi (partsPerCell f * nx)
      (partsPerCell f * ny) l' = spacing xlo xhi (partsPerCell f * nx)) (hne : l' ≠ l) :
      ¬ m.SideOn t l' (n + 1, s) := by
    intro hside
    refine hne (hat.edge_unique hf hl (hat.hasPlace_of_steps_lt hf fun o ho => ?_))
    have hle := (sideOn_iff hf hx hy hnx hny h hat l').mp hside o ho
    rw [hstep] at hle
    rw [← mul_spacing_mul hk xlo xhi nx] at hwidth
    exact_mod_cast lt_of_mul_lt_mul_right (hle.trans_lt hwidth)
      (spacing_pos hx (Nat.mul_pos hk hnx)).le
  refine ⟨hexterior, (sideOn_iff hf hx hy hnx hny h hat l).mpr fun o ho => ?_, ?_, fun l' hrank => ?_⟩
  · rw [steps_eq_zero (hon o ho), Nat.cast_zero, zero_mul]
    exact hpos
  · rw [(h.reachable.placed h.frozen).dim_eq, h.nodes_eq, tilingNodes, nodeDim_rectangleNodes]
    cases l <;> decide
  · cases l' with
    | left => exact hsideways .left rfl (by rintro rfl; exact absurd hrank (by decide))
    | right => exact hsideways .right rfl (by rintro rfl; exact absurd hrank (by decide))
    | bottom =>
      intro hside
      obtain rfl : l = .top := by cases l <;> first | rfl | exact absurd hrank (by decide)
      obtain ⟨o, ho⟩ := List.exists_mem_of_ne_nil _ (places_ne_nil hf b hat.mem)
      have htop : partsPerCell f * j + o.1 = partsPerCell f * ny := hon o ho
      have hle := (sideOn_iff hf hx hy hnx hny h hat .bottom).mp hside o ho
      rw [Location.steps, htop, stepLength, mul_spacing (Nat.mul_pos hk hny)] at hle
      linarith
    | top => cases l <;> exact absurd hrank (by decide)

/-- Every exterior side is on an edge. -/
theorem exists_mem_edgeSides (hexterior : m.IsExteriorSide ref) :
    ∃ l, ref ∈ m.edgeSides xlo xhi ylo yhi l := by
  obtain ⟨side, hside, hboundary⟩ := hexterior
  obtain ⟨l, hl⟩ := (onBoundary_iff hf hx hy hnx hny h hside).mp hboundary
  exact ⟨l, ⟨side, hside, hboundary⟩, hl⟩

/-- The faces tell the edges apart exactly if the tolerance is less than the width of a cell and the height
of the rectangle. -/
theorem hasFace_iff_mem_edgeSides (hpos : 0 ≤ t) :
    (∀ l ref, m.HasFace t ref l ↔ ref ∈ m.edgeSides xlo xhi ylo yhi l) ↔
      t < min (spacing xlo xhi nx) (yhi - ylo) := by
  have hk := partsPerCell_pos f
  constructor
  · intro hfaces
    by_contra hlarge
    rw [lt_min_iff, not_and_or, not_lt, not_lt] at hlarge
    -- a side of a cell at an edge is on another face, which is tried before
    have hface (l l' : Location) {j i : ℕ} (hj : j < ny) (hi : i < nx)
        (hl : l.HasPlace (ny - 1) (nx - 1) (j, i)) (hrank : l'.rank < l.rank)
        (hle : ∀ o : ℕ × ℕ, o.1 ≤ partsPerCell f → o.2 ≤ partsPerCell f →
          l'.steps (partsPerCell f * ny) (partsPerCell f * nx) (partsPerCell f * j + o.1, partsPerCell f * i + o.2) *
            stepLength xlo xhi ylo yhi (partsPerCell f * nx) (partsPerCell f * ny) l' ≤ t) : False := by
      obtain ⟨n, s, b, hat, hmiddle⟩ := exists_sideAt_edge hf hj hi hl
      have hmem := (mem_edgeSides hf hx hy hnx hny h).mpr ⟨n, s, j, i, b, rfl, hat, hmiddle⟩
      refine ((hfaces l _).mpr hmem).first l' hrank ((sideOn_iff hf hx hy hnx hny h hat l').mpr fun o ho => ?_)
      obtain ⟨hrow, hcolumn⟩ := places_le hf b hat.mem o ho
      exact hle o hrow hcolumn
    rcases hlarge with hwidth | hheight
    · refine hface .bottom .left hny hnx rfl (by decide) fun o _ ho => ?_
      rw [← mul_spacing_mul hk xlo xhi nx] at hwidth
      refine (mul_le_mul_of_nonneg_right ?_ (spacing_pos hx (Nat.mul_pos hk hnx)).le).trans hwidth
      simp only [Location.steps, mul_zero, zero_add]
      exact_mod_cast ho
    · refine hface .top .bottom (Nat.sub_lt hny one_pos) hnx rfl (by decide) fun o ho _ => ?_
      rw [← mul_spacing (Nat.mul_pos hk hny)] at hheight
      refine (mul_le_mul_of_nonneg_right ?_ (spacing_pos hy (Nat.mul_pos hk hny)).le).trans hheight
      exact_mod_cast mul_add_le (Nat.sub_lt hny one_pos) ho
  · intro ht l ref
    constructor
    · intro hface
      obtain ⟨l', hmem⟩ := exists_mem_edgeSides hf hx hy hnx hny h hface.exterior
      exact hface.unique (hasFace_of_mem_edgeSides hf hx hy hnx hny h hpos ht hmem) ▸ hmem
    · exact hasFace_of_mem_edgeSides hf hx hy hnx hny h hpos ht

end Meshes

section Units

variable {xlo xhi ylo yhi : ℝ}

theorem reachable_tiling (f : Family) (xlo xhi ylo yhi : ℝ) (space : Datum ℝ) (nx ny : ℕ) :
    (Mesh.ofLists space (tilingNodes f xlo xhi ylo yhi nx ny) (tilingCells f nx ny)).Reachable := by
  refine Mesh.reachable_ofLists space (fun x hx => ?_) fun c hc => ?_
  · rw [length_of_mem_rectangleNodes x hx]
    decide
  · obtain ⟨j, -, i, -, stencil, hstencil, rfl⟩ := mem_tilingCells.mp hc
    exact (List.length_map _).trans (length_of_mem_stencils hstencil)

/-- The grid of a rectangle, its edges and its tolerance. -/
theorem exists_grid_edges (hf : IsTile f) (space : Datum ℝ) (hspace : Space.dofsPerNode space 2 = .ok d)
    (hx : xlo < xhi) (hy : ylo < yhi) (hnx : 0 < nx) (hny : 0 < ny) :
    ∃ grid, rectangleOfData space (.real xlo) (.real xhi) (.real ylo) (.real yhi) (.integer nx) (.integer ny)
        f.name = .ok grid ∧ grid.Reachable ∧ grid.freeze.1 = .ok () ∧ grid.freeze.2.dim = 2 ∧
      grid.freeze.2.extent = max (xhi - xlo) (yhi - ylo) ∧
      (∀ l, (grid.freeze.2.edgeSides xlo xhi ylo yhi l).ncard = edgeCells nx ny l) ∧
      ((∀ l, {ref | grid.freeze.2.location? ref = some l} = grid.freeze.2.edgeSides xlo xhi ylo yhi l) ↔
        1e-10 * max 1 (max (xhi - xlo) (yhi - ylo)) < min ((xhi - xlo) / nx) (yhi - ylo)) := by
  have hgrid := rectangleOfData_eq_tiling hf space hx hy hnx hny
  have hreachable := reachable_tiling f xlo xhi ylo yhi space nx ny
  obtain ⟨hok, hover, -⟩ := isOver_tiling xlo xhi ylo yhi hf hspace hnx hny
  generalize Mesh.ofLists space (tilingNodes f xlo xhi ylo yhi nx ny) (tilingCells f nx ny) = grid
    at hgrid hreachable hok hover
  have hextent := extent_rectangleNodes hx hy (Nat.mul_pos (partsPerCell_pos f) hnx)
    (Nat.mul_pos (partsPerCell_pos f) hny) hover.nodes_eq
  have hdim : grid.freeze.2.dim = 2 := by
    rw [(hover.reachable.placed hover.frozen).dim_eq, hover.nodes_eq]
    exact nodeDim_rectangleNodes
  refine ⟨grid, hgrid, hreachable, hok, hdim, hextent, ncard_edgeSides hf hx hy hnx hny hover, ?_⟩
  rw [← hextent, ← Mesh.tolerance_eq, ← spacing,
    ← hasFace_iff_mem_edgeSides hf hx hy hnx hny hover (Mesh.tolerance_pos _).le]
  refine forall_congr' fun l => Set.ext_iff.trans (forall_congr' fun ref => ?_)
  rw [Set.mem_ofPred_eq, hover.reachable.location?_eq_some hover.frozen hdim.le]

/-- In other units the places are those for a tolerance that is a share of the extent or of the other unit,
whichever is more. So they are the same where the extent is a unit at least, and they are the same in all units
only if there are none but on the left. The edges of the grid of a rectangle, which have as many sides as cells,
are told apart by their places exactly if the tolerance is less than the width of a cell and than the height of
the rectangle. -/
theorem places_by_extent {m : Mesh ℝ} (hm : m.Reachable) (hok : m.freeze.1 = .ok ()) (hdim : m.freeze.2.dim ≤ 2) :
    (∀ c, 0 < c → (m.scaled c).freeze.1 = .ok () ∧
      (∀ ref l, (m.scaled c).freeze.2.location? ref = some l ↔
        m.freeze.2.HasFace (1e-10 * max c⁻¹ m.freeze.2.extent) ref l) ∧
      (1 ≤ m.freeze.2.extent → 1 ≤ c * m.freeze.2.extent → ∀ ref,
        (m.scaled c).freeze.2.location? ref = m.freeze.2.location? ref)) ∧
    ((∀ c, 0 < c → ∀ ref, (m.scaled c).freeze.2.location? ref = m.freeze.2.location? ref) ↔
      ∀ ref, m.freeze.2.IsExteriorSide ref → m.freeze.2.SideOn (1e-10 * m.freeze.2.extent) .left ref) ∧
    ∀ (f : Family) (space : Datum ℝ) (d : ℕ) (xlo xhi ylo yhi : ℝ) (nx ny : ℕ), IsTile f →
      Space.dofsPerNode space 2 = .ok d → xlo < xhi → ylo < yhi → 0 < nx → 0 < ny →
      ∃ grid, rectangleOfData space (.real xlo) (.real xhi) (.real ylo) (.real yhi) (.integer nx) (.integer ny)
          f.name = .ok grid ∧ grid.freeze.1 = .ok () ∧
        (∀ l, (grid.freeze.2.edgeSides xlo xhi ylo yhi l).ncard = edgeCells nx ny l) ∧
        ((∀ l, {ref | grid.freeze.2.location? ref = some l} = grid.freeze.2.edgeSides xlo xhi ylo yhi l) ↔
          1e-10 * max 1 (max (xhi - xlo) (yhi - ylo)) < min ((xhi - xlo) / nx) (yhi - ylo)) := by
  refine ⟨fun c hc => ⟨(Mesh.freeze_scaled hm hok c).1, fun ref l => ?_, fun hlong hlong' ref => ?_⟩, ?_, ?_⟩
  · exact Mesh.location?_scaled hm hok hdim hc
  · exact Mesh.location?_scaled_eq hm hok hdim hc hlong hlong'
  · exact Mesh.location?_scaled_iff hm hok hdim
  · intro f space d xlo xhi ylo yhi nx ny hf hspace hx hy hnx hny
    obtain ⟨grid, hgrid, -, hok, -, -, hcount, hplaces⟩ := exists_grid_edges hf space hspace hx hy hnx hny
    exact ⟨grid, hgrid, hok, hcount, hplaces⟩

/-- The four sides of a square of one unit are told apart, and in smaller units, too. -/
theorem places_by_extent_of_square : ∃ grid, rectangleOfData (.integer 1) (.real 0) (.real 1) (.real 0) (.real 1)
      (.integer (1 : ℕ)) (.integer (1 : ℕ)) "Quad4" = .ok grid ∧
    (∀ ref, (grid.scaled 1000).freeze.2.location? ref = grid.freeze.2.location? ref) ∧
    ∀ l, (grid.freeze.2.edgeSides 0 1 0 1 l).ncard = edgeCells 1 1 l ∧
      {ref | grid.freeze.2.location? ref = some l} = grid.freeze.2.edgeSides 0 1 0 1 l := by
  have htile : IsTile .quad4 := .inl rfl
  obtain ⟨grid, hgrid, hreachable, hok, hdim, hextent, -⟩ := exists_grid_edges htile (.integer 1) rfl
    (zero_lt_one (α := ℝ)) (zero_lt_one (α := ℝ)) one_pos one_pos
  have hlong : grid.freeze.2.extent = 1 := by rw [hextent]; norm_num
  obtain ⟨hscaled, -, hgrids⟩ := places_by_extent hreachable hok hdim.le
  obtain ⟨-, -, hsame⟩ := hscaled 1000 (by norm_num)
  obtain ⟨grid', hgrid', -, hcount, hplaces⟩ := hgrids .quad4 (.integer 1) 1 0 1 0 1 1 1 htile rfl
    zero_lt_one zero_lt_one one_pos one_pos
  obtain rfl : grid = grid' := Except.ok.inj (hgrid.symm.trans hgrid')
  exact ⟨grid, hgrid, hsame hlong.ge (by rw [hlong]; norm_num),
    fun l => ⟨hcount l, hplaces.mpr (by norm_num) l⟩⟩

/-- The side at the bottom of a square of one unit is known as one on the left when the unit is so long that
the square is as small as the tolerance. -/
theorem place_of_scaledSquare : ∃ grid, rectangleOfData (.integer 1) (.real 0) (.real 1) (.real 0) (.real 1)
      (.integer (1 : ℕ)) (.integer (1 : ℕ)) "Quad4" = .ok grid ∧ grid.freeze.1 = .ok () ∧
    ∃ ref, grid.freeze.2.location? ref = some .bottom ∧
      (grid.scaled 1e-11).freeze.2.location? ref = some .left := by
  have htile : IsTile .quad4 := .inl rfl
  obtain ⟨grid, hgrid, hreachable, hok, hdim, hextent, hcount, hplaces⟩ := exists_grid_edges htile (.integer 1) rfl
    (zero_lt_one (α := ℝ)) (zero_lt_one (α := ℝ)) one_pos one_pos
  have hfrozen : grid.freeze.2.frozen = true := Mesh.frozen_of_freeze (Prod.ext hok rfl)
  have hbottom : (grid.freeze.2.edgeSides 0 1 0 1 .bottom).ncard = 1 := hcount .bottom
  obtain ⟨ref, hmem⟩ := Set.nonempty_of_ncard_ne_zero (by rw [hbottom]; exact one_ne_zero)
  refine ⟨grid, hgrid, hok, ref, (Set.ext_iff.mp (hplaces.mpr (by norm_num) .bottom) ref).mpr hmem, ?_⟩
  rw [Mesh.location?_scaled hreachable hok hdim.le (by norm_num)]
  have hlong : grid.freeze.2.extent ≤ 1e-10 * max (1e-11)⁻¹ grid.freeze.2.extent := by
    rw [hextent]
    norm_num
  exact (Mesh.hasFace_iff_of_left (hreachable.step (.freeze grid)) hfrozen
    (Mesh.sideOn_left_of_extent_le (hreachable.step (.freeze grid)) hfrozen hlong)).mpr ⟨hmem.1, rfl⟩

end Units

end Grid
end WeakForm

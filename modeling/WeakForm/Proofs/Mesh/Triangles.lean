import WeakForm.Proofs.RealScalar
import WeakForm.Mesh.Drawing
import WeakForm.Proofs.Mesh.Conforming

/-!
# Triangles of a drawing

A drawing of a plane mesh cuts its elements into triangles. Every edge of a triangle is an edge of the
polygon around the element, in the same direction, or lies inside and is met once in either direction.
So the edges inside cancel out of the sum of the signed areas, which is that of the polygons wherever the
nodes are. The triangles of a grid run counter clockwise and have the area of the rectangle.
-/

namespace WeakForm

section Loops

variable {β γ : Type}

/-- The edges of a closed polygon. -/
def loop (corners : List β) : List (β × β) := corners.zip (corners.rotate 1)

/-- The edges of the parts are those of the outer polygon and inner ones in both directions, none of them
twice. -/
def Fills (parts : List (List β)) (outer : List β) : Prop :=
  ∃ inner, (parts.flatMap loop).Perm (loop outer ++ (inner ++ inner.map Prod.swap)) ∧
    (parts.flatMap loop).Nodup

/-- The signed area of a polygon, where `cross` is twice that of the triangle of the origin and two
points. -/
noncomputable def loopArea (cross : β → β → ℝ) (corners : List β) : ℝ :=
  1 / 2 * ((loop corners).map fun edge => cross edge.1 edge.2).sum

theorem loop_map (f : β → γ) (corners : List β) :
    loop (corners.map f) = (loop corners).map (Prod.map f f) := by
  rw [loop, loop, ← List.map_rotate, List.zip_map]

theorem mem_of_mem_loop {corners : List β} {edge : β × β} (h : edge ∈ loop corners) :
    edge.1 ∈ corners ∧ edge.2 ∈ corners :=
  ⟨(List.of_mem_zip h).1, List.mem_rotate.mp (List.of_mem_zip h).2⟩

/-- The area depends only on how the corners lie to each other. -/
theorem loopArea_map {f : β → γ} {cross : β → β → ℝ} {cross' : γ → γ → ℝ} {corners : List β}
    (h : ∀ p ∈ corners, ∀ q ∈ corners, cross' (f p) (f q) = cross p q) :
    loopArea cross' (corners.map f) = loopArea cross corners := by
  rw [loopArea, loopArea, loop_map, List.map_map]
  congr 2
  refine List.map_congr_left fun edge hedge => ?_
  obtain ⟨hfirst, hsecond⟩ := mem_of_mem_loop hedge
  exact h _ hfirst _ hsecond

theorem sum_loopArea (cross : β → β → ℝ) (parts : List (List β)) :
    (parts.map (loopArea cross)).sum =
      1 / 2 * ((parts.flatMap loop).map fun edge => cross edge.1 edge.2).sum := by
  induction parts with
  | nil => simp
  | cons corners parts ih =>
    rw [List.map_cons, List.sum_cons, ih, List.flatMap_cons, List.map_append, List.sum_append, mul_add,
      loopArea]

/-- The edges inside cancel. -/
theorem Fills.sum_loopArea {parts : List (List β)} {outer : List β} (h : Fills parts outer)
    {cross : β → β → ℝ} (hcross : ∀ p q, cross q p = -cross p q) :
    (parts.map (loopArea cross)).sum = loopArea cross outer := by
  obtain ⟨inner, hperm, -⟩ := h
  have hswap : ((inner.map Prod.swap).map fun edge => cross edge.1 edge.2).sum =
      -(inner.map fun edge => cross edge.1 edge.2).sum := by
    rw [List.sum_neg, List.map_map, List.map_map]
    exact congrArg List.sum (List.map_congr_left fun edge _ => hcross edge.1 edge.2)
  rw [WeakForm.sum_loopArea, (hperm.map _).sum_eq, List.map_append, List.map_append, List.sum_append,
    List.sum_append, hswap, add_neg_cancel, add_zero, loopArea]

end Loops

/-!
## Elements
-/

namespace Family

/-- All nodes in the order of the boundary, mid-side nodes included. -/
def rim (f : Family) : List ℕ := f.sides.flatMap fun places => places.take 1 ++ places.drop 2

/-- Triangles over the nodes of an element, all of which are corners, that fill the polygon around it. -/
structure IsCut (f : Family) (triangles : List (List ℕ)) : Prop where
  length_eq : ∀ places ∈ triangles, places.length = 3
  mem_iff : ∀ p, (∃ places ∈ triangles, p ∈ places) ↔ p < f.nodeCount
  fills : Fills triangles f.rim

/-- The triangles that draw an element, as lists of places. -/
def triangleList (f : Family) : List (List ℕ) :=
  (f.triangles.getD []).map fun t => [t.1, t.2.1, t.2.2]

/-- Twice the signed area of the triangle of the origin and two nodes of the reference element. -/
noncomputable def referenceCross (f : Family) (p q : ℕ) : ℝ :=
  f.reference p 0 * f.reference q 1 - f.reference q 0 * f.reference p 1

variable {f : Family}

theorem isCut_triangleList (hf : Grid.IsTile f) : f.IsCut f.triangleList := by
  have hlength : ∀ places ∈ f.triangleList, places.length = 3 := by
    intro places hplaces
    obtain ⟨t, -, rfl⟩ := List.mem_map.mp hplaces
    rfl
  rcases hf with rfl | rfl | rfl
  · refine ⟨hlength, fun p => ?_, [(2, 0)], by decide, by decide⟩
    simp only [triangleList, triangles, Option.getD_some, List.map_cons, List.map_nil, List.mem_cons,
      List.not_mem_nil, or_false, exists_eq_or_imp, exists_eq_left, nodeCount]
    omega
  · refine ⟨hlength, fun p => ?_, [], by decide, by decide⟩
    simp only [triangleList, triangles, Option.getD_some, List.map_cons, List.map_nil, List.mem_cons,
      List.not_mem_nil, or_false, exists_eq_left, nodeCount]
    omega
  · refine ⟨hlength, fun p => ?_, [(3, 5), (4, 3), (5, 4)], by decide, by decide⟩
    simp only [triangleList, triangles, Option.getD_some, List.map_cons, List.map_nil, List.mem_cons,
      List.not_mem_nil, or_false, exists_eq_or_imp, exists_eq_left, nodeCount]
    omega

/-- In the reference element the triangles run counter clockwise and have its area. -/
theorem referenceArea_pos (hf : Grid.IsTile f) :
    (∀ places ∈ f.triangleList, 0 < loopArea f.referenceCross places) ∧
      (f.triangleList.map (loopArea f.referenceCross)).sum = f.referenceMeasure := by
  rcases hf with rfl | rfl | rfl <;>
    norm_num [triangleList, triangles, loopArea, loop, referenceCross, reference, referenceNodes,
      referenceMeasure, List.rotate]

end Family

namespace Element

variable {e : Element ℝ}

/-- The signed area of the polygon through all nodes in the order of the boundary. -/
noncomputable def rimArea (e : Element ℝ) : ℝ := loopArea e.cross e.family.rim

theorem cross_swap (e : Element ℝ) (p q : ℕ) : e.cross q p = -e.cross p q := by
  rw [cross, cross, neg_sub]

theorem sum_triangleList (hf : Grid.IsTile e.family) :
    (e.family.triangleList.map (loopArea e.cross)).sum = e.rimArea :=
  (Family.isCut_triangleList hf).fills.sum_loopArea e.cross_swap

variable {origin : ℕ → ℝ} {directions : DenseMatrix ℝ} (h : e.IsAffine origin directions)
  (hf : Grid.IsTile e.family) (hc : e.nodes.cols = 2)
include h hf hc

/-- An affine map takes the triangles of the reference element to ones whose areas are greater by the
determinant of its directions. -/
theorem IsAffine.loopArea_eq {places : List ℕ} (hplaces : places ∈ e.family.triangleList) :
    loopArea e.cross places = loopArea e.family.referenceCross places * directions.det := by
  have hdim : e.family.dim = 2 := by rcases hf with hf | hf | hf <;> rw [hf] <;> rfl
  have hcut := Family.isCut_triangleList hf
  obtain ⟨p, q, r, rfl⟩ := List.length_eq_three.mp (hcut.length_eq places hplaces)
  have hentry {i : ℕ} (hi : i ∈ [p, q, r]) (k : ℕ) (hk : k < 2) : e.nodes.entry i k = origin k +
      (e.family.reference i 0 * directions.entry 0 k + e.family.reference i 1 * directions.entry 1 k) := by
    rw [h.entry_eq i ((hcut.mem_iff i).mp ⟨_, hplaces, hi⟩) k (hc ▸ hk), hdim, Finset.sum_range_succ,
      Finset.sum_range_one]
  rw [DenseMatrix.det_two (h.rows_eq.trans hdim) (h.cols_eq.trans hc)]
  simp only [loopArea, loop, List.rotate_cons_succ, List.rotate_zero, List.cons_append, List.nil_append,
    List.zip_cons_cons, List.zip_nil_right, List.map_cons, List.map_nil, List.sum_cons, List.sum_nil, cross,
    Family.referenceCross]
  rw [hentry (by simp) 0 (by decide), hentry (by simp) 1 (by decide), hentry (by simp) 0 (by decide),
    hentry (by simp) 1 (by decide), hentry (by simp) 0 (by decide), hentry (by simp) 1 (by decide)]
  ring

/-- The mid-side nodes of an affinely placed element do not change its area. -/
theorem IsAffine.rimArea_eq : e.rimArea = e.signedArea := by
  rw [← sum_triangleList hf, h.signedArea_eq hf hc, ← (Family.referenceArea_pos hf).2,
    ← List.sum_map_mul_right]
  exact congrArg List.sum (List.map_congr_left fun places hplaces => h.loopArea_eq hf hc hplaces)

end Element

/-!
## Meshes
-/

namespace Triangulation

/-- Twice the signed area of the triangle of the origin and two nodes. -/
noncomputable def cross (t : Triangulation ℝ) (a b : ℤ) : ℝ :=
  t.x.getD a.toNat 0 * t.y.getD b.toNat 0 - t.x.getD b.toNat 0 * t.y.getD a.toNat 0

/-- The signed area of a triangle, positive if its nodes run counter clockwise. -/
noncomputable def area (t : Triangulation ℝ) (triangle : List ℤ) : ℝ := loopArea t.cross triangle

end Triangulation

namespace Cell

/-- The index of a node of the cell, counted from zero. -/
def nodeIndex (c : Cell ℝ) (p : ℕ) : ℤ := c.element.nodeIds.getD p 0 - 1

/-- Triangles that fill the polygon around a cell and have its nodes as corners, and no others. -/
structure IsCutInto (c : Cell ℝ) (triangles : List (List ℤ)) : Prop where
  exists_isCut : ∃ table, c.element.family.IsCut table ∧ triangles = table.map (List.map c.nodeIndex)
  mem_iff : ∀ k, (∃ triangle ∈ triangles, k ∈ triangle) ↔ k + 1 ∈ c.element.nodeIds

/-- The triangles that draw a cell. -/
def triangles (c : Cell ℝ) : List (List ℤ) := c.element.family.triangleList.map (List.map c.nodeIndex)

variable {c : Cell ℝ}

theorem isCutInto_triangles (hf : Grid.IsTile c.element.family) : c.IsCutInto c.triangles := by
  have hcut := Family.isCut_triangleList hf
  refine ⟨⟨_, hcut, rfl⟩, fun k => ?_⟩
  constructor
  · rintro ⟨triangle, htriangle, hk⟩
    obtain ⟨places, hplaces, rfl⟩ := List.mem_map.mp htriangle
    obtain ⟨p, hp, rfl⟩ := List.mem_map.mp hk
    have hlt : p < c.element.nodeIds.length := by
      rw [c.element.length_nodeIds]
      exact (hcut.mem_iff p).mp ⟨places, hplaces, hp⟩
    rw [nodeIndex, Int.sub_add_cancel, List.getD_eq_getElem _ _ hlt]
    exact List.getElem_mem hlt
  · intro hk
    obtain ⟨p, hlt, hp⟩ := List.mem_iff_getElem.mp hk
    rw [c.element.length_nodeIds] at hlt
    obtain ⟨places, hplaces, hmem⟩ := (hcut.mem_iff p).mpr hlt
    refine ⟨_, List.mem_map_of_mem hplaces, List.mem_map.mpr ⟨p, hmem, ?_⟩⟩
    rw [nodeIndex, List.getD_eq_getElem _ _ (c.element.length_nodeIds ▸ hlt), hp, Int.add_sub_cancel]

theorem cellTriangles_eq (hf : Grid.IsTile c.element.family) :
    Mesh.cellTriangles c = .ok c.triangles := by
  obtain ⟨table, htable⟩ : ∃ table, c.element.family.triangles = some table := by
    rcases hf with hf | hf | hf <;> rw [hf] <;> exact ⟨_, rfl⟩
  simp only [Mesh.cellTriangles, triangles, Family.triangleList, htable, Option.getD_some, List.map_map]
  rfl

end Cell

namespace Mesh

/-- A drawing of a plane mesh. Its points are the nodes, and it has the triangles of one cell after the
other. -/
structure IsDrawnBy (m : Mesh ℝ) (t : Triangulation ℝ) : Prop where
  x_eq : t.x = m.nodes.map fun x => x.getD 0 0
  y_eq : t.y = m.nodes.map fun x => x.getD 1 0
  exists_parts : ∃ parts, t.triangles = parts.flatten ∧ List.Forall₂ Cell.IsCutInto m.cells parts
  bounds : ∀ triangle ∈ t.triangles, ∀ k ∈ triangle, 0 ≤ k ∧ k < m.nodes.length
  sum_area : (t.triangles.map t.area).sum = (m.cells.map fun c => c.element.rimArea).sum

/-- The triangles of all cells over all nodes. -/
def drawn (m : Mesh ℝ) : Triangulation ℝ :=
  ⟨m.nodes.map fun x => x.getD 0 0, m.nodes.map fun x => x.getD 1 0, m.cells.flatMap Cell.triangles⟩

variable {m : Mesh ℝ}

theorem column_coordinateMatrix (nodes : List (List ℝ)) (j : ℕ) :
    (coordinateMatrix nodes).column j = nodes.map fun x => x.getD j 0 := by
  refine List.ext_getElem (by simp [DenseMatrix.column, coordinateMatrix, DenseMatrix.ofRows]) ?_
  intro i hi hi'
  rw [List.length_map] at hi'
  simp only [DenseMatrix.column, List.getElem_map, List.getElem_range]
  exact entry_coordinateMatrix (List.getElem?_eq_getElem hi') j

theorem triangulation_eq (hm : m.Reachable) (hfrozen : m.frozen = true) (hdim : m.dim = 2)
    (hfamilies : ∀ c ∈ m.cells, Grid.IsTile c.element.family) : m.triangulation = .ok m.drawn := by
  have hplaced := hm.placed hfrozen
  have hcells : m.cells ≠ [] := by
    have hlength := (hm.wellFormed.built hfrozen).forall₂_cells.length_eq
    exact List.ne_nil_of_length_pos
      (hlength ▸ List.length_pos_of_ne_nil (hm.connectivity_ne_nil hfrozen))
  have htwo : ¬ (coordinateMatrix m.nodes).cols < 2 := by
    have hcols : (coordinateMatrix m.nodes).cols = 2 := hplaced.dim_eq.symm.trans hdim
    omega
  have hempty : ¬ (m.cells.map Cell.triangles).isEmpty = true := by simpa using hcells
  rw [triangulation, mapM_eq_ok_map fun c hc => Cell.cellTriangles_eq (hfamilies c hc), ok_bind,
    hplaced.coords_eq]
  simp only [if_neg htwo, if_neg hempty, column_coordinateMatrix]
  rw [drawn, List.flatMap_def]
  rfl

/-- A node of a cell is found among the points. -/
theorem Built.getD_nodeIndex (hb : m.Built) {c : Cell ℝ} (hc : c ∈ m.cells) {p : ℕ}
    (hp : p < c.element.family.nodeCount) (j : ℕ) :
    (m.nodes.map fun x => x.getD j 0).getD (c.nodeIndex p).toNat 0 = c.element.nodes.entry p j := by
  obtain ⟨hmade, hrange⟩ := hb.isMade_of_mem hc
  have hlt : p < c.element.nodeIds.length := by rwa [c.element.length_nodeIds]
  obtain ⟨hone, hle⟩ := hrange _ (List.getElem_mem hlt)
  have hnode : (c.element.nodeIds[p] - 1).toNat < m.nodes.length := by omega
  have hentry := entry_nodesOf (List.getElem?_eq_getElem hlt) (List.getElem?_eq_getElem hnode) j
  rw [hmade.nodes_eq, hentry, Cell.nodeIndex, List.getD_eq_getElem _ _ hlt,
    List.getD_eq_getElem _ _ (by rwa [List.length_map]), List.getElem_map]

/-- A triangle has the same area over the points as within its cell. -/
theorem Built.area_eq (hb : m.Built) {c : Cell ℝ} (hc : c ∈ m.cells) {places : List ℕ}
    (hplaces : ∀ p ∈ places, p < c.element.family.nodeCount) :
    m.drawn.area (places.map c.nodeIndex) = loopArea c.element.cross places := by
  refine loopArea_map fun p hp q hq => ?_
  rw [Triangulation.cross, Element.cross, drawn]
  simp only [hb.getD_nodeIndex hc (hplaces p hp), hb.getD_nodeIndex hc (hplaces q hq)]

theorem Built.isDrawnBy (hb : m.Built) (hfamilies : ∀ c ∈ m.cells, Grid.IsTile c.element.family) :
    m.IsDrawnBy m.drawn where
  x_eq := rfl
  y_eq := rfl
  exists_parts := by
    refine ⟨m.cells.map Cell.triangles, List.flatMap_def, ?_⟩
    rw [List.forall₂_map_right_iff, List.forall₂_same]
    exact fun c hc => Cell.isCutInto_triangles (hfamilies c hc)
  bounds := by
    intro triangle htriangle k hk
    obtain ⟨c, hc, htriangle⟩ := List.mem_flatMap.mp htriangle
    have hmem := ((Cell.isCutInto_triangles (hfamilies c hc)).mem_iff k).mp ⟨triangle, htriangle, hk⟩
    obtain ⟨hone, hle⟩ := (hb.isMade_of_mem hc).2 _ hmem
    omega
  sum_area := by
    have hcell : ∀ c ∈ m.cells, (c.triangles.map m.drawn.area).sum = c.element.rimArea := by
      intro c hc
      have hcut := Family.isCut_triangleList (hfamilies c hc)
      rw [Cell.triangles, List.map_map, ← Element.sum_triangleList (hfamilies c hc)]
      refine congrArg List.sum (List.map_congr_left fun places hplaces => ?_)
      exact hb.area_eq hc fun p hp => (hcut.mem_iff p).mp ⟨places, hplaces, hp⟩
    change ((m.cells.flatMap Cell.triangles).map m.drawn.area).sum = _
    rw [List.map_flatMap, List.flatMap_def, List.sum_flatten, List.map_map]
    exact congrArg List.sum (List.map_congr_left hcell)

end Mesh

/-!
## Grids
-/

namespace Grid

variable {f : Family} {xlo xhi ylo yhi : ℝ} {nx ny d : ℕ} {m : Mesh ℝ}

section Conditions

variable (hf : IsTile f) (hx : xlo < xhi) (hy : ylo < yhi) (hnx : 0 < nx) (hny : 0 < ny)
  (h : m.IsOver (tilingNodes f xlo xhi ylo yhi nx ny) (tilingCells f nx ny) d)
include hf h

theorem isTile_of_mem : ∀ c ∈ m.cells, IsTile c.element.family :=
  h.of_mem_cells fun _ hc _ he => (exists_isAffine_of_mem hf hc he).1 ▸ hf

include hnx hny in
theorem sum_area_drawn : (m.drawn.triangles.map m.drawn.area).sum = (xhi - xlo) * (yhi - ylo) := by
  have hrim : ∀ c ∈ m.cells, c.element.rimArea = c.element.signedArea :=
    h.of_mem_cells (P := fun e => e.rimArea = e.signedArea) fun c hc e he => by
      obtain ⟨hfamily, hcols, origin, directions, haffine, -, -, -⟩ := exists_isAffine_of_mem hf hc he
      exact haffine.rimArea_eq (hfamily ▸ hf) hcols
  rw [(h.built.isDrawnBy (isTile_of_mem hf h)).sum_area, ← sum_signedArea hf hnx hny h, List.map_map]
  exact congrArg List.sum (List.map_congr_left hrim)

include hx hy hnx hny in
/-- All triangles run counter clockwise. -/
theorem area_pos {triangle : List ℤ} (htriangle : triangle ∈ m.drawn.triangles) :
    0 < m.drawn.area triangle := by
  obtain ⟨c, hc, htriangle⟩ := List.mem_flatMap.mp htriangle
  obtain ⟨places, hplaces, rfl⟩ := List.mem_map.mp htriangle
  have htile := isTile_of_mem hf h c hc
  have hpos : ∀ c ∈ m.cells, ∀ places ∈ c.element.family.triangleList,
      0 < loopArea c.element.cross places :=
    h.of_mem_cells (P := fun e => ∀ places ∈ e.family.triangleList, 0 < loopArea e.cross places)
      fun c hc e he places hplaces => by
        obtain ⟨hfamily, hcols, origin, directions, haffine, -, -, hdet⟩ :=
          exists_isAffine_of_mem hf hc he
        have htile : IsTile e.family := hfamily ▸ hf
        rw [haffine.loopArea_eq htile hcols hplaces, hdet]
        exact mul_pos ((Family.referenceArea_pos htile).1 places hplaces)
          (cellMeasure_pos f (spacing_pos hx hnx) (spacing_pos hy hny))
  rw [h.built.area_eq hc fun p hp =>
    ((Family.isCut_triangleList htile).mem_iff p).mp ⟨places, hplaces, hp⟩]
  exact hpos c hc places hplaces

end Conditions

end Grid

/-- Every plane mesh of triangles and quadrilaterals, however its nodes lie, is drawn by triangles that
cut up its elements, and their signed areas add up to those of the polygons around the elements. On every
grid of a rectangle all triangles run counter clockwise and have the area of the rectangle altogether. -/
theorem Mesh.triangles_cover :
    (∀ m : Mesh ℝ, m.Reachable → m.frozen = true → m.dim = 2 →
      (∀ c ∈ m.cells, Grid.IsTile c.element.family) → ∃ t, m.triangulation = .ok t ∧ m.IsDrawnBy t) ∧
    ∀ (f : Family) (space : Datum ℝ) (d : ℕ) (xlo xhi ylo yhi : ℝ) (nx ny : ℕ), Grid.IsTile f →
      Space.dofsPerNode space 2 = .ok d → xlo < xhi → ylo < yhi → 0 < nx → 0 < ny →
      ∃ grid, Grid.rectangleOfData space (.real xlo) (.real xhi) (.real ylo) (.real yhi) (.integer nx)
          (.integer ny) f.name = .ok grid ∧
        grid.freeze.1 = .ok () ∧
        ∀ m, Relation.ReflTransGen Mesh.Step grid.freeze.2 m → ∃ t, m.triangulation = .ok t ∧
          m.IsDrawnBy t ∧ (∀ triangle ∈ t.triangles, 0 < t.area triangle) ∧
          (t.triangles.map t.area).sum = (xhi - xlo) * (yhi - ylo) := by
  have hdrawn (m : Mesh ℝ) (hm : m.Reachable) (hfrozen : m.frozen = true) (hdim : m.dim = 2)
      (hfamilies : ∀ c ∈ m.cells, Grid.IsTile c.element.family) :
      m.triangulation = .ok m.drawn ∧ m.IsDrawnBy m.drawn :=
    ⟨triangulation_eq hm hfrozen hdim hfamilies, (hm.wellFormed.built hfrozen).isDrawnBy hfamilies⟩
  refine ⟨fun m hm hfrozen hdim hfamilies => ⟨m.drawn, hdrawn m hm hfrozen hdim hfamilies⟩, ?_⟩
  intro f space d xlo xhi ylo yhi nx ny hf hspace hx hy hnx hny
  obtain ⟨hfreeze, hover, -⟩ := Grid.isOver_tiling xlo xhi ylo yhi hf hspace hnx hny
  refine ⟨_, Grid.rectangleOfData_eq_tiling hf space hx hy hnx hny, hfreeze, fun m hm => ?_⟩
  have h := hover.of_steps hm
  have hdim : m.dim = 2 := by
    rw [(h.reachable.placed h.frozen).dim_eq, h.nodes_eq]
    exact Grid.nodeDim_rectangleNodes
  obtain ⟨hok, hcover⟩ := hdrawn m h.reachable h.frozen hdim (Grid.isTile_of_mem hf h)
  exact ⟨m.drawn, hok, hcover, fun triangle => Grid.area_pos hf hx hy hnx hny h,
    Grid.sum_area_drawn hf hnx hny h⟩

/-- A quadrilateral with an inward corner and a triangle that runs clockwise. -/
noncomputable def crookedPair : Mesh ℝ :=
  (Mesh.ofLists (.integer 1) [[0, 0], [3, 0], [1, 1], [0, 3], [4, 4]]
    [(.quad4, [1, 2, 3, 4]), (.tri3, [3, 5, 2])]).freeze.2

theorem isOver_crookedPair : crookedPair.IsOver [[0, 0], [3, 0], [1, 1], [0, 3], [4, 4]]
    [(.quad4, [1, 2, 3, 4]), (.tri3, [3, 5, 2])] 1 :=
  (Mesh.isOver_freeze (by simp) (by simp) rfl (by simp [Family.nodeCount, Family.fixedDofs])).2.1

theorem triangles_of_crookedPair_cover :
    (∃ t, crookedPair.triangulation = .ok t ∧ crookedPair.IsDrawnBy t) ∧
    ∃ grid, Grid.rectangleOfData (.integer 1) (.real (-1)) (.real 2) (.real 0) (.real 1)
        (.integer (3 : ℕ)) (.integer (1 : ℕ)) "Tri6" = .ok grid ∧
      grid.freeze.1 = .ok () ∧
      ∀ m, Relation.ReflTransGen Mesh.Step grid.freeze.2 m → ∃ t, m.triangulation = .ok t ∧
        m.IsDrawnBy t ∧ (∀ triangle ∈ t.triangles, 0 < t.area triangle) ∧
        (t.triangles.map t.area).sum = (2 - -1) * (1 - 0) := by
  have hover := isOver_crookedPair
  have hdim : crookedPair.dim = 2 := by
    rw [(hover.reachable.placed hover.frozen).dim_eq, hover.nodes_eq]
    rfl
  have hfamilies : ∀ c ∈ crookedPair.cells, Grid.IsTile c.element.family :=
    hover.of_mem_cells (P := fun e => Grid.IsTile e.family) fun c hc e he => by
      rw [he.family_eq]
      simp only [List.mem_cons, List.not_mem_nil, or_false] at hc
      obtain rfl | rfl := hc
      · exact .inl rfl
      · exact .inr (.inl rfl)
  exact ⟨Mesh.triangles_cover.1 _ hover.reachable hover.frozen hdim hfamilies,
    Mesh.triangles_cover.2 .tri6 _ 1 (-1) 2 0 1 3 1 (.inr (.inr rfl)) rfl (by norm_num) one_pos
      (by norm_num) one_pos⟩

end WeakForm

import WeakForm.Proofs.Mesh.Tilings

/-!
# Grids of rectangles

The nodes of the grid of a rectangle form a lattice, and every cell of the lattice is one quadrilateral
or is cut into two triangles. Everything about such a grid is said in terms of rows and columns.
-/

namespace WeakForm
namespace Grid

/-- The families with straight sides that fill a rectangle. -/
def IsPlanar (f : Family) : Prop := f = .quad4 ∨ f = .tri3

/-- The corners of the elements cut from one cell, each by its row and its column within the cell. -/
def patterns : Family → List (List (ℕ × ℕ))
  | .quad4 => [[(0, 0), (0, 1), (1, 1), (1, 0)]]
  | .tri3 => [[(0, 0), (0, 1), (1, 1)], [(0, 0), (1, 1), (1, 0)]]
  | _ => []

/-- The elements of the grid of a rectangle. -/
def rectangleCells (f : Family) (nx ny : ℕ) : List (Family × List ℤ) :=
  cells nx ny fun j i => (patterns f).map fun pattern => (f, place nx j i pattern)

variable {f : Family} {xlo xhi ylo yhi : ℝ} {nx ny d : ℕ}

section Tilings

theorem IsPlanar.isTile (hf : IsPlanar f) : IsTile f := hf.imp_right .inl

theorem partsPerCell_of_isPlanar (hf : IsPlanar f) : partsPerCell f = 1 := by
  rcases hf with rfl | rfl <;> rfl

theorem tilingNodes_of_isPlanar (hf : IsPlanar f) (xlo xhi ylo yhi : ℝ) (nx ny : ℕ) :
    tilingNodes f xlo xhi ylo yhi nx ny = rectangleNodes xlo xhi ylo yhi nx ny := by
  rw [tilingNodes, partsPerCell_of_isPlanar hf, one_mul, one_mul]

theorem tilingCells_of_isPlanar (hf : IsPlanar f) (nx ny : ℕ) :
    tilingCells f nx ny = rectangleCells f nx ny := by
  have hstencils : stencils f = patterns f := by rcases hf with rfl | rfl <;> rfl
  simp only [tilingCells, rectangleCells, hstencils, cellNodes, partsPerCell_of_isPlanar hf, one_mul]

/-- The grid of a rectangle. -/
theorem rectangleOfData_eq_ok (hf : IsPlanar f) (space : Datum ℝ) (hx : xlo < xhi) (hy : ylo < yhi)
    (hnx : 0 < nx) (hny : 0 < ny) :
    rectangleOfData space (.real xlo) (.real xhi) (.real ylo) (.real yhi) (.integer nx) (.integer ny)
        f.name =
      .ok (.ofLists space (rectangleNodes xlo xhi ylo yhi nx ny) (rectangleCells f nx ny)) := by
  rw [rectangleOfData_eq_tiling hf.isTile space hx hy hnx hny, tilingNodes_of_isPlanar hf,
    tilingCells_of_isPlanar hf]

/-- The grid of a rectangle is frozen. -/
theorem isOver_rectangle (hf : IsPlanar f) {space : Datum ℝ} (hd : Space.dofsPerNode space 2 = .ok d)
    (hnx : 0 < nx) (hny : 0 < ny) :
    let m := Mesh.ofLists space (rectangleNodes xlo xhi ylo yhi nx ny) (rectangleCells f nx ny)
    m.freeze.1 = .ok () ∧ m.freeze.2.IsOver (rectangleNodes xlo xhi ylo yhi nx ny)
      (rectangleCells f nx ny) d ∧ m.freeze.2.regions = [] := by
  rw [← tilingNodes_of_isPlanar hf, ← tilingCells_of_isPlanar hf]
  exact isOver_tiling xlo xhi ylo yhi hf.isTile hd hnx hny

/-- Every node on the rim of the rectangle is exterior. -/
theorem exists_isExterior (hf : IsPlanar f) (hnx : 0 < nx) (hny : 0 < ny) {r c : ℕ} (hr : r ≤ ny)
    (hc : c ≤ nx) (hrim : r = 0 ∨ r = ny ∨ c = 0 ∨ c = nx) : ∃ k s ids,
      Mesh.IsExterior (rectangleCells f nx ny) k s ids ∧ nodeId (nx + 1) r c ∈ ids := by
  have hedge : ∃ l : Location, l.HasPlace ny nx (r, c) := by
    rcases hrim with h | h | h | h
    · exact ⟨.bottom, h⟩
    · exact ⟨.top, h⟩
    · exact ⟨.left, h⟩
    · exact ⟨.right, h⟩
  rw [← tilingCells_of_isPlanar hf, exists_isExterior_iff hf.isTile hnx hny, partsPerCell_of_isPlanar hf,
    one_mul, one_mul]
  exact ⟨r, c, hr, hc, rfl, hedge⟩

end Tilings

section Cells

theorem mem_rectangleCells {c : Family × List ℤ} : c ∈ rectangleCells f nx ny ↔
    ∃ j < ny, ∃ i < nx, ∃ pattern ∈ patterns f, c = (f, place nx j i pattern) := by
  simp only [rectangleCells, cells, List.mem_flatMap, List.mem_range, List.mem_map, eq_comm]

/-- All corners are within the cell. -/
theorem le_one_of_mem_patterns {pattern : List (ℕ × ℕ)} (hpattern : pattern ∈ patterns f) :
    ∀ o ∈ pattern, o.1 ≤ 1 ∧ o.2 ≤ 1 := by
  revert pattern
  cases f <;> decide

theorem length_of_mem_patterns {pattern : List (ℕ × ℕ)} (hpattern : pattern ∈ patterns f) :
    pattern.length = f.nodeCount := by
  revert pattern
  cases f <;> decide

/-- The places of all elements: row, column and pattern. -/
def places (f : Family) (nx ny : ℕ) : List (ℕ × ℕ × List (ℕ × ℕ)) :=
  (List.range ny).flatMap fun j => (List.range nx).flatMap fun i =>
    (patterns f).map fun pattern => (j, i, pattern)

theorem rectangleCells_eq (f : Family) (nx ny : ℕ) :
    rectangleCells f nx ny = (places f nx ny).map fun x => (f, place nx x.1 x.2.1 x.2.2) := by
  simp only [rectangleCells, places, cells, List.map_flatMap, List.map_map]
  rfl

theorem mem_places {x : ℕ × ℕ × List (ℕ × ℕ)} : x ∈ places f nx ny ↔
    x.1 < ny ∧ x.2.1 < nx ∧ x.2.2 ∈ patterns f := by
  obtain ⟨j, i, pattern⟩ := x
  simp [places]

/-- A sum over all elements, cell by cell. -/
theorem sum_places (g : ℕ × ℕ × List (ℕ × ℕ) → ℝ) : ((places f nx ny).map g).sum =
    ∑ j ∈ Finset.range ny, ∑ i ∈ Finset.range nx,
      ((patterns f).map fun pattern => g (j, i, pattern)).sum := by
  have hsum {β γ : Type} (items : List β) (parts : β → List γ) (g : γ → ℝ) :
      ((items.flatMap parts).map g).sum = (items.map fun x => ((parts x).map g).sum).sum := by
    rw [List.map_flatMap, List.flatMap_def, List.sum_flatten, List.map_map]
    rfl
  simp only [places, hsum, List.map_map]
  rfl

end Cells

/-- Every cell of a grid links its corners with the first one, so all nodes are linked. -/
theorem isConnected_rectangle (hf : IsPlanar f) (hnx : 0 < nx) (hny : 0 < ny) {m : Mesh ℝ}
    (h : m.IsOver (rectangleNodes xlo xhi ylo yhi nx ny) (rectangleCells f nx ny) d) :
    m.IsConnected := by
  have hcorner (o : ℕ × ℕ) (hrow : o.1 ≤ 1) (hcolumn : o.2 ≤ 1) :
      ∃ pattern ∈ patterns f, (0, 0) ∈ pattern ∧ o ∈ pattern := by
    obtain ⟨r, c⟩ := o
    dsimp only at hrow hcolumn
    rcases hf with rfl | rfl <;> interval_cases r <;> interval_cases c <;> simp [patterns]
  have hchain (total r c : ℕ) (htotal : r + c = total) (hr : r ≤ ny) (hc : c ≤ nx) :
      Relation.ReflTransGen m.Adjacent (nodeId (nx + 1) 0 0) (nodeId (nx + 1) r c) := by
    induction total using Nat.strong_induction_on generalizing r c with
    | _ total ih =>
      by_cases hzero : r = 0 ∧ c = 0
      · rw [hzero.1, hzero.2]
      · -- one step down and to the left, as far as there is one
        obtain ⟨pattern, hpattern, hfirst, hthis⟩ := hcorner (r - (r - 1), c - (c - 1)) (by omega) (by omega)
        refine (ih (r - 1 + (c - 1)) (by omega) (r - 1) (c - 1) rfl (by omega) (by omega)).tail
          (h.adjacent (mem_rectangleCells.mpr ⟨r - 1, by omega, c - 1, by omega, pattern, hpattern, rfl⟩)
            (List.mem_map.mpr ⟨_, hfirst, rfl⟩) (List.mem_map.mpr ⟨_, hthis, ?_⟩))
        congr 1 <;> dsimp only <;> omega
  refine Mesh.isConnected_of_root (nodeId (nx + 1) 0 0) fun k hone hle => ?_
  rw [h.nodes_eq, length_rectangleNodes] at hle
  obtain ⟨r, c, hr, hc, rfl⟩ := exists_place hone hle
  exact hchain _ r c rfl hr hc

end Grid
end WeakForm

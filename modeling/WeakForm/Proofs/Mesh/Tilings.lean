import WeakForm.Proofs.Mesh.Exterior
import WeakForm.Proofs.Mesh.Intervals

/-!
# Tilings

Every cell of the grid of a rectangle is one quadrilateral or is cut into two triangles, with or without
mid-side nodes. The middles of all sides form a lattice of half cells, and two sides have the same nodes
exactly if they have the same middle. Each middle is that of two sides, which lie opposite each other in
neighbouring cells or along the diagonal of one cell, except on the edges of the rectangle.
-/

/-!
## Lattices

The nodes of the grid form a lattice, whose places are given by rows and columns. The cells of the grid
are listed row by row too, each with the same number of elements.
-/

namespace WeakForm
namespace Grid

/-- The nodes of the grid of a rectangle. -/
noncomputable def rectangleNodes (xlo xhi ylo yhi : ℝ) (nx ny : ℕ) : List (List ℝ) :=
  (List.range (ny + 1)).flatMap fun r : ℕ => (List.range (nx + 1)).map fun c : ℕ =>
    [xlo + c * spacing xlo xhi nx, ylo + r * spacing ylo yhi ny]

/-- The numbers of nodes in the given rows and columns, counted from row `j` and column `i`. -/
def place (nx j i : ℕ) (pattern : List (ℕ × ℕ)) : List ℤ :=
  pattern.map fun o => nodeId (nx + 1) (j + o.1) (i + o.2)

variable {xlo xhi ylo yhi : ℝ} {nx ny : ℕ}

section Nodes

theorem lattice_points (xlo xhi ylo yhi : ℝ) (hnx : 0 < nx) (hny : 0 < ny) :
    lattice (points xlo xhi nx) (points ylo yhi ny) = rectangleNodes xlo xhi ylo yhi nx ny := by
  simp only [lattice, points_eq hnx, points_eq hny, List.flatMap_map, List.map_map, rectangleNodes]
  rfl

theorem length_rectangleNodes : (rectangleNodes xlo xhi ylo yhi nx ny).length = (ny + 1) * (nx + 1) := by
  simp [rectangleNodes, List.length_flatMap]

theorem getElem?_rectangleNodes (xlo xhi ylo yhi : ℝ) {r c : ℕ} (hr : r ≤ ny) (hc : c ≤ nx) :
    (rectangleNodes xlo xhi ylo yhi nx ny)[(nodeId (nx + 1) r c - 1).toNat]? =
      some [xlo + c * spacing xlo xhi nx, ylo + r * spacing ylo yhi ny] := by
  have hindex : (nodeId (nx + 1) r c - 1).toNat = r * (nx + 1) + c := by
    simp only [nodeId]
    omega
  rw [hindex, rectangleNodes, getElem?_flatMap_of_length (by simp) _ (by omega),
    List.getElem?_range (by omega), Option.bind_some, List.getElem?_map, List.getElem?_range (by omega)]
  rfl

/-- The numbers of different places of the lattice are different. -/
theorem nodeId_inj {w r c r' c' : ℕ} (hc : c < w) (hc' : c' < w) :
    nodeId w r c = nodeId w r' c' ↔ r = r' ∧ c = c' := by
  refine ⟨fun h => ?_, fun ⟨hr, hc⟩ => by rw [hr, hc]⟩
  have hindex : r * w + c = r' * w + c' := by
    simp only [nodeId] at h
    omega
  obtain ⟨hrow, hcolumn⟩ := DenseMatrix.index_div_mod hc r
  obtain ⟨hrow', hcolumn'⟩ := DenseMatrix.index_div_mod hc' r'
  exact ⟨by rw [← hrow, ← hrow', hindex], by rw [← hcolumn, ← hcolumn', hindex]⟩

theorem nodeId_bounds {r c : ℕ} (hr : r ≤ ny) (hc : c ≤ nx) :
    1 ≤ nodeId (nx + 1) r c ∧ nodeId (nx + 1) r c ≤ ((ny + 1) * (nx + 1) : ℕ) := by
  have hle : r * (nx + 1) + c < (ny + 1) * (nx + 1) :=
    DenseMatrix.index_lt (Nat.lt_succ_of_le hr) (Nat.lt_succ_of_le hc)
  simp only [nodeId]
  omega

/-- Every number of a node is that of a place of the lattice. -/
theorem exists_place {k : ℤ} (hone : 1 ≤ k) (hle : k ≤ ((ny + 1) * (nx + 1) : ℕ)) :
    ∃ r c, r ≤ ny ∧ c ≤ nx ∧ k = nodeId (nx + 1) r c := by
  have hlt : (k - 1).toNat < (nx + 1) * (ny + 1) := by
    rw [Nat.mul_comm, ← Int.ofNat_lt, Int.toNat_of_nonneg (by omega)]
    exact Int.lt_of_lt_of_le (by omega) hle
  refine ⟨(k - 1).toNat / (nx + 1), (k - 1).toNat % (nx + 1), ?_, ?_, ?_⟩
  · exact Nat.le_of_lt_succ (Nat.div_lt_of_lt_mul hlt)
  · exact Nat.le_of_lt_succ (Nat.mod_lt _ (Nat.succ_pos nx))
  · rw [nodeId, Nat.mul_comm, Nat.div_add_mod]
    omega

theorem length_of_mem_rectangleNodes :
    ∀ x ∈ rectangleNodes xlo xhi ylo yhi nx ny, x.length = 2 := by
  intro x hx
  obtain ⟨r, -, hx⟩ := List.mem_flatMap.mp hx
  obtain ⟨c, -, rfl⟩ := List.mem_map.mp hx
  rfl

theorem rectangleNodes_ne_nil : rectangleNodes xlo xhi ylo yhi nx ny ≠ [] :=
  List.ne_nil_of_length_pos (length_rectangleNodes ▸ Nat.mul_pos (Nat.succ_pos _) (Nat.succ_pos _))

theorem nodeDim_rectangleNodes : Mesh.nodeDim (rectangleNodes xlo xhi ylo yhi nx ny) = 2 :=
  Mesh.nodeDim_eq rectangleNodes_ne_nil length_of_mem_rectangleNodes

/-- The coordinates of a node of an element. -/
theorem entry_nodesOf_place (xlo xhi ylo yhi : ℝ) {j i p : ℕ} {pattern : List (ℕ × ℕ)} {o : ℕ × ℕ}
    (hp : pattern[p]? = some o) (hr : j + o.1 ≤ ny) (hc : i + o.2 ≤ nx) :
    let A := Mesh.nodesOf (Mesh.coordinateMatrix (rectangleNodes xlo xhi ylo yhi nx ny))
      (place nx j i pattern)
    A.entry p 0 = xlo + (i + o.2 : ℕ) * spacing xlo xhi nx ∧
      A.entry p 1 = ylo + (j + o.1 : ℕ) * spacing ylo yhi ny := by
  have hid : (place nx j i pattern)[p]? = some (nodeId (nx + 1) (j + o.1) (i + o.2)) := by
    rw [place, List.getElem?_map, hp, Option.map_some]
  have hnode := getElem?_rectangleNodes xlo xhi ylo yhi hr hc
  exact ⟨Mesh.entry_nodesOf hid hnode 0, Mesh.entry_nodesOf hid hnode 1⟩

end Nodes

section Cells

variable {cell : (j i : ℕ) → List (Family × List ℤ)} {count j i a j' i' a' k : ℕ}

/-- The elements by row, column and number within the cell. -/
theorem getElem?_cells (hcount : ∀ j i, (cell j i).length = count) (hj : j < ny) (hi : i < nx)
    (ha : a < count) : (cells nx ny cell)[(j * nx + i) * count + a]? = (cell j i)[a]? := by
  have hindex : (j * nx + i) * count + a = j * (nx * count) + (i * count + a) := by ring
  have hrow (j : ℕ) : ((List.range nx).flatMap fun i => cell j i).length = nx * count := by
    simp [List.length_flatMap, hcount]
  rw [hindex, cells, getElem?_flatMap_of_length hrow _ (DenseMatrix.index_lt hi ha),
    List.getElem?_range hj, Option.bind_some, getElem?_flatMap_of_length (hcount j) _ ha,
    List.getElem?_range hi, Option.bind_some]

theorem length_cells (hcount : ∀ j i, (cell j i).length = count) :
    (cells nx ny cell).length = ny * nx * count := by
  simp [cells, List.length_flatMap, hcount, mul_assoc]

/-- Every element is in some row and column. -/
theorem exists_index (hk : k < ny * nx * count) : ∃ j i a, j < ny ∧ i < nx ∧ a < count ∧
    k = (j * nx + i) * count + a := by
  have hcount : 0 < count := Nat.pos_of_mul_pos_left (Nat.zero_lt_of_lt hk)
  have hcell : k / count < ny * nx := Nat.div_lt_of_lt_mul (by rwa [Nat.mul_comm])
  have hnx : 0 < nx := Nat.pos_of_mul_pos_left (Nat.zero_lt_of_lt hcell)
  refine ⟨k / count / nx, k / count % nx, k % count, Nat.div_lt_of_lt_mul (by rwa [Nat.mul_comm]),
    Nat.mod_lt _ hnx, Nat.mod_lt _ hcount, ?_⟩
  rw [Nat.div_add_mod', Nat.div_add_mod']

/-- Different elements have different numbers. -/
theorem index_inj (hi : i < nx) (hi' : i' < nx) (ha : a < count) (ha' : a' < count) :
    (j * nx + i) * count + a = (j' * nx + i') * count + a' ↔ j = j' ∧ i = i' ∧ a = a' := by
  constructor
  · intro h
    obtain ⟨hcell, rfl⟩ := (nodeId_inj ha ha').mp (congrArg (fun k : ℕ => ((k + 1 : ℕ) : ℤ)) h)
    obtain ⟨rfl, rfl⟩ := (nodeId_inj hi hi').mp (congrArg (fun k : ℕ => ((k + 1 : ℕ) : ℤ)) hcell)
    exact ⟨rfl, rfl, rfl⟩
  · rintro ⟨rfl, rfl, rfl⟩
    rfl

end Cells

end Grid
end WeakForm

/-!
## Cells and middles of sides
-/

namespace WeakForm

/-- A place of a lattice, by its row and its column, lies on an edge of a lattice with the given numbers
of steps. -/
def Location.HasPlace (rows columns : ℕ) (o : ℕ × ℕ) : Location → Prop
  | left => o.2 = 0
  | right => o.2 = columns
  | bottom => o.1 = 0
  | top => o.1 = rows

instance : Fintype Location := ⟨{.left, .right, .bottom, .top}, by rintro (_ | _ | _ | _) <;> decide⟩

instance (rows columns : ℕ) (o : ℕ × ℕ) : DecidablePred (Location.HasPlace rows columns o)
  | .left => inferInstanceAs (Decidable (o.2 = 0))
  | .right => inferInstanceAs (Decidable (o.2 = columns))
  | .bottom => inferInstanceAs (Decidable (o.1 = 0))
  | .top => inferInstanceAs (Decidable (o.1 = rows))

theorem Location.sum_eq (g : Location → ℕ) : ∑ l, g l = g left + g right + g bottom + g top := by
  change ∑ l ∈ {left, right, bottom, top}, g l = _
  simp [add_assoc]

namespace Grid

/-- The families that fill a rectangle. -/
def IsTile (f : Family) : Prop := f = .quad4 ∨ f = .tri3 ∨ f = .tri6

/-- The nodes of the elements cut from one cell, each by its row and its column within the cell. -/
def stencils : Family → List (List (ℕ × ℕ))
  | .quad4 => [[(0, 0), (0, 1), (1, 1), (1, 0)]]
  | .tri3 => [[(0, 0), (0, 1), (1, 1)], [(0, 0), (1, 1), (1, 0)]]
  | .tri6 => [[(0, 0), (0, 2), (2, 2), (0, 1), (1, 2), (1, 1)],
      [(0, 0), (2, 2), (2, 0), (1, 1), (2, 1), (1, 0)]]
  | _ => []

/-- The numbers of the nodes at the given places of the cell in row `j` and column `i`. -/
def cellNodes (f : Family) (nx j i : ℕ) (places : List (ℕ × ℕ)) : List ℤ :=
  place (partsPerCell f * nx) (partsPerCell f * j) (partsPerCell f * i) places

/-- The elements of the grid of a rectangle. -/
def tilingCells (f : Family) (nx ny : ℕ) : List (Family × List ℤ) :=
  cells nx ny fun j i => (stencils f).map fun stencil => (f, cellNodes f nx j i stencil)

/-- A side of an element cut from a cell: the numbers of the element and of the side, the places of its
nodes within the cell, and its middle, in halves of the height and of the width of the cell. -/
structure Border where
  element : ℕ
  side : ℕ
  places : List (ℕ × ℕ)
  middle : ℕ × ℕ
  deriving DecidableEq

/-- Side `s` of element `a` of a cell. -/
def Border.of (f : Family) (a s : ℕ) (stencil : List (ℕ × ℕ)) (nodes : List ℕ) : Border :=
  let places := nodes.map fun p => stencil.getD p (0, 0)
  let first := places.getD 0 (0, 0)
  let second := places.getD 1 (0, 0)
  ⟨a, s, places, (first.1 + second.1) / partsPerCell f, (first.2 + second.2) / partsPerCell f⟩

/-- The sides of all elements cut from one cell. -/
def borders (f : Family) : List Border :=
  (stencils f).zipIdx.flatMap fun a => f.sides.zipIdx.map fun s => .of f a.2 s.2 a.1 s.1

/-- Two different sides whose middles lie opposite each other in their cells. -/
def Border.IsMate (b b' : Border) : Prop := b' ≠ b ∧ b'.middle = (2 - b.middle.1, 2 - b.middle.2)

instance (b b' : Border) : Decidable (b.IsMate b') := inferInstanceAs (Decidable (_ ∧ _))

/-- The same places in a lattice that starts `r` rows and `c` columns before. -/
def shift (r c : ℕ) (places : List (ℕ × ℕ)) : List (ℕ × ℕ) := places.map fun o => (r + o.1, c + o.2)

variable {f : Family} {nx ny n s j i n' s' j' i' : ℕ} {ids : List ℤ} {b b' : Border}

section Borders

theorem partsPerCell_cases (f : Family) : partsPerCell f = 1 ∨ partsPerCell f = 2 := by
  cases f <;> decide

/-- The places of a cell do not exceed the lattice. -/
theorem mul_add_le {k n a : ℕ} (hj : j < n) (ha : a ≤ k) : k * j + a ≤ k * n :=
  calc k * j + a ≤ k * j + k := Nat.add_le_add_left ha _
    _ ≤ k * n := Nat.mul_le_mul_left k hj

theorem mem_borders : b ∈ borders f ↔ ∃ a s stencil nodes, (stencils f)[a]? = some stencil ∧
    f.sides[s]? = some nodes ∧ b = .of f a s stencil nodes := by
  simp only [borders, List.mem_flatMap, List.mem_map, Prod.exists, List.mk_mem_zipIdx_iff_getElem?]
  constructor
  · rintro ⟨stencil, a, ha, nodes, s, hs, rfl⟩
    exact ⟨a, s, stencil, nodes, ha, hs, rfl⟩
  · rintro ⟨a, s, stencil, nodes, ha, hs, rfl⟩
    exact ⟨stencil, a, ha, nodes, s, hs, rfl⟩

theorem element_lt (hb : b ∈ borders f) : b.element < (stencils f).length := by
  obtain ⟨a, s, stencil, nodes, ha, -, rfl⟩ := mem_borders.mp hb
  exact (List.getElem?_eq_some_iff.mp ha).1

theorem length_of_mem_stencils {stencil : List (ℕ × ℕ)} (h : stencil ∈ stencils f) :
    stencil.length = f.nodeCount := by
  revert stencil
  cases f <;> decide

theorem le_of_mem_stencils {stencil : List (ℕ × ℕ)} (h : stencil ∈ stencils f) :
    ∀ o ∈ stencil, o.1 ≤ partsPerCell f ∧ o.2 ≤ partsPerCell f := by
  revert stencil
  cases f <;> decide

variable (hf : IsTile f)
include hf

theorem border_inj : ∀ b ∈ borders f, ∀ b' ∈ borders f, b.element = b'.element → b.side = b'.side →
    b = b' := by
  rcases hf with rfl | rfl | rfl <;> decide

theorem places_le : ∀ b ∈ borders f, ∀ o ∈ b.places, o.1 ≤ partsPerCell f ∧ o.2 ≤ partsPerCell f := by
  rcases hf with rfl | rfl | rfl <;> decide

theorem places_ne_nil : ∀ b ∈ borders f, b.places ≠ [] := by
  rcases hf with rfl | rfl | rfl <;> decide

/-- The middle of a side is that of an edge or of the diagonal of the cell. -/
theorem middle_mem : ∀ b ∈ borders f, b.middle ∈ [(0, 1), (1, 2), (2, 1), (1, 0), (1, 1)] := by
  rcases hf with rfl | rfl | rfl <;> decide

theorem middle_le : ∀ b ∈ borders f, b.middle.1 ≤ 2 ∧ b.middle.2 ≤ 2 := by
  rcases hf with rfl | rfl | rfl <;> decide

theorem exists_mate : ∀ b ∈ borders f, ∃ b' ∈ borders f, b.IsMate b' ∧
    ∀ c ∈ borders f, b.IsMate c → c = b' := by
  rcases hf with rfl | rfl | rfl <;> decide

/-- Two sides with the same middle in a cell are the same, unless both are its diagonal. -/
theorem eq_or_isMate : ∀ b ∈ borders f, ∀ b' ∈ borders f, b'.middle = b.middle →
    b' = b ∨ b.middle = (1, 1) ∧ b.IsMate b' := by
  rcases hf with rfl | rfl | rfl <;> decide

/-- In neighbouring cells too, two sides have the same nodes exactly if they have the same middle. -/
theorem shift_places_iff : ∀ b ∈ borders f, ∀ b' ∈ borders f, ∀ x ∈ [0, 1], ∀ y ∈ [0, 1],
    ∀ x' ∈ [0, 1], ∀ y' ∈ [0, 1],
    (shift (partsPerCell f * y) (partsPerCell f * x) b.places).toFinset =
        (shift (partsPerCell f * y') (partsPerCell f * x') b'.places).toFinset ↔
      2 * y + b.middle.1 = 2 * y' + b'.middle.1 ∧ 2 * x + b.middle.2 = 2 * x' + b'.middle.2 := by
  rcases hf with rfl | rfl | rfl <;> decide +kernel

/-- All nodes of a side lie on an edge of the cell exactly if its middle does. -/
theorem forall_hasPlace_iff (l : Location) : ∀ b ∈ borders f,
    (∀ o ∈ b.places, l.HasPlace (partsPerCell f) (partsPerCell f) o) ↔ l.HasPlace 2 2 b.middle := by
  rcases hf with rfl | rfl | rfl <;> cases l <;> decide

/-- Every place on an edge of the cell is a node of a side there. -/
theorem exists_border (l : Location) : ∀ r ∈ List.range (partsPerCell f + 1),
    ∀ c ∈ List.range (partsPerCell f + 1), l.HasPlace (partsPerCell f) (partsPerCell f) (r, c) →
      ∃ b ∈ borders f, l.HasPlace 2 2 b.middle ∧ (r, c) ∈ b.places := by
  rcases hf with rfl | rfl | rfl <;> cases l <;> decide

/-- Every edge of the cell is one side, so there are as many sides on some of the edges as edges. -/
theorem card_borders : ∀ p : Location → Bool, ((borders f).toFinset.filter fun b =>
    ∃ l, p l ∧ l.HasPlace 2 2 b.middle).card = ∑ l, if p l then 1 else 0 := by
  rcases hf with rfl | rfl | rfl <;> decide +kernel

theorem exists_stencil : ∀ r ∈ List.range (partsPerCell f + 1),
    ∀ c ∈ List.range (partsPerCell f + 1), ∃ stencil ∈ stencils f, (r, c) ∈ stencil := by
  rcases hf with rfl | rfl | rfl <;> decide

end Borders

section Places

variable {r c r' c' : ℕ} {places places' : List (ℕ × ℕ)}

theorem shift_add (r c r' c' : ℕ) (places : List (ℕ × ℕ)) :
    shift (r + r') (c + c') places = shift r c (shift r' c' places) := by
  simp [shift, add_assoc]

theorem toFinset_shift_inj :
    (shift r c places).toFinset = (shift r c places').toFinset ↔ places.toFinset = places'.toFinset := by
  have hinj : Function.Injective fun o : ℕ × ℕ => (r + o.1, c + o.2) := by
    intro o o' h
    simpa [Prod.ext_iff] using h
  have himage (places : List (ℕ × ℕ)) :
      (shift r c places).toFinset = places.toFinset.image fun o => (r + o.1, c + o.2) := by
    ext o
    simp [shift]
  rw [himage, himage, (Finset.image_injective hinj).eq_iff]

theorem mem_shift {o : ℕ × ℕ} :
    o ∈ shift r c places ↔ ∃ p ∈ places, o = (r + p.1, c + p.2) := by
  simp only [shift, List.mem_map, eq_comm]

/-- Lists of places have the same numbers exactly if they are the same places. -/
theorem toFinset_place_iff (hc : ∀ o ∈ places, c + o.2 ≤ nx) (hc' : ∀ o ∈ places', c' + o.2 ≤ nx) :
    (place nx r c places).toFinset = (place nx r' c' places').toFinset ↔
      (shift r c places).toFinset = (shift r' c' places').toFinset := by
  have himage (r c : ℕ) (places : List (ℕ × ℕ)) : (place nx r c places).toFinset =
      (shift r c places).toFinset.image fun o => nodeId (nx + 1) o.1 o.2 := by
    ext k
    simp [place, shift]
  have hinj : Set.InjOn (fun o : ℕ × ℕ => nodeId (nx + 1) o.1 o.2)
      ((shift r c places).toFinset ∪ (shift r' c' places').toFinset : Finset (ℕ × ℕ)) := by
    have hle : ∀ o ∈ (shift r c places).toFinset ∪ (shift r' c' places').toFinset, o.2 < nx + 1 := by
      intro o ho
      rcases Finset.mem_union.mp ho with ho | ho
      · obtain ⟨p, hp, rfl⟩ := List.mem_map.mp (List.mem_toFinset.mp ho)
        exact Nat.lt_succ_of_le (hc p hp)
      · obtain ⟨p, hp, rfl⟩ := List.mem_map.mp (List.mem_toFinset.mp ho)
        exact Nat.lt_succ_of_le (hc' p hp)
    intro o ho o' ho' h
    exact Prod.ext_iff.mpr ((nodeId_inj (hle o ho) (hle o' ho')).mp h)
  rw [himage, himage,
    Finset.image_eq_image_iff_of_injOn hinj Finset.subset_union_left Finset.subset_union_right]

end Places

section Sides

/-- Side `s` of element `n` of the grid is the given side of the cell in row `j` and column `i`. -/
structure SideAt (f : Family) (nx ny n s j i : ℕ) (b : Border) : Prop where
  row_lt : j < ny
  column_lt : i < nx
  mem : b ∈ borders f
  element_eq : n = (j * nx + i) * (stencils f).length + b.element
  side_eq : s = b.side

theorem getElem?_tilingCells {a : ℕ} (hj : j < ny) (hi : i < nx) (ha : a < (stencils f).length) :
    (tilingCells f nx ny)[(j * nx + i) * (stencils f).length + a]? =
      (stencils f)[a]?.map fun stencil => (f, cellNodes f nx j i stencil) := by
  rw [tilingCells, getElem?_cells (fun _ _ => List.length_map _) hj hi ha, List.getElem?_map]

theorem map_cellNodes {stencil : List (ℕ × ℕ)} (hstencil : stencil ∈ stencils f) {nodes : List ℕ}
    (hnodes : nodes ∈ f.sides) (nx j i : ℕ) :
    (nodes.map fun p => (cellNodes f nx j i stencil).getD p 0) =
      cellNodes f nx j i (nodes.map fun p => stencil.getD p (0, 0)) := by
  simp only [cellNodes, place, List.map_map]
  apply List.map_congr_left
  intro p hp
  have hlt := (Family.lt_of_mem_sides hnodes).2 p hp
  rw [← length_of_mem_stencils hstencil] at hlt
  simp [hlt]

/-- The sides of all elements. -/
theorem sideOf_tilingCells : Mesh.sideOf (tilingCells f nx ny) n s = some ids ↔
    ∃ j i b, SideAt f nx ny n s j i b ∧ ids = cellNodes f nx j i b.places := by
  constructor
  · intro h
    obtain ⟨c, hc, hside⟩ := Option.bind_eq_some_iff.mp h
    obtain ⟨nodes, hnodes, rfl⟩ := Option.map_eq_some_iff.mp hside
    obtain ⟨hn, -⟩ := List.getElem?_eq_some_iff.mp hc
    rw [tilingCells, length_cells fun _ _ => List.length_map _] at hn
    obtain ⟨j, i, a, hj, hi, ha, rfl⟩ := exists_index hn
    rw [getElem?_tilingCells hj hi ha] at hc
    obtain ⟨stencil, hstencil, rfl⟩ := Option.map_eq_some_iff.mp hc
    refine ⟨j, i, .of f a s stencil nodes, ⟨hj, hi, ?_, rfl, rfl⟩, ?_⟩
    · exact mem_borders.mpr ⟨a, s, stencil, nodes, hstencil, hnodes, rfl⟩
    · exact map_cellNodes (List.mem_of_getElem? hstencil) (List.mem_of_getElem? hnodes) nx j i
  · rintro ⟨j, i, b, ⟨hj, hi, hb, rfl, rfl⟩, rfl⟩
    have ha := element_lt hb
    obtain ⟨a, s, stencil, nodes, hstencil, hnodes, rfl⟩ := mem_borders.mp hb
    rw [Mesh.sideOf, getElem?_tilingCells hj hi ha]
    dsimp only [Border.of]
    rw [hstencil, Option.map_some, Option.bind_some, hnodes, Option.map_some]
    exact congrArg some (map_cellNodes (List.mem_of_getElem? hstencil) (List.mem_of_getElem? hnodes) nx j i)

namespace SideAt

variable (hf : IsTile f) (h : SideAt f nx ny n s j i b) (h' : SideAt f nx ny n' s' j' i' b')
include hf h

/-- The middle of a side, in halves of the cells of the grid. -/
theorem middle_cases : b.middle = (0, 1) ∨ b.middle = (1, 2) ∨ b.middle = (2, 1) ∨ b.middle = (1, 0) ∨
    b.middle = (1, 1) := by
  simpa using middle_mem hf b h.mem

theorem places_le : ∀ o ∈ b.places, partsPerCell f * j + o.1 ≤ partsPerCell f * ny ∧
    partsPerCell f * i + o.2 ≤ partsPerCell f * nx := by
  intro o ho
  obtain ⟨hrow, hcolumn⟩ := Grid.places_le hf b h.mem o ho
  exact ⟨mul_add_le h.row_lt hrow, mul_add_le h.column_lt hcolumn⟩

include h'

/-- Sides are the same if they are the same side of the same cell. -/
theorem ref_eq_iff : (n', s') = (n, s) ↔ j' = j ∧ i' = i ∧ b' = b := by
  obtain ⟨-, hi, hb, rfl, rfl⟩ := h
  obtain ⟨-, hi', hb', rfl, rfl⟩ := h'
  rw [Prod.mk.injEq, index_inj hi' hi (element_lt hb') (element_lt hb)]
  constructor
  · rintro ⟨⟨hj, hi, ha⟩, hs⟩
    exact ⟨hj, hi, border_inj hf b' hb' b hb ha hs⟩
  · rintro ⟨rfl, rfl, rfl⟩
    exact ⟨⟨rfl, rfl, rfl⟩, rfl⟩

/-- In neighbouring cells two sides have the same nodes exactly if they have the same middle. -/
theorem toFinset_eq_iff_of_near (hj : j ≤ j' + 1 ∧ j' ≤ j + 1) (hi : i ≤ i' + 1 ∧ i' ≤ i + 1) :
    (cellNodes f nx j i b.places).toFinset = (cellNodes f nx j' i' b'.places).toFinset ↔
      2 * j + b.middle.1 = 2 * j' + b'.middle.1 ∧ 2 * i + b.middle.2 = 2 * i' + b'.middle.2 := by
  have hnear {k k' : ℕ} (hk : k ≤ k' + 1 ∧ k' ≤ k + 1) :
      ∃ l, ∃ d ∈ [0, 1], ∃ d' ∈ [0, 1], k = l + d ∧ k' = l + d' := by
    refine ⟨min k k', k - min k k', ?_, k' - min k k', ?_, by omega, by omega⟩ <;>
      simp only [List.mem_cons, List.not_mem_nil, or_false] <;> omega
  have hbound := fun o ho => (h.places_le hf o ho).2
  have hbound' := fun o ho => (h'.places_le hf o ho).2
  have hb := h.mem
  have hb' := h'.mem
  clear h h'
  obtain ⟨r, y, hy, y', hy', rfl, rfl⟩ := hnear hj
  obtain ⟨c, x, hx, x', hx', rfl, rfl⟩ := hnear hi
  rw [cellNodes, cellNodes, toFinset_place_iff hbound hbound', mul_add, mul_add, mul_add, mul_add,
    shift_add, shift_add, toFinset_shift_inj, shift_places_iff hf b hb b' hb' x hx y hy x' hx' y' hy']
  omega

/-- Two sides have the same nodes exactly if they have the same middle. -/
theorem toFinset_eq_iff :
    (cellNodes f nx j i b.places).toFinset = (cellNodes f nx j' i' b'.places).toFinset ↔
      2 * j + b.middle.1 = 2 * j' + b'.middle.1 ∧ 2 * i + b.middle.2 = 2 * i' + b'.middle.2 := by
  constructor
  · intro hsame
    have hplaces := hsame
    rw [cellNodes, cellNodes, toFinset_place_iff (fun o ho => (h.places_le hf o ho).2)
      fun o ho => (h'.places_le hf o ho).2] at hplaces
    -- a common node is not farther from the corner of either cell than the width of a cell
    obtain ⟨o, ho⟩ := List.exists_mem_of_ne_nil _ (places_ne_nil hf b h.mem)
    have hmem : (partsPerCell f * j + o.1, partsPerCell f * i + o.2) ∈
        shift (partsPerCell f * j) (partsPerCell f * i) b.places := mem_shift.mpr ⟨o, ho, rfl⟩
    rw [← List.mem_toFinset, hplaces, List.mem_toFinset] at hmem
    obtain ⟨o', ho', hcommon⟩ := mem_shift.mp hmem
    obtain ⟨hrow, hcolumn⟩ := Prod.ext_iff.mp hcommon
    have hle := Grid.places_le hf b h.mem o ho
    have hle' := Grid.places_le hf b' h'.mem o' ho'
    dsimp only at hrow hcolumn
    have hnear : (j ≤ j' + 1 ∧ j' ≤ j + 1) ∧ i ≤ i' + 1 ∧ i' ≤ i + 1 := by
      rcases partsPerCell_cases f with hk | hk <;> rw [hk] at hrow hcolumn hle hle' <;> omega
    exact (h.toFinset_eq_iff_of_near hf h' hnear.1 hnear.2).mp hsame
  · intro hmiddle
    have hnear : (j ≤ j' + 1 ∧ j' ≤ j + 1) ∧ i ≤ i' + 1 ∧ i' ≤ i + 1 := by
      have hcases := h.middle_cases hf
      have hcases' := h'.middle_cases hf
      simp only [Prod.ext_iff] at hcases hcases'
      omega
    exact (h.toFinset_eq_iff_of_near hf h' hnear.1 hnear.2).mpr hmiddle

/-- Besides itself a side has the same middle as its mate in the neighbouring cell only. -/
theorem eq_or_mate (hmiddle : 2 * j + b.middle.1 = 2 * j' + b'.middle.1 ∧
      2 * i + b.middle.2 = 2 * i' + b'.middle.2) :
    (n', s') = (n, s) ∨ b.IsMate b' ∧ j' + 1 = j + b.middle.1 ∧ i' + 1 = i + b.middle.2 := by
  have hcases := h.middle_cases hf
  have hcases' := h'.middle_cases hf
  by_cases hsame : b'.middle = b.middle
  · have hcell : j' = j ∧ i' = i := by
      rw [hsame] at hmiddle
      omega
    rcases eq_or_isMate hf b h.mem b' h'.mem hsame with hb | ⟨hdiagonal, hmate⟩
    · exact .inl ((h.ref_eq_iff hf h').mpr ⟨hcell.1, hcell.2, hb⟩)
    · rw [hdiagonal]
      exact .inr ⟨hmate, by omega, by omega⟩
  · have hopposite : b'.middle = (2 - b.middle.1, 2 - b.middle.2) ∧
        j' + 1 = j + b.middle.1 ∧ i' + 1 = i + b.middle.2 := by
      simp only [Prod.ext_iff] at hsame hcases hcases' ⊢
      omega
    exact .inr ⟨⟨fun hb => hsame (congrArg Border.middle hb), hopposite.1⟩, hopposite.2⟩

omit h'

/-- A side with its middle on an edge of the rectangle is exterior. -/
theorem isExterior {l : Location}
    (hl : l.HasPlace (2 * ny) (2 * nx) (2 * j + b.middle.1, 2 * i + b.middle.2)) :
    Mesh.IsExterior (tilingCells f nx ny) n s (cellNodes f nx j i b.places) := by
  refine ⟨sideOf_tilingCells.mpr ⟨j, i, b, h, rfl⟩, fun n' s' ids' hside hsame => ?_⟩
  obtain ⟨j', i', b', h', rfl⟩ := sideOf_tilingCells.mp hside
  rw [sortedSet_eq_iff] at hsame
  rcases h.eq_or_mate hf h' ((h.toFinset_eq_iff hf h').mp hsame.symm) with href | ⟨-, hrow, hcolumn⟩
  · exact href
  · -- its mate would be in a cell outside of the rectangle
    have hj := h.row_lt
    have hi := h.column_lt
    have hj' := h'.row_lt
    have hi' := h'.column_lt
    cases l <;> simp only [Location.HasPlace] at hl <;> omega

/-- Every other side is shared by two elements. -/
theorem exists_isShared
    (hinner : ∀ l : Location, ¬ l.HasPlace (2 * ny) (2 * nx) (2 * j + b.middle.1, 2 * i + b.middle.2)) :
    ∃ n' s', Mesh.IsShared (tilingCells f nx ny) n s n' s' := by
  obtain ⟨b', hb', hmate, hunique⟩ := exists_mate hf b h.mem
  have hcell : 1 ≤ j + b.middle.1 ∧ j + b.middle.1 ≤ ny ∧ 1 ≤ i + b.middle.2 ∧ i + b.middle.2 ≤ nx := by
    have hj := h.row_lt
    have hi := h.column_lt
    have hcases := h.middle_cases hf
    have hleft := hinner .left
    have hright := hinner .right
    have hbottom := hinner .bottom
    have htop := hinner .top
    simp only [Location.HasPlace, Prod.ext_iff] at hleft hright hbottom htop hcases
    omega
  obtain ⟨j', hj'⟩ : ∃ j', j' + 1 = j + b.middle.1 := ⟨j + b.middle.1 - 1, by omega⟩
  obtain ⟨i', hi'⟩ : ∃ i', i' + 1 = i + b.middle.2 := ⟨i + b.middle.2 - 1, by omega⟩
  have h' : SideAt f nx ny ((j' * nx + i') * (stencils f).length + b'.element) b'.side j' i' b' :=
    ⟨by omega, by omega, hb', rfl, rfl⟩
  have hmiddle : 2 * j + b.middle.1 = 2 * j' + b'.middle.1 ∧ 2 * i + b.middle.2 = 2 * i' + b'.middle.2 := by
    have hcases := h.middle_cases hf
    simp only [hmate.2, Prod.ext_iff] at hcases ⊢
    omega
  refine ⟨_, _, ⟨fun href => hmate.1 ((h.ref_eq_iff hf h').mp href.symm).2.2, _, _,
    sideOf_tilingCells.mpr ⟨j, i, b, h, rfl⟩, sideOf_tilingCells.mpr ⟨j', i', b', h', rfl⟩,
    ((h.toFinset_eq_iff hf h').mpr hmiddle).symm, fun k r other hside hsame => ?_⟩⟩
  obtain ⟨y, x, c, hc, rfl⟩ := sideOf_tilingCells.mp hside
  rcases h.eq_or_mate hf hc ((h.toFinset_eq_iff hf hc).mp hsame.symm) with href | ⟨hother, hrow, hcolumn⟩
  · exact .inl href
  · exact .inr ((h'.ref_eq_iff hf hc).mpr ⟨by omega, by omega, hunique c hc.mem hother⟩)

end SideAt

/-- The exterior sides are those with their middles on an edge of the rectangle. -/
theorem isExterior_tilingCells (hf : IsTile f) : Mesh.IsExterior (tilingCells f nx ny) n s ids ↔
    ∃ j i b, SideAt f nx ny n s j i b ∧ ids = cellNodes f nx j i b.places ∧
      ∃ l : Location, l.HasPlace (2 * ny) (2 * nx) (2 * j + b.middle.1, 2 * i + b.middle.2) := by
  constructor
  · intro hexterior
    obtain ⟨j, i, b, h, rfl⟩ := sideOf_tilingCells.mp hexterior.sideOf_eq
    refine ⟨j, i, b, h, rfl, not_forall_not.mp fun hinner => ?_⟩
    obtain ⟨n', s', hshared⟩ := h.exists_isShared hf hinner
    exact hshared.not_isExterior hexterior.sideOf_eq hexterior
  · rintro ⟨j, i, b, h, rfl, l, hl⟩
    exact h.isExterior hf hl

end Sides

section Edges

/-- A place of a cell lies on an edge of the grid if the cell is at this edge and the place is on that
edge of the cell. -/
theorem hasPlace_iff {k : ℕ} (hk : 0 < k) (hj : j < ny) (hi : i < nx) {o : ℕ × ℕ} (ho : o.1 ≤ k ∧ o.2 ≤ k)
    (l : Location) : l.HasPlace (k * ny) (k * nx) (k * j + o.1, k * i + o.2) ↔
      l.HasPlace (ny - 1) (nx - 1) (j, i) ∧ l.HasPlace k k o := by
  have hfirst (i a : ℕ) : k * i + a = 0 ↔ i = 0 ∧ a = 0 := by simp [hk.ne']
  have hlast {i n a : ℕ} (hi : i < n) (ha : a ≤ k) : k * i + a = k * n ↔ i = n - 1 ∧ a = k := by
    obtain ⟨d, rfl⟩ := Nat.exists_eq_add_of_lt hi
    have hsum : k * (i + d + 1) = k * i + k * d + k := by ring
    have hzero : k * d = 0 ↔ d = 0 := by simp [hk.ne']
    omega
  cases l with
  | left => exact hfirst i o.2
  | right => exact hlast hi ho.2
  | bottom => exact hfirst j o.1
  | top => exact hlast hj ho.1

/-- All nodes of a side lie on an edge of the rectangle exactly if its middle does. -/
theorem SideAt.forall_hasPlace_iff (hf : IsTile f) (h : SideAt f nx ny n s j i b) (l : Location) :
    (∀ o ∈ b.places, l.HasPlace (partsPerCell f * ny) (partsPerCell f * nx)
        (partsPerCell f * j + o.1, partsPerCell f * i + o.2)) ↔
      l.HasPlace (2 * ny) (2 * nx) (2 * j + b.middle.1, 2 * i + b.middle.2) := by
  have hpositive : 0 < partsPerCell f := by rcases partsPerCell_cases f with hk | hk <;> rw [hk] <;> decide
  have hplaces := fun o ho => hasPlace_iff hpositive h.row_lt h.column_lt (Grid.places_le hf b h.mem o ho) l
  rw [hasPlace_iff two_pos h.row_lt h.column_lt (middle_le hf b h.mem), ← Grid.forall_hasPlace_iff hf l b h.mem]
  constructor
  · intro hall
    obtain ⟨o, ho⟩ := List.exists_mem_of_ne_nil _ (places_ne_nil hf b h.mem)
    exact ⟨((hplaces o ho).mp (hall o ho)).1, fun o ho => ((hplaces o ho).mp (hall o ho)).2⟩
  · intro hall o ho
    exact (hplaces o ho).mpr ⟨hall.1, hall.2 o ho⟩

/-- The number of cells along an edge. -/
def edgeCells (nx ny : ℕ) : Location → ℕ
  | .left | .right => ny
  | .bottom | .top => nx

/-- Along each edge there are as many cells as rows or columns. -/
theorem sum_hasPlace (hnx : 0 < nx) (hny : 0 < ny) (l : Location) :
    ∑ c ∈ Finset.range ny ×ˢ Finset.range nx, (if l.HasPlace (ny - 1) (nx - 1) c then 1 else 0) =
      edgeCells nx ny l := by
  have hone {n k : ℕ} (hk : k < n) : ∑ i ∈ Finset.range n, (if i = k then 1 else 0) = 1 := by
    rw [Finset.sum_ite_eq', if_pos (Finset.mem_range.mpr hk)]
  have hcolumns (k : ℕ) (hk : k < nx) :
      ∑ c ∈ Finset.range ny ×ˢ Finset.range nx, (if c.2 = k then 1 else 0) = ny := by
    rw [Finset.sum_product]
    simp only [hone hk, Finset.sum_const, Finset.card_range, smul_eq_mul, mul_one]
  have hrows (k : ℕ) (hk : k < ny) :
      ∑ c ∈ Finset.range ny ×ˢ Finset.range nx, (if c.1 = k then 1 else 0) = nx := by
    rw [Finset.sum_product_right]
    simp only [hone hk, Finset.sum_const, Finset.card_range, smul_eq_mul, mul_one]
  cases l with
  | left => exact hcolumns 0 hnx
  | right => exact hcolumns (nx - 1) (by omega)
  | bottom => exact hrows 0 hny
  | top => exact hrows (ny - 1) (by omega)

/-- There are as many sides with their middles on some of the edges as cells along them. -/
theorem ncard_sideAt (hf : IsTile f) (hnx : 0 < nx) (hny : 0 < ny) (p : Location → Bool) :
    {ref : ℕ × ℕ | ∃ j i b, SideAt f nx ny ref.1 ref.2 j i b ∧ ∃ l, p l ∧
      l.HasPlace (2 * ny) (2 * nx) (2 * j + b.middle.1, 2 * i + b.middle.2)}.ncard =
      ∑ l, if p l then edgeCells nx ny l else 0 := by
  obtain ⟨rim, hrim⟩ : ∃ rim, rim = ((Finset.range ny ×ˢ Finset.range nx) ×ˢ (borders f).toFinset).filter
      fun x => ∃ l : Location, p l ∧ l.HasPlace (2 * ny) (2 * nx)
        (2 * x.1.1 + x.2.middle.1, 2 * x.1.2 + x.2.middle.2) := ⟨_, rfl⟩
  obtain ⟨ref, href⟩ : ∃ ref : (ℕ × ℕ) × Border → ℕ × ℕ, ref = fun x =>
    ((x.1.1 * nx + x.1.2) * (stencils f).length + x.2.element, x.2.side) := ⟨_, rfl⟩
  have hmem (x : (ℕ × ℕ) × Border) : x ∈ rim ↔
      SideAt f nx ny (ref x).1 (ref x).2 x.1.1 x.1.2 x.2 ∧
        ∃ l : Location, p l ∧ l.HasPlace (2 * ny) (2 * nx)
          (2 * x.1.1 + x.2.middle.1, 2 * x.1.2 + x.2.middle.2) := by
    rw [hrim, href, Finset.mem_filter, Finset.mem_product, Finset.mem_product, Finset.mem_range,
      Finset.mem_range, List.mem_toFinset]
    exact and_congr_left fun _ => ⟨fun ⟨⟨hj, hi⟩, hb⟩ => ⟨hj, hi, hb, rfl, rfl⟩,
      fun h => ⟨⟨h.row_lt, h.column_lt⟩, h.mem⟩⟩
  have himage : {ref : ℕ × ℕ | ∃ j i b, SideAt f nx ny ref.1 ref.2 j i b ∧ ∃ l, p l ∧
      l.HasPlace (2 * ny) (2 * nx) (2 * j + b.middle.1, 2 * i + b.middle.2)} = ref '' rim := by
    ext ⟨n, s⟩
    simp only [Set.mem_ofPred_eq, Set.mem_image, Finset.mem_coe, hmem]
    constructor
    · rintro ⟨j, i, b, h, hl⟩
      have hplace : ref ((j, i), b) = (n, s) := by rw [href, h.element_eq, h.side_eq]
      exact ⟨((j, i), b), ⟨by rwa [hplace], hl⟩, hplace⟩
    · rintro ⟨x, ⟨h, hl⟩, hplace⟩
      rw [hplace] at h
      exact ⟨_, _, _, h, hl⟩
  have hinj : Set.InjOn ref rim := by
    intro x hx x' hx' hsame
    obtain ⟨hj, hi, hb⟩ := (((hmem x').mp hx').1.ref_eq_iff hf ((hmem x).mp hx).1).mp hsame
    exact Prod.ext (Prod.ext hj hi) hb
  calc {ref : ℕ × ℕ | ∃ j i b, SideAt f nx ny ref.1 ref.2 j i b ∧ ∃ l, p l ∧
          l.HasPlace (2 * ny) (2 * nx) (2 * j + b.middle.1, 2 * i + b.middle.2)}.ncard
      = rim.card := by rw [himage, hinj.ncard_image, Set.ncard_coe_finset]
    _ = ∑ c ∈ Finset.range ny ×ˢ Finset.range nx, ((borders f).toFinset.filter fun b =>
          ∃ l : Location, p l ∧ l.HasPlace (2 * ny) (2 * nx)
            (2 * c.1 + b.middle.1, 2 * c.2 + b.middle.2)).card := by
        rw [hrim]
        simp only [Finset.card_filter, Finset.sum_product]
    _ = ∑ c ∈ Finset.range ny ×ˢ Finset.range nx,
          ∑ l : Location, (if p l then if l.HasPlace (ny - 1) (nx - 1) c then 1 else 0 else 0) := by
        refine Finset.sum_congr rfl fun c hc => ?_
        obtain ⟨hj, hi⟩ := Finset.mem_product.mp hc
        have hcount := card_borders hf fun l => p l && decide (l.HasPlace (ny - 1) (nx - 1) c)
        simp only [Bool.and_eq_true, decide_eq_true_eq, ite_and] at hcount
        rw [← hcount]
        refine congrArg Finset.card (Finset.filter_congr fun b hb => exists_congr fun l => ?_)
        rw [and_assoc]
        exact and_congr_right fun _ => hasPlace_iff two_pos (Finset.mem_range.mp hj) (Finset.mem_range.mp hi)
          (middle_le hf b (List.mem_toFinset.mp hb)) l
    _ = ∑ l, if p l then edgeCells nx ny l else 0 := by
        rw [Finset.sum_comm]
        refine Finset.sum_congr rfl fun l _ => ?_
        split_ifs
        · exact sum_hasPlace hnx hny l
        · exact Finset.sum_const_zero

/-- There are as many exterior sides as cells along all four edges. -/
theorem ncard_isExterior (hf : IsTile f) (hnx : 0 < nx) (hny : 0 < ny) :
    {ref : ℕ × ℕ | ∃ ids, Mesh.IsExterior (tilingCells f nx ny) ref.1 ref.2 ids}.ncard =
      2 * (nx + ny) := by
  have hsides : {ref : ℕ × ℕ | ∃ ids, Mesh.IsExterior (tilingCells f nx ny) ref.1 ref.2 ids} =
      {ref : ℕ × ℕ | ∃ j i b, SideAt f nx ny ref.1 ref.2 j i b ∧ ∃ l : Location, true ∧
        l.HasPlace (2 * ny) (2 * nx) (2 * j + b.middle.1, 2 * i + b.middle.2)} := by
    ext ref
    simp only [Set.mem_ofPred_eq, isExterior_tilingCells hf, true_and]
    constructor
    · rintro ⟨_, j, i, b, h, -, hl⟩
      exact ⟨j, i, b, h, hl⟩
    · rintro ⟨j, i, b, h, hl⟩
      exact ⟨_, j, i, b, h, rfl, hl⟩
  rw [hsides, ncard_sideAt hf hnx hny fun _ => true]
  simp only [if_true, Location.sum_eq, edgeCells]
  ring

end Edges

section Nodes

theorem partsPerCell_pos (f : Family) : 0 < partsPerCell f := by
  rcases partsPerCell_cases f with hk | hk <;> rw [hk] <;> decide

/-- Every row or column of the lattice belongs to a row or column of cells. -/
theorem exists_cell {k r : ℕ} (hny : 0 < ny) (hr : r ≤ k * ny) :
    ∃ j < ny, ∃ y ∈ List.range (k + 1), r = k * j + y := by
  by_cases hlast : r = k * ny
  · refine ⟨ny - 1, by omega, k, by simp, ?_⟩
    rw [hlast, ← Nat.mul_succ, Nat.succ_eq_add_one, Nat.sub_add_cancel hny]
  · have hlt : r < k * ny := by omega
    have hk : 0 < k := Nat.pos_of_mul_pos_right (Nat.zero_lt_of_lt hlt)
    refine ⟨r / k, Nat.div_lt_of_lt_mul hlt, r % k, ?_, (Nat.div_add_mod r k).symm⟩
    exact List.mem_range.mpr (Nat.lt_succ_of_lt (Nat.mod_lt r hk))

/-- The nodes of the exterior sides are those on the edges of the rectangle. -/
theorem exists_isExterior_iff (hf : IsTile f) (hnx : 0 < nx) (hny : 0 < ny) {k : ℤ} :
    (∃ n s ids, Mesh.IsExterior (tilingCells f nx ny) n s ids ∧ k ∈ ids) ↔
      ∃ r c, r ≤ partsPerCell f * ny ∧ c ≤ partsPerCell f * nx ∧
        k = nodeId (partsPerCell f * nx + 1) r c ∧
          ∃ l : Location, l.HasPlace (partsPerCell f * ny) (partsPerCell f * nx) (r, c) := by
  constructor
  · rintro ⟨n, s, ids, hexterior, hk⟩
    obtain ⟨j, i, b, h, rfl, l, hl⟩ := (isExterior_tilingCells hf).mp hexterior
    obtain ⟨o, ho, rfl⟩ := List.mem_map.mp hk
    obtain ⟨hrow, hcolumn⟩ := h.places_le hf o ho
    exact ⟨_, _, hrow, hcolumn, rfl, l, (h.forall_hasPlace_iff hf l).mpr hl o ho⟩
  · rintro ⟨r, c, hr, hc, rfl, l, hl⟩
    obtain ⟨j, hj, y, hy, rfl⟩ := exists_cell hny hr
    obtain ⟨i, hi, x, hx, rfl⟩ := exists_cell hnx hc
    have hle : y ≤ partsPerCell f ∧ x ≤ partsPerCell f :=
      ⟨Nat.le_of_lt_succ (List.mem_range.mp hy), Nat.le_of_lt_succ (List.mem_range.mp hx)⟩
    obtain ⟨hcell, hplace⟩ := (hasPlace_iff (o := (y, x)) (partsPerCell_pos f) hj hi hle l).mp hl
    obtain ⟨b, hb, hmiddle, hmem⟩ := exists_border hf l y hy x hx hplace
    have h : SideAt f nx ny ((j * nx + i) * (stencils f).length + b.element) b.side j i b :=
      ⟨hj, hi, hb, rfl, rfl⟩
    exact ⟨_, _, _, h.isExterior hf ((hasPlace_iff two_pos hj hi (middle_le hf b hb) l).mpr ⟨hcell, hmiddle⟩),
      List.mem_map.mpr ⟨(y, x), hmem, rfl⟩⟩

theorem mem_tilingCells {c : Family × List ℤ} : c ∈ tilingCells f nx ny ↔
    ∃ j < ny, ∃ i < nx, ∃ stencil ∈ stencils f, c = (f, cellNodes f nx j i stencil) := by
  simp only [tilingCells, cells, List.mem_flatMap, List.mem_range, List.mem_map, eq_comm]

/-- Every node belongs to an element. -/
theorem exists_mem_tilingCells (hf : IsTile f) (hnx : 0 < nx) (hny : 0 < ny) {k : ℤ} (hone : 1 ≤ k)
    (hle : k ≤ ((partsPerCell f * ny + 1) * (partsPerCell f * nx + 1) : ℕ)) :
    ∃ c ∈ tilingCells f nx ny, k ∈ c.2 := by
  obtain ⟨r, c, hr, hc, rfl⟩ := exists_place hone hle
  obtain ⟨j, hj, y, hy, rfl⟩ := exists_cell hny hr
  obtain ⟨i, hi, x, hx, rfl⟩ := exists_cell hnx hc
  obtain ⟨stencil, hstencil, hmem⟩ := exists_stencil hf y hy x hx
  exact ⟨_, mem_tilingCells.mpr ⟨j, hj, i, hi, stencil, hstencil, rfl⟩, List.mem_map.mpr ⟨(y, x), hmem, rfl⟩⟩

end Nodes

section Meshes

variable {xlo xhi ylo yhi : ℝ} {d : ℕ}

/-- The nodes of the grid, with as many parts between neighbouring cells as its elements need. -/
noncomputable def tilingNodes (f : Family) (xlo xhi ylo yhi : ℝ) (nx ny : ℕ) : List (List ℝ) :=
  rectangleNodes xlo xhi ylo yhi (partsPerCell f * nx) (partsPerCell f * ny)

/-- The grid of a rectangle. -/
theorem rectangleOfData_eq_tiling (hf : IsTile f) (space : Datum ℝ) (hx : xlo < xhi) (hy : ylo < yhi)
    (hnx : 0 < nx) (hny : 0 < ny) :
    rectangleOfData space (.real xlo) (.real xhi) (.real ylo) (.real yhi) (.integer nx) (.integer ny)
        f.name =
      .ok (.ofLists space (tilingNodes f xlo xhi ylo yhi nx ny) (tilingCells f nx ny)) := by
  have hname : (family f.name : Except (Error ℝ) Family) = .ok f := by
    rcases hf with rfl | rfl | rfl
    · rw [family, show Family.ofName? Family.quad4.name = some .quad4 by decide +kernel]
    · rw [family, show Family.ofName? Family.tri3.name = some .tri3 by decide +kernel]
    · rw [family, show Family.ofName? Family.tri6.name = some .tri6 by decide +kernel]
  have hrectangle : rectangle? space xlo xhi ylo yhi nx ny f =
      some (.ofLists space (tilingNodes f xlo xhi ylo yhi nx ny) (tilingCells f nx ny)) := by
    have hnodes := lattice_points xlo xhi ylo yhi (Nat.mul_pos (partsPerCell_pos f) hnx)
      (Nat.mul_pos (partsPerCell_pos f) hny)
    rw [tilingNodes, ← hnodes]
    have hcells (cell : (j i : ℕ) → List (Family × List ℤ))
        (hcell : ∀ j i, cell j i = (stencils f).map fun stencil => (f, cellNodes f nx j i stencil)) :
        cells nx ny cell = tilingCells f nx ny :=
      congrArg (cells nx ny) (funext fun j => funext fun i => hcell j i)
    rcases hf with rfl | rfl | rfl
    · rw [← hcells (quad4Cells nx) fun j i => by
        simp [quad4Cells, stencils, cellNodes, place, partsPerCell]]
      rfl
    · rw [← hcells (tri3Cells nx) fun j i => by
        simp [tri3Cells, stencils, cellNodes, place, partsPerCell]]
      rfl
    · rw [← hcells (tri6Cells nx) fun j i => by
        simp [tri6Cells, stencils, cellNodes, place, partsPerCell]]
      rfl
  unfold rectangleOfData
  rw [checkExtent_eq_ok "x" hx hnx, ok_bind, checkExtent_eq_ok "y" hy hny, ok_bind, hname, ok_bind,
    if_pos (by rcases hf with rfl | rfl | rfl <;> decide), partCount_integer, ok_bind, ends_real, ok_bind]
  simp only [checkCapacity_real, partCount_integer, ends_real, ok_bind, hrectangle]
  rfl

/-- The grid of a rectangle is frozen. -/
theorem isOver_tiling (xlo xhi ylo yhi : ℝ) (hf : IsTile f) {space : Datum ℝ} (hd : Space.dofsPerNode space 2 = .ok d)
    (hnx : 0 < nx) (hny : 0 < ny) :
    let m := Mesh.ofLists space (tilingNodes f xlo xhi ylo yhi nx ny) (tilingCells f nx ny)
    m.freeze.1 = .ok () ∧
      m.freeze.2.IsOver (tilingNodes f xlo xhi ylo yhi nx ny) (tilingCells f nx ny) d ∧
      m.freeze.2.regions = [] := by
  obtain ⟨stencil, hstencil, -⟩ := exists_stencil hf 0 (by simp) 0 (by simp)
  have hcell := mem_tilingCells.mpr ⟨0, hny, 0, hnx, stencil, hstencil, rfl⟩
  refine Mesh.isOver_freeze (fun x hx => by rw [length_of_mem_rectangleNodes x hx]; decide)
    ⟨rectangleNodes_ne_nil, List.ne_nil_of_mem hcell⟩ (nodeDim_rectangleNodes ▸ hd) fun c hc => ?_
  obtain ⟨j, hj, i, hi, stencil, hstencil, rfl⟩ := mem_tilingCells.mp hc
  refine ⟨(List.length_map _).trans (length_of_mem_stencils hstencil), ?_, fun k hk => ?_⟩
  · rcases hf with rfl | rfl | rfl <;> exact fun _ h => nomatch h
  · obtain ⟨o, ho, rfl⟩ := List.mem_map.mp hk
    obtain ⟨hrow, hcolumn⟩ := le_of_mem_stencils hstencil o ho
    rw [tilingNodes, length_rectangleNodes]
    exact nodeId_bounds (mul_add_le hj hrow) (mul_add_le hi hcolumn)

end Meshes

end Grid
end WeakForm

import WeakForm.Proofs.Linear.Cancellation
import WeakForm.Proofs.Mesh.Boundaries
import WeakForm.Proofs.Mesh.Tags

/-!
# Places of exterior sides

In one or two dimensions an exterior side has a place: the first face of the bounding box, in the order left,
right, bottom, top, within whose tolerance all its nodes lie. A side that lies on two faces, such as the point
at a corner or a side of a thin mesh, is known by the first one only. Selecting a face by its name takes the
sides whose place it is.
-/

namespace WeakForm

namespace Location

/-- The coordinate that is the same all over a face. -/
def axis : Location → ℕ
  | left | right => 0
  | bottom | top => 1

/-- The order in which the faces are tried. -/
def rank : Location → ℕ
  | left => 0
  | right => 1
  | bottom => 2
  | top => 3

end Location

namespace DenseMatrix

variable {α : Type} [Zero α]

theorem row_selectRows (A : DenseMatrix α) {rows : List ℕ} {i : ℕ} (hi : i < rows.length) :
    (A.selectRows rows).row i = A.row (rows.getD i 0) := by
  refine List.map_congr_left fun j hj => ?_
  exact entry_ofFn _ hi (List.mem_range.mp hj)

end DenseMatrix

namespace Mesh

variable {α : Type}

section Freezing

variable {α : Type} [Scalar α] {m m' : Mesh α}

/-- A mesh that can be frozen is open, and its elements fit its nodes. -/
theorem exists_of_freeze (h : m.freeze.1 = .ok ()) : m.frozen = false ∧ m.nodes ≠ [] ∧
    m.connectivity ≠ [] ∧ ∃ n, Space.dofsPerNode m.space (nodeDim m.nodes) = .ok n ∧
      (∀ c ∈ m.connectivity, (∀ fixed, c.1.fixedDofs = some fixed → n = fixed) ∧
        ∀ k ∈ c.2, 1 ≤ k ∧ k ≤ (m.nodes.length : ℤ)) ∧
      ∃ elements : List (Element α), m.freeze.2.cells =
        classifySides (coordinateMatrix m.nodes) (connectSides (elements.map Cell.ofElement)) := by
  obtain ⟨e, dim, n, coords, hfreeze⟩ |
    ⟨hopen, hnodes, hconnectivity, n, elements, hn, hel, hfreeze⟩ := m.freeze_cases
  · rw [hfreeze] at h
    cases h
  refine ⟨hopen, hnodes, hconnectivity, n, hn, fun c hc => ?_, elements, by rw [hfreeze]; rfl⟩
  obtain ⟨i, hi⟩ := List.mem_iff_getElem?.mp hc
  obtain ⟨e, -, he⟩ := exists_of_mapM_eq_ok hel (List.mk_mem_zipIdx_iff_getElem?.mpr hi)
  exact ⟨fun fixed hfixed => fixedDofs_of_buildElement he hfixed, (buildElement_eq_ok he).2⟩

theorem location_connectSide (group : List SideRef) (self : SideRef) (side : CellSide) :
    (connectSide group self side).location = side.location := by
  unfold connectSide
  split <;> rfl

/-- The exterior sides of a mesh in a plane lie on the faces on which their points are found. -/
theorem location_of_classified {coords : DenseMatrix α} {elements : List (Element α)} {c : Cell α}
    (hc : c ∈ classifySides coords (connectSides (elements.map Cell.ofElement))) {side : CellSide}
    (hs : side ∈ c.sides) : side.location = if coords.cols ≤ 2 ∧ side.onBoundary = true then
      locate (boxFaces coords) (boxTolerance coords) (c.sidePoints side) else none := by
  have hnone : ∀ c ∈ connectSides (elements.map Cell.ofElement), ∀ side ∈ c.sides,
      side.location = none := by
    intro c hc side hs
    obtain ⟨d, hd, rfl⟩ := List.mem_map.mp hc
    obtain ⟨other, hother, rfl⟩ := List.mem_map.mp hs
    obtain ⟨e, -, he⟩ := List.mem_map.mp (List.fst_mem_of_mem_zipIdx hd)
    have hmem := List.fst_mem_of_mem_zipIdx hother
    rw [← he] at hmem
    obtain ⟨nodes, -, hnodes⟩ := List.mem_map.mp hmem
    rw [location_connectSide, ← hnodes]
  unfold classifySides at hc
  split_ifs at hc with hdim
  · rw [if_neg fun h => absurd hdim (not_lt.mpr h.1)]
    exact hnone c hc side hs
  · obtain ⟨d, hd, rfl⟩ := List.mem_map.mp hc
    obtain ⟨other, hother, rfl⟩ := List.mem_map.mp hs
    by_cases hboundary : other.onBoundary = true
    · rw [if_pos hboundary, if_pos ⟨not_lt.mp hdim, hboundary⟩]
      rfl
    · rw [if_neg hboundary, if_neg fun h => hboundary h.2]
      exact hnone d hd other hother

/-- A frozen mesh gets no more than new tags. -/
theorem Step.exists_of_frozen (hs : Step m m') (hfrozen : m.frozen = true) :
    ∃ cells regions, cells.map Cell.untagged = m.cells.map Cell.untagged ∧
      m' = { m with cells := cells, regions := regions } := by
  have hopened {tag : TagId} {kind : RegionKind} {essential : Bool} {region : Region} {opened : Mesh α}
      (h : m.openRegion tag kind essential = .ok (region, opened)) :
      opened = { m with regions := opened.regions } := by
    obtain ⟨-, -, rfl, -⟩ := openRegion_eq_ok h
    rfl
  cases hs with
  | addNode coord hadd => simp [Mesh.addNode, hfrozen] at hadd
  | addElement family nodeIds hadd => simp [Mesh.addElement, hfrozen] at hadd
  | freeze =>
    rw [freeze_of_frozen hfrozen]
    exact ⟨m.cells, m.regions, rfl, rfl⟩
  | addBoundary tag selectors essential =>
    unfold Mesh.addBoundary
    split_ifs
    · exact ⟨m.cells, m.regions, rfl, rfl⟩
    split
    · exact ⟨m.cells, m.regions, rfl, rfl⟩
    dsimp only
    split
    · exact ⟨m.cells, m.regions, rfl, rfl⟩
    · rename_i hopen
      rw [hopened hopen]
      exact ⟨_, _, map_untagged_tagCellSides _ _ _ _, rfl⟩
  | addSubdomain tag condition =>
    unfold Mesh.addSubdomain
    split_ifs
    · exact ⟨m.cells, m.regions, rfl, rfl⟩
    dsimp only
    split
    · exact ⟨m.cells, m.regions, rfl, rfl⟩
    · rename_i hopen
      rw [hopened hopen]
      exact ⟨_, _, map_untagged_tagCells _ _ _ _, rfl⟩

/-- A frozen mesh knows its dimension and its coordinates, and its cells know the places of their sides. -/
structure Placed (m : Mesh α) : Prop where
  dim_eq : m.dim = nodeDim m.nodes
  coords_eq : m.coords = some (coordinateMatrix m.nodes)
  location_eq : ∀ c ∈ m.cells, ∀ side ∈ c.sides, side.location =
    if nodeDim m.nodes ≤ 2 ∧ side.onBoundary = true then
      locate (boxFaces (coordinateMatrix m.nodes)) (boxTolerance (coordinateMatrix m.nodes))
        (c.sidePoints side)
    else none

theorem Placed.retag (h : m.Placed) {cells : List (Cell α)} {regions : List (TagKey × Region)}
    (hcells : cells.map Cell.untagged = m.cells.map Cell.untagged) :
    Placed { m with cells := cells, regions := regions } where
  dim_eq := h.dim_eq
  coords_eq := h.coords_eq
  location_eq := by
    intro c' hc' side' hside'
    obtain ⟨i, hi⟩ := List.mem_iff_getElem?.mp hc'
    obtain ⟨c, hc, hcell⟩ := Cell.exists_of_untagged hcells.symm hi
    obtain ⟨s, hs⟩ := List.mem_iff_getElem?.mp hside'
    have hsides := congrArg (fun c : Cell α => c.sides[s]?) hcell
    simp only [Cell.untagged, List.getElem?_map, hs, Option.map_some] at hsides
    obtain ⟨side, hside, huntagged⟩ := Option.map_eq_some_iff.mp hsides
    simp only [CellSide.untagged, CellSide.mk.injEq, and_true] at huntagged
    obtain ⟨hnodes, hboundary, hlocation, -⟩ := huntagged
    have helement : c.untagged.element = c'.untagged.element := by rw [hcell]
    change c.element = c'.element at helement
    have hpoints : c'.sidePoints side' = c.sidePoints side := by
      rw [Cell.sidePoints, Cell.sidePoints, hnodes, helement]
    rw [← hlocation, ← hboundary, hpoints]
    exact h.location_eq c (List.mem_of_getElem? hc) side (List.mem_of_getElem? hside)

theorem placed_freeze (hopen : m.frozen = false) (hfrozen : m.freeze.2.frozen = true) :
    m.freeze.2.Placed := by
  obtain ⟨e, dim, n, coords, hfreeze⟩ | ⟨-, -, -, n, elements, -, -, hfreeze⟩ := m.freeze_cases
  · rw [hfreeze] at hfrozen
    exact absurd hfrozen (by simp [hopen])
  · rw [hfreeze]
    exact ⟨rfl, rfl, fun c hc side hside => location_of_classified hc hside⟩

/-- Of an open mesh only freezing makes a frozen one. -/
theorem Step.eq_freeze (hs : Step m m') (hopen : m.frozen = false) (hfrozen' : m'.frozen = true) :
    m' = m.freeze.2 := by
  have hsame {x : Mesh α} (hx : x.frozen = m.frozen) (hx' : x.frozen = true) : x = m.freeze.2 := by
    rw [hx, hopen] at hx'
    cases hx'
  cases hs with
  | addNode coord hadd =>
    obtain ⟨-, -, rfl⟩ := addNode_eq_ok hadd
    exact hsame rfl hfrozen'
  | addElement family nodeIds hadd =>
    obtain ⟨-, -, rfl⟩ := addElement_eq_ok hadd
    exact hsame rfl hfrozen'
  | freeze => rfl
  | addBoundary tag selectors essential =>
    refine hsame ?_ hfrozen'
    rw [Mesh.addBoundary, if_pos (by simp [hopen])]
  | addSubdomain tag condition =>
    refine hsame ?_ hfrozen'
    rw [Mesh.addSubdomain, if_pos (by simp [hopen])]

theorem Step.placed (hs : Step m m') (h : m.frozen = true → m.Placed) (hfrozen' : m'.frozen = true) :
    m'.Placed := by
  by_cases hfrozen : m.frozen = true
  · obtain ⟨cells, regions, hcells, rfl⟩ := hs.exists_of_frozen hfrozen
    exact (h hfrozen).retag hcells
  · rw [Bool.not_eq_true] at hfrozen
    obtain rfl := hs.eq_freeze hfrozen hfrozen'
    exact placed_freeze hfrozen hfrozen'

/-- A mesh without elements is not frozen. -/
theorem connectivity_ne_nil_of_freeze (hopen : m.frozen = false) (hfrozen : m.freeze.2.frozen = true) :
    m.freeze.2.connectivity ≠ [] := by
  obtain ⟨e, dim, n, coords, hfreeze⟩ | ⟨-, -, hconnectivity, n, elements, -, -, hfreeze⟩ := m.freeze_cases
  · rw [hfreeze] at hfrozen
    exact absurd hfrozen (by simp [hopen])
  · rw [hfreeze]
    exact hconnectivity

theorem Reachable.connectivity_ne_nil (hm : m.Reachable) (hfrozen : m.frozen = true) :
    m.connectivity ≠ [] := by
  induction hm with
  | empty space => cases hfrozen
  | @step m m' _ hs ih =>
    by_cases hfrozen' : m.frozen = true
    · obtain ⟨cells, regions, -, rfl⟩ := hs.exists_of_frozen hfrozen'
      exact ih hfrozen'
    · rw [Bool.not_eq_true] at hfrozen'
      obtain rfl := hs.eq_freeze hfrozen' hfrozen
      exact connectivity_ne_nil_of_freeze hfrozen' hfrozen

/-- At all times after freezing the places of the sides are known. -/
theorem Reachable.placed (hm : m.Reachable) (hfrozen : m.frozen = true) : m.Placed := by
  induction hm with
  | empty space => cases hfrozen
  | step _ hs ih => exact hs.placed ih hfrozen

end Freezing

section Faces

variable [Scalar α] {coords : DenseMatrix α} {l : Location}

/-- The faces of the bounding box in the order in which they are tried. -/
def faceNames (dim : ℕ) : List Location :=
  [.left, .right] ++ if dim = 2 then [.bottom, .top] else []

/-- The coordinate of a face of the bounding box. -/
def boxSide (coords : DenseMatrix α) : Location → α
  | .left => (columnRange coords 0).1
  | .right => (columnRange coords 0).2
  | .bottom => (columnRange coords 1).1
  | .top => (columnRange coords 1).2

theorem boxFaces_eq (coords : DenseMatrix α) : boxFaces coords =
    (faceNames coords.cols).map fun l => (l.axis, boxSide coords l, l) := by
  unfold boxFaces faceNames
  split_ifs <;> rfl

/-- The first face of a mesh that satisfies a condition. -/
theorem find?_faceNames {dim : ℕ} (hdim : 1 ≤ dim ∧ dim ≤ 2) {p : Location → Bool} :
    (faceNames dim).find? p = some l ↔
      l.axis < dim ∧ p l = true ∧ ∀ l', l'.rank < l.rank → p l' = false := by
  have hall (P : Location → Prop) : (∀ l', P l') ↔ P .left ∧ P .right ∧ P .bottom ∧ P .top :=
    ⟨fun h => ⟨h _, h _, h _, h _⟩, fun ⟨_, _, _, _⟩ l' => by cases l' <;> assumption⟩
  rw [hall]
  obtain rfl | rfl : dim = 1 ∨ dim = 2 := by omega
  all_goals
    cases l <;> cases hleft : p .left <;> cases hright : p .right <;> cases hbottom : p .bottom <;>
      simp [faceNames, Location.axis, Location.rank, hleft, hright, hbottom]

variable {m : Mesh α} {ref : SideRef} {side : CellSide}

/-- How far from a face of the bounding box a node may be. -/
def tolerance (m : Mesh α) : α := boxTolerance (coordinateMatrix m.nodes)

/-- A node lies on a face of the bounding box, within a tolerance. -/
def NodeOn (m : Mesh α) (t : α) (l : Location) (k : ℤ) : Prop :=
  Scalar.atMost (Scalar.abs ((coordinateMatrix m.nodes).entry (k - 1).toNat l.axis -
    boxSide (coordinateMatrix m.nodes) l)) t = true

/-- All nodes of a side lie on a face. -/
def SideOn (m : Mesh α) (t : α) (l : Location) (ref : SideRef) : Prop :=
  ∀ k ∈ m.sideNodeIds ref, m.NodeOn t l k

instance (m : Mesh α) (t : α) (l : Location) (k : ℤ) : Decidable (m.NodeOn t l k) :=
  inferInstanceAs (Decidable (_ = true))

instance (m : Mesh α) (t : α) (l : Location) (ref : SideRef) : Decidable (m.SideOn t l ref) :=
  inferInstanceAs (Decidable (∀ k ∈ m.sideNodeIds ref, m.NodeOn t l k))

/-- An exterior side, or none. -/
def IsExteriorSide (m : Mesh α) (ref : SideRef) : Prop :=
  ∃ side, m.side? ref = some side ∧ side.onBoundary = true

/-- The first face on which an exterior side lies. -/
structure HasFace (m : Mesh α) (t : α) (ref : SideRef) (l : Location) : Prop where
  exterior : m.IsExteriorSide ref
  on : m.SideOn t l ref
  axis_lt : l.axis < m.dim
  first : ∀ l', l'.rank < l.rank → ¬ m.SideOn t l' ref

/-- A side lies on one face only as its first one. -/
theorem HasFace.unique {t : α} {l' : Location} (h : m.HasFace t ref l) (h' : m.HasFace t ref l') : l' = l := by
  rcases lt_trichotomy l.rank l'.rank with hrank | hrank | hrank
  · exact absurd h.on (h'.first l hrank)
  · cases l <;> cases l' <;> first | rfl | exact absurd hrank (by decide)
  · exact absurd h'.on (h.first l' hrank)

/-- The place of a side. -/
def location? (m : Mesh α) (ref : SideRef) : Option Location := (m.side? ref).bind CellSide.location

/-- The points of a side are its nodes. -/
theorem Built.sidePoints_eq (hb : m.Built) (hm : m.WellFormed) {c : Cell α} (hc : c ∈ m.cells)
    (hs : side ∈ c.sides) : c.sidePoints side =
      (c.sideNodeIds side).map fun k => (coordinateMatrix m.nodes).row (k - 1).toNat := by
  have hnodes : side.nodes ∈ c.element.family.sides := hm.sides c hc ▸ List.mem_map_of_mem hs
  rw [Cell.sidePoints, Cell.sideNodeIds, List.map_map]
  refine List.map_congr_left fun p hp => ?_
  have hlt : p < c.element.nodeIds.length := by
    rw [c.element.length_nodeIds]
    exact (Family.lt_of_mem_sides hnodes).2 p hp
  rw [(hb.isMade_of_mem hc).1.nodes_eq, nodesOf, DenseMatrix.row_selectRows _ (by simpa using hlt)]
  simp [hlt]

theorem locate_eq_some (hdim : 1 ≤ coords.cols ∧ coords.cols ≤ 2) {tolerance : α}
    {points : List (List α)} {isOn : Location → Prop} (hon : ∀ l, isOn l ↔ ∀ p ∈ points,
      Scalar.atMost (Scalar.abs (p.getD l.axis 0 - boxSide coords l)) tolerance = true) :
    locate (boxFaces coords) tolerance points = some l ↔
      l.axis < coords.cols ∧ isOn l ∧ ∀ l', l'.rank < l.rank → ¬ isOn l' := by
  have hface (l : Location) : (points.all fun p =>
      Scalar.atMost (Scalar.abs (p.getD l.axis 0 - boxSide coords l)) tolerance) = true ↔ isOn l := by
    rw [hon, List.all_eq_true]
  rw [locate, boxFaces_eq, List.find?_map, Option.map_map]
  change ((faceNames coords.cols).find? _).map id = some l ↔ _
  rw [Option.map_id, id, find?_faceNames hdim]
  simp only [Function.comp_apply, ← Bool.not_eq_true, hface]

/-- The place of a side is the first face on which it lies, if it is exterior. -/
theorem Reachable.location_eq_some (hm : m.Reachable) (hfrozen : m.frozen = true) (hdim : m.dim ≤ 2)
    (hside : m.side? ref = some side) : side.location = some l ↔ m.HasFace m.tolerance ref l := by
  obtain ⟨i, c, s, rfl, hc, hs⟩ := side?_eq_some.mp hside
  have hc' := List.mem_of_getElem? hc
  have hs' := List.mem_of_getElem? hs
  have hplaced := hm.placed hfrozen
  have hbuilt := hm.wellFormed.built hfrozen
  have hcols : (coordinateMatrix m.nodes).cols = m.dim := hplaced.dim_eq.symm
  have hpos : 1 ≤ (coordinateMatrix m.nodes).cols := by
    have hnodes := hm.wellFormed.cols_nodes_pos hfrozen hc'
    rwa [(hbuilt.isMade_of_mem hc').1.nodes_eq] at hnodes
  have hon (l : Location) : m.SideOn m.tolerance l (i + 1, s) ↔ ∀ p ∈ c.sidePoints side,
      Scalar.atMost (Scalar.abs (p.getD l.axis 0 - boxSide (coordinateMatrix m.nodes) l))
        (boxTolerance (coordinateMatrix m.nodes)) = true := by
    rw [hbuilt.sidePoints_eq hm.wellFormed hc' hs', List.forall_mem_map, SideOn, sideNodeIds_eq hc hs]
    simp only [DenseMatrix.getD_row, NodeOn, tolerance]
  rw [hplaced.location_eq c hc' side hs', ← hplaced.dim_eq]
  by_cases hboundary : side.onBoundary = true
  · rw [if_pos ⟨hdim, hboundary⟩, locate_eq_some ⟨hpos, hcols ▸ hdim⟩ hon, hcols]
    exact ⟨fun ⟨haxis, hl, hfirst⟩ => ⟨⟨side, hside, hboundary⟩, hl, haxis, hfirst⟩,
      fun ⟨_, hl, haxis, hfirst⟩ => ⟨haxis, hl, hfirst⟩⟩
  · rw [if_neg fun h => hboundary h.2]
    refine iff_of_false nofun fun ⟨⟨side', hside', hboundary'⟩, _, _, _⟩ => ?_
    rw [hside, Option.some.injEq] at hside'
    exact hboundary (hside' ▸ hboundary')

/-- Only an exterior side has a place. -/
theorem Reachable.onBoundary_and_location_eq_some (hm : m.Reachable) (hfrozen : m.frozen = true) (hdim : m.dim ≤ 2)
    (hside : m.side? ref = some side) :
    side.onBoundary = true ∧ side.location = some l ↔ m.HasFace m.tolerance ref l := by
  rw [hm.location_eq_some hfrozen hdim hside]
  refine and_iff_right_of_imp fun h => ?_
  obtain ⟨side', hside', hboundary⟩ := h.exterior
  rw [hside, Option.some.injEq] at hside'
  exact hside' ▸ hboundary

theorem Reachable.location?_eq_some (hm : m.Reachable) (hfrozen : m.frozen = true) (hdim : m.dim ≤ 2) :
    m.location? ref = some l ↔ m.HasFace m.tolerance ref l := by
  rw [location?, Option.bind_eq_some_iff]
  constructor
  · rintro ⟨side, hside, hl⟩
    exact (hm.location_eq_some hfrozen hdim hside).mp hl
  · intro h
    obtain ⟨side, hside, -⟩ := h.exterior
    exact ⟨side, hside, (hm.location_eq_some hfrozen hdim hside).mpr h⟩

end Faces

section Reals

variable {m : Mesh ℝ}

theorem columnRange_eq (A : DenseMatrix ℝ) (j : ℕ) :
    columnRange A j = ((A.column j).min?.getD 0, (A.column j).max?.getD 0) := by
  unfold columnRange
  cases A.column j with
  | nil => rfl
  | cons x xs => rw [List.min?_cons', List.max?_cons', min_real, max_real, Option.getD_some, Option.getD_some]

/-- The bounding box goes from the least to the greatest coordinate of a node. -/
theorem columnRange_spec (A : DenseMatrix ℝ) (hrows : 0 < A.rows) (j : ℕ) :
    IsLeast {x | ∃ i < A.rows, A.entry i j = x} (columnRange A j).1 ∧
      IsGreatest {x | ∃ i < A.rows, A.entry i j = x} (columnRange A j).2 := by
  have hmem (x : ℝ) : x ∈ A.column j ↔ ∃ i < A.rows, A.entry i j = x := by simp [DenseMatrix.column]
  have hne : A.column j ≠ [] := by simpa [DenseMatrix.column] using hrows.ne'
  obtain ⟨lo, hlo⟩ := Option.ne_none_iff_exists'.mp (mt List.min?_eq_none_iff.mp hne)
  obtain ⟨hi, hhi⟩ := Option.ne_none_iff_exists'.mp (mt List.max?_eq_none_iff.mp hne)
  rw [columnRange_eq, hlo, hhi]
  obtain ⟨hlo, hleast⟩ := List.min?_eq_some_iff.mp hlo
  obtain ⟨hhi, hgreatest⟩ := List.max?_eq_some_iff.mp hhi
  exact ⟨⟨(hmem lo).mp hlo, fun x hx => hleast x ((hmem x).mpr hx)⟩,
    ⟨(hmem hi).mp hhi, fun x hx => hgreatest x ((hmem x).mpr hx)⟩⟩

/-- A node lies on a face if its coordinate is within the tolerance of that of the face. -/
theorem nodeOn_iff {t : ℝ} {l : Location} {k : ℤ} : m.NodeOn t l k ↔
    |(coordinateMatrix m.nodes).entry (k - 1).toNat l.axis - boxSide (coordinateMatrix m.nodes) l| ≤ t := by
  simp only [NodeOn, abs_real, Scalar.atMost, decide_eq_true_eq]

end Reals

section Selecting

variable [Scalar α] {m : Mesh α} {tag : TagId} {name : String} {l : Location}

theorem takesSide_location (hname : Location.ofName? name = some l) (c : Cell α) (side : CellSide) :
    takesSide [.location name] c side = .ok (side.onBoundary && side.location == some l) := by
  unfold takesSide
  cases side.onBoundary with
  | false => rfl
  | true =>
    have hany : (side.location.any fun l' => Location.ofName? name == some l') =
        (side.location == some l) := by
      rw [hname]
      cases side.location with
      | none => rfl
      | some l' =>
        rw [Option.any_some, Bool.eq_iff_iff, beq_iff_eq, beq_iff_eq]
        exact eq_comm
    simp only [Bool.not_true, Bool.false_eq_true, if_false, List.isEmpty_cons, selectsAny, selects, hany,
      Bool.true_and]
    cases side.location == some l <;> rfl

/-- What is tagged by the name of a face: the exterior sides whose first face it is. -/
theorem addBoundary_location (hm : m.Reachable) (hfrozen : m.frozen = true) (hdim : m.dim ≤ 2)
    (husable : tag.key ≠ .unusable)
    (hnew : m.regions.lookup (tag.numbered m.regions.length).key = none)
    (hname : Location.ofName? name = some l) (essential : Bool) :
    ∃ r m', m.addBoundary tag [.location name] essential = (.ok r, m') ∧
      m'.regions.lookup (tag.numbered m.regions.length).key = some r ∧
      (∀ ref, ref ∈ r.sides ↔ m.HasFace m.tolerance ref l) ∧
      ∀ ref side, m'.side? ref = some side →
        ((tag.numbered m.regions.length).key ∈ side.boundaryIds.map TagId.key ↔ m.HasFace m.tolerance ref l) := by
  have hopen := openRegion_of_new .boundary essential
    ((TagId.numbered_ne_unusable_iff tag _).mpr husable) hnew
  have hknown : unknownLocation? [(.location name : Selector α)] = none := by
    simp [unknownLocation?, hname]
  obtain ⟨sides, cells, hadd, -, hmem⟩ :=
    addBoundary_of_total hfrozen hknown hopen fun c _ side _ => takesSide_location hname c side
  have hsides (ref : SideRef) : ref ∈ sides ↔ m.HasFace m.tolerance ref l := by
    have htakes (side : CellSide) (hside : m.side? ref = some side) :
        (side.onBoundary && side.location == some l) = true ↔ m.HasFace m.tolerance ref l := by
      rw [Bool.and_eq_true, beq_iff_eq]
      exact hm.onBoundary_and_location_eq_some hfrozen hdim hside
    simp only [hmem, List.not_mem_nil, false_or]
    constructor
    · rintro ⟨hone, c, side, hc, hs, h⟩
      refine (htakes side (side?_eq_some.mpr ⟨ref.1 - 1, c, ref.2, ?_, hc, hs⟩)).mp h
      exact Prod.ext (Nat.sub_add_cancel hone).symm rfl
    · intro h
      obtain ⟨side, hside, -⟩ := h.exterior
      obtain ⟨i, c, s, rfl, hc, hs⟩ := side?_eq_some.mp hside
      exact ⟨Nat.le_add_left 1 i, c, side, hc, hs, (htakes side hside).mpr h⟩
  refine ⟨_, _, hadd, by simp [lookup_assign], hsides, fun ref side hside => ?_⟩
  have hreachable := hm.step (.addBoundary m tag [.location name] essential)
  rw [hadd] at hreachable
  rw [hreachable.tagsAgree.sides ref side hside]
  simp [ListsSide, lookup_assign, hsides]

/-- Two segments that lead down from the upper left corner. -/
noncomputable def forkedLine : Mesh Float :=
  (Mesh.ofLists (.integer 2) [[0, 1], [1, 0], [2, 0]] [(.line2, [1, 2]), (.line2, [1, 3])]).freeze.2

/-- Of the two ends at the bottom the first one is tagged. The other one lies on the right face as well, and
is not. -/
theorem addBoundary_forkedLine :
    ∃ r m', forkedLine.addBoundary (.number 1) [.location "bottom"] true = (.ok r, m') ∧
      r.sides = [(1, 1)] ∧ (∀ ref, ref ∈ r.sides ↔ forkedLine.HasFace forkedLine.tolerance ref .bottom) ∧
      forkedLine.SideOn forkedLine.tolerance .bottom (2, 1) ∧
      ¬ forkedLine.HasFace forkedLine.tolerance (2, 1) .bottom := by
  have hreachable : forkedLine.Reachable :=
    .step (reachable_ofLists _ (by simp) (by simp [Family.nodeCount])) (.freeze _)
  have hbottom : Location.ofName? "bottom" = some .bottom := by decide +kernel
  obtain ⟨r, m', hadd, -, hsides, -⟩ : ∃ r m', forkedLine.addBoundary (.number 1) [.location "bottom"] true =
      (.ok r, m') ∧ _ := addBoundary_location hreachable (by decide +kernel) (by decide +kernel) (by decide)
    (by decide +kernel) hbottom true
  have hlist : (forkedLine.addBoundary (.number 1) [.location "bottom"] true).1.toOption.map
      Region.sides = some [(1, 1)] := by decide +kernel
  rw [hadd] at hlist
  have hr : r.sides = [(1, 1)] := Option.some.inj hlist
  refine ⟨r, m', hadd, hr, hsides, by decide +kernel, fun h => ?_⟩
  have hmem := (hsides (2, 1)).mpr h
  rw [hr] at hmem
  exact absurd hmem (by decide)

/-- A segment along the diagonal of its bounding box. -/
noncomputable def diagonalLine : Mesh Float :=
  (Mesh.ofLists (.integer 2) [[0, 0], [1, 1]] [(.line2, [1, 2])]).freeze.2

/-- Its lower end lies on the bottom, but is known as a point on the left, and the bottom takes nothing. -/
theorem addBoundary_diagonalLine_not : ∃ r,
    (diagonalLine.addBoundary (.number 1) [.location "bottom"] true).1 = .ok r ∧
      ¬ ∀ ref, ref ∈ r.sides ↔ diagonalLine.IsExteriorSide ref ∧
        diagonalLine.SideOn diagonalLine.tolerance .bottom ref := by
  have hlist : (diagonalLine.addBoundary (.number 1) [.location "bottom"] true).1.toOption.map
      Region.sides = some [] := by decide +kernel
  have hexterior : (diagonalLine.side? (1, 0)).map CellSide.onBoundary = some true := by decide +kernel
  have hon : diagonalLine.SideOn diagonalLine.tolerance .bottom (1, 0) := by decide +kernel
  obtain ⟨side, hside, hboundary⟩ := Option.map_eq_some_iff.mp hexterior
  generalize (diagonalLine.addBoundary (.number 1) [.location "bottom"] true).1 = result at hlist ⊢
  obtain e | r := result
  · cases hlist
  · have hr : r.sides = [] := Option.some.inj hlist
    refine ⟨r, rfl, fun h => ?_⟩
    have hmem := (h (1, 0)).mpr ⟨⟨side, hside, hboundary⟩, hon⟩
    rw [hr] at hmem
    cases hmem

end Selecting

end Mesh
end WeakForm

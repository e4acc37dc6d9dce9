import Mathlib.Data.List.Forall2
import WeakForm.Mesh.Topology
import WeakForm.Proofs.Mesh.Tagging
import WeakForm.Proofs.Outcome

/-!
# Reachable meshes

The states that a mesh can get into: it starts empty, and every operation on it, whether it
succeeds or not, is a step. In all of these states the mesh is well formed. Once frozen, its cells
are the elements built from its nodes and its connectivity, and its regions name sides that exist.
-/

namespace WeakForm

namespace Mesh

variable {α : Type}

theorem map_zipIdx_fst {β γ : Type} (f : β → γ) (items : List β) :
    (items.zipIdx.map fun x => f x.1) = items.map f := by
  conv_rhs => rw [← List.zipIdx_map_fst 0 items, List.map_map]
  rfl

theorem nodes_connectSide (group : List SideRef) (self : SideRef) (side : CellSide) :
    (connectSide group self side).nodes = side.nodes := by
  unfold connectSide
  split <;> rfl

/-- An element with the local nodes of its sides. -/
def skeleton (c : Cell α) : Element α × List (List ℕ) := (c.element, c.sides.map CellSide.nodes)

theorem map_skeleton_connectSides (cells : List (Cell α)) :
    (connectSides cells).map skeleton = cells.map skeleton := by
  unfold connectSides
  rw [List.map_map, ← map_zipIdx_fst skeleton]
  apply List.map_congr_left
  intro c _
  simp only [Function.comp_apply, skeleton, List.map_map, Function.comp_def, nodes_connectSide,
    map_zipIdx_fst]

theorem addNode_eq_ok {m m' : Mesh α} {coord : List α} (h : m.addNode coord = .ok m') :
    m.frozen = false ∧ (1 ≤ coord.length ∧ coord.length ≤ 3) ∧
      m' = { m with nodes := m.nodes ++ [coord] } := by
  unfold Mesh.addNode at h
  split_ifs at h with hfrozen hlength
  cases h
  exact ⟨by simpa using hfrozen, hlength, rfl⟩

theorem addElement_eq_ok {m m' : Mesh α} {family : Family} {nodeIds : List Int}
    (h : m.addElement family nodeIds = .ok m') :
    m.frozen = false ∧ nodeIds.length = family.nodeCount ∧
      m' = { m with connectivity := m.connectivity ++ [(family, nodeIds)] } := by
  unfold Mesh.addElement at h
  split_ifs at h with hfrozen hlength
  cases h
  exact ⟨by simpa using hfrozen, hlength, rfl⟩

variable [Scalar α]

/-- The mesh frozen with the given elements. -/
def frozenWith (m : Mesh α) (n : ℕ) (elements : List (Element α)) : Mesh α :=
  { m with
    dim := nodeDim m.nodes
    coords := some (coordinateMatrix m.nodes)
    dofsPerNode := n
    cells := classifySides (coordinateMatrix m.nodes) (connectSides (elements.map Cell.ofElement))
    dofs := m.nodes.length * n
    frozen := true }

theorem freeze_of_frozen {m : Mesh α} (h : m.frozen = true) : m.freeze = (.error .frozenMesh, m) := by
  rw [Mesh.freeze, if_pos h]

theorem freeze_eq {m : Mesh α} {n : ℕ} {elements : List (Element α)} (hopen : m.frozen = false)
    (hnodes : m.nodes ≠ []) (hconnectivity : m.connectivity ≠ [])
    (hn : Space.dofsPerNode m.space (nodeDim m.nodes) = .ok n)
    (hel : buildElements (coordinateMatrix m.nodes) n m.connectivity = .ok elements) :
    m.freeze = (.ok (), m.frozenWith n elements) := by
  rw [Mesh.freeze, if_neg (by simp [hopen]), if_neg (by simp [hnodes, hconnectivity])]
  dsimp only
  rw [hn]
  dsimp only
  rw [hel]
  rfl

/-- An attempt to freeze a mesh builds its cells, or it fails and leaves at most its dimension, its
coordinates and its degrees of freedom per node behind. -/
theorem freeze_cases (m : Mesh α) :
    (∃ e dim n coords,
      m.freeze = (.error e, { m with dim := dim, dofsPerNode := n, coords := coords })) ∨
    (m.frozen = false ∧ m.nodes ≠ [] ∧ m.connectivity ≠ [] ∧ ∃ n elements,
      Space.dofsPerNode m.space (nodeDim m.nodes) = .ok n ∧
      buildElements (coordinateMatrix m.nodes) n m.connectivity = .ok elements ∧
      m.freeze = (.ok (), m.frozenWith n elements)) := by
  by_cases hfrozen : m.frozen = true
  · exact .inl ⟨_, _, _, _, freeze_of_frozen hfrozen⟩
  by_cases hempty : (m.nodes.isEmpty || m.connectivity.isEmpty) = true
  · exact .inl ⟨_, _, _, _, by rw [Mesh.freeze, if_neg hfrozen, if_pos hempty]⟩
  obtain ⟨hnodes, hconnectivity⟩ : m.nodes ≠ [] ∧ m.connectivity ≠ [] := by simpa using hempty
  have hopen : m.frozen = false := by simpa using hfrozen
  cases hn : Space.dofsPerNode m.space (nodeDim m.nodes) with
  | error e =>
    refine .inl ⟨e, nodeDim m.nodes, m.dofsPerNode, some (coordinateMatrix m.nodes), ?_⟩
    rw [Mesh.freeze, if_neg hfrozen, if_neg hempty]
    dsimp only
    rw [hn]
  | ok n =>
    cases hel : buildElements (coordinateMatrix m.nodes) n m.connectivity with
    | error e =>
      refine .inl ⟨e, nodeDim m.nodes, n, some (coordinateMatrix m.nodes), ?_⟩
      rw [Mesh.freeze, if_neg hfrozen, if_neg hempty]
      dsimp only
      rw [hn]
      dsimp only
      rw [hel]
    | ok elements =>
      exact .inr ⟨hopen, hnodes, hconnectivity, n, elements, rfl, hel,
        freeze_eq hopen hnodes hconnectivity hn hel⟩

/-- One operation on a mesh. A node or an element that is refused leaves no trace; the other
operations may change the mesh even when they fail. -/
inductive Step : Mesh α → Mesh α → Prop
  | addNode {m m' : Mesh α} (coord : List α) (h : m.addNode coord = .ok m') : Step m m'
  | addElement {m m' : Mesh α} (family : Family) (nodeIds : List Int)
      (h : m.addElement family nodeIds = .ok m') : Step m m'
  | freeze (m : Mesh α) : Step m m.freeze.2
  | addBoundary (m : Mesh α) (tag : TagId) (selectors : List (Selector α)) (essential : Bool) :
      Step m (m.addBoundary tag selectors essential).2
  | addSubdomain (m : Mesh α) (tag : TagId) (condition : Predicate α) :
      Step m (m.addSubdomain tag condition).2

/-- The states of a mesh. -/
inductive Reachable : Mesh α → Prop
  | empty (space : Datum α) : Reachable (Mesh.empty space)
  | step {m m' : Mesh α} (h : Reachable m) (hs : Step m m') : Reachable m'

/-- The cells of the mesh are built from its nodes and its connectivity, and its degrees of freedom
are counted. -/
structure Built (m : Mesh α) : Prop where
  dofsPerNode : Space.dofsPerNode m.space (nodeDim m.nodes) = .ok m.dofsPerNode
  elements : buildElements (coordinateMatrix m.nodes) m.dofsPerNode m.connectivity =
    .ok (m.cells.map Cell.element)
  dofs : m.dofs = m.nodes.length * m.dofsPerNode

/-- What holds of a mesh at all times. -/
structure WellFormed (m : Mesh α) : Prop where
  nodes : ∀ x ∈ m.nodes, 1 ≤ x.length ∧ x.length ≤ 3
  connectivity : ∀ c ∈ m.connectivity, c.2.length = c.1.nodeCount
  not_frozen : m.frozen = false → m.cells = [] ∧ m.regions = []
  built : m.frozen = true → m.Built
  sides : ∀ c ∈ m.cells, c.sides.map CellSide.nodes = c.element.family.sides
  regions : ∀ e ∈ m.regions, e.2.SidesIn m.cells

theorem wellFormed_empty (space : Datum α) : (Mesh.empty space).WellFormed where
  nodes := by simp [Mesh.empty]
  connectivity := by simp [Mesh.empty]
  not_frozen := fun _ => ⟨rfl, rfl⟩
  built := by simp [Mesh.empty]
  sides := by simp [Mesh.empty]
  regions := by simp [Mesh.empty]

section Steps

variable {m m' : Mesh α}

theorem WellFormed.addNode (hm : m.WellFormed) {coord : List α} (h : m.addNode coord = .ok m') :
    m'.WellFormed := by
  obtain ⟨hopen, hc, rfl⟩ := addNode_eq_ok h
  refine ⟨?_, hm.connectivity, hm.not_frozen, fun hfrozen => absurd hfrozen (by simp [hopen]), hm.sides,
    hm.regions⟩
  intro x hx
  rcases List.mem_append.mp hx with hx | hx
  · exact hm.nodes x hx
  · rw [List.mem_singleton.mp hx]
    exact hc

theorem WellFormed.addElement (hm : m.WellFormed) {family : Family} {nodeIds : List Int}
    (h : m.addElement family nodeIds = .ok m') : m'.WellFormed := by
  obtain ⟨hopen, hc, rfl⟩ := addElement_eq_ok h
  refine ⟨hm.nodes, ?_, hm.not_frozen, fun hfrozen => absurd hfrozen (by simp [hopen]), hm.sides,
    hm.regions⟩
  intro x hx
  rcases List.mem_append.mp hx with hx | hx
  · exact hm.connectivity x hx
  · rw [List.mem_singleton.mp hx]
    exact hc

theorem map_skeleton_classifySides (coords : DenseMatrix α) (cells : List (Cell α)) :
    (classifySides coords cells).map skeleton = cells.map skeleton := by
  unfold classifySides
  split_ifs
  · rfl
  · rw [List.map_map]
    apply List.map_congr_left
    intro c _
    simp only [Function.comp_apply, skeleton, List.map_map]
    congr 1
    apply List.map_congr_left
    intro s _
    simp only [Function.comp_apply]
    split_ifs <;> rfl

/-- The cells of a frozen mesh are the elements with the sides of their families. -/
theorem map_skeleton_cells (coords : DenseMatrix α) (elements : List (Element α)) :
    (classifySides coords (connectSides (elements.map Cell.ofElement))).map skeleton =
      elements.map fun e => (e, e.family.sides) := by
  rw [map_skeleton_classifySides, map_skeleton_connectSides, List.map_map]
  apply List.map_congr_left
  intro e _
  simp [skeleton, Cell.ofElement, Function.comp_def]

theorem WellFormed.freeze (hm : m.WellFormed) : m.freeze.2.WellFormed := by
  by_cases hfrozen : m.frozen = true
  · rw [freeze_of_frozen hfrozen]
    exact hm
  obtain ⟨e, dim, n, coords, hfreeze⟩ | ⟨hopen, -, -, n, elements, hn, hel, hfreeze⟩ := m.freeze_cases
  · rw [hfreeze]
    exact ⟨hm.nodes, hm.connectivity, hm.not_frozen, fun h => absurd h hfrozen, hm.sides, hm.regions⟩
  have hcells := map_skeleton_cells (coordinateMatrix m.nodes) elements
  rw [hfreeze]
  refine ⟨hm.nodes, hm.connectivity, by simp [frozenWith], fun _ => ⟨hn, ?_, rfl⟩, ?_, ?_⟩
  · have hmap := congrArg (List.map Prod.fst) hcells
    rw [List.map_map, List.map_map] at hmap
    simp only [Function.comp_def, skeleton, List.map_id'] at hmap
    simpa only [frozenWith, hmap] using hel
  · intro c hc
    have hmem : skeleton c ∈ elements.map fun e => (e, e.family.sides) :=
      hcells ▸ List.mem_map_of_mem hc
    obtain ⟨e, -, he⟩ := List.mem_map.mp hmem
    obtain ⟨hce, hcs⟩ := Prod.ext_iff.mp he
    change e = c.element at hce
    change e.family.sides = c.sides.map CellSide.nodes at hcs
    rw [← hcs, hce]
  · intro e he
    simp [frozenWith, (hm.not_frozen hopen).2] at he

/-- Tags may change, and regions as long as they name existing sides. -/
theorem WellFormed.retag (hm : m.WellFormed) (hf : m.frozen = true) {cells : List (Cell α)}
    (hc : cells.map Cell.untagged = m.cells.map Cell.untagged) {regions : List (TagKey × Region)}
    (hr : ∀ e ∈ regions, e.2.SidesIn m.cells) :
    WellFormed { m with cells := cells, regions := regions } := by
  obtain ⟨hspace, hel, hdofs⟩ := hm.built hf
  refine ⟨hm.nodes, hm.connectivity, by simp [hf], fun _ => ⟨hspace, ?_, hdofs⟩, ?_, ?_⟩
  · simpa only [Cell.map_element_of_untagged hc] using hel
  · intro c' hc'
    obtain ⟨c, hmem, he⟩ := List.mem_map.mp (hc ▸ List.mem_map_of_mem (f := Cell.untagged) hc')
    have hfam : c.untagged.element = c'.untagged.element := congrArg Cell.element he
    change c.element = c'.element at hfam
    rw [Cell.map_sideNodes_of_untagged he.symm, ← hfam]
    exact hm.sides c hmem
  · exact fun e he => (hr e he).retag hc

theorem SidesIn_of_lookup (hm : m.WellFormed) (tag : TagId) (kind : RegionKind)
    (essential : Bool) :
    (((m.regions.lookup tag.key).getD ⟨tag, kind, essential, [], []⟩)).SidesIn m.cells := by
  cases hl : m.regions.lookup tag.key with
  | none => exact ⟨List.nodup_nil, by simp⟩
  | some r => exact hm.regions _ (mem_of_lookup_eq_some hl)

theorem WellFormed.openRegion (hm : m.WellFormed) {tag : TagId} {kind : RegionKind}
    {essential : Bool} {region : Region} {opened : Mesh α}
    (h : m.openRegion tag kind essential = .ok (region, opened)) :
    region.SidesIn m.cells ∧ opened.regions = assign tag.key region m.regions ∧
      opened = { m with regions := opened.regions } := by
  unfold Mesh.openRegion at h
  have hr := SidesIn_of_lookup hm tag kind essential
  split_ifs at h
  dsimp only at h
  split_ifs at h
  cases h
  exact ⟨⟨hr.nodup, hr.exists_cell⟩, rfl, rfl⟩

theorem WellFormed.addBoundary (hm : m.WellFormed) (tag : TagId) (selectors : List (Selector α))
    (essential : Bool) : (m.addBoundary tag selectors essential).2.WellFormed := by
  unfold Mesh.addBoundary
  split_ifs with hf
  · exact hm
  split
  · exact hm
  dsimp only
  split
  · exact hm
  rename_i region opened hopen
  obtain ⟨hr, hregions, hopened⟩ := hm.openRegion hopen
  have hfrozen : m.frozen = true := by simpa using hf
  rw [hopened]
  apply hm.retag hfrozen (map_untagged_tagCellSides _ _ _ _)
  intro e he
  rw [hregions] at he
  rcases mem_assign he with he | he
  · rw [he]
    refine ⟨nodup_appendNew hr.nodup _, ?_⟩
    intro side hside
    rcases mem_appendNew.mp hside with hside | hside
    · exact hr.exists_cell side hside
    · exact mem_tagCellSides hside
  · rcases mem_assign he with he | he
    · rw [he]
      exact hr
    · exact hm.regions e he

theorem WellFormed.addSubdomain (hm : m.WellFormed) (tag : TagId) (condition : Predicate α) :
    (m.addSubdomain tag condition).2.WellFormed := by
  unfold Mesh.addSubdomain
  split_ifs with hf
  · exact hm
  dsimp only
  split
  · exact hm
  rename_i region opened hopen
  obtain ⟨hr, hregions, hopened⟩ := hm.openRegion hopen
  have hfrozen : m.frozen = true := by simpa using hf
  rw [hopened]
  apply hm.retag hfrozen (map_untagged_tagCells _ _ _ _)
  intro e he
  rw [hregions] at he
  rcases mem_assign he with he | he
  · rw [he]
    exact ⟨hr.nodup, hr.exists_cell⟩
  · rcases mem_assign he with he | he
    · rw [he]
      exact hr
    · exact hm.regions e he

/-- Every operation keeps a mesh well formed. -/
theorem Step.wellFormed (h : Step m m') (hm : m.WellFormed) : m'.WellFormed := by
  cases h with
  | addNode coord h => exact hm.addNode h
  | addElement family nodeIds h => exact hm.addElement h
  | freeze => exact hm.freeze
  | addBoundary tag selectors essential => exact hm.addBoundary tag selectors essential
  | addSubdomain tag condition => exact hm.addSubdomain tag condition

/-- A mesh is well formed at all times. -/
theorem Reachable.wellFormed (h : m.Reachable) : m.WellFormed := by
  induction h with
  | empty space => exact wellFormed_empty space
  | step _ hs ih => exact hs.wellFormed ih

end Steps

/-- The open mesh with the given nodes and elements. -/
def ofLists (space : Datum α) (nodes : List (List α)) (connectivity : List (Family × List ℤ)) :
    Mesh α :=
  { Mesh.empty space with nodes := nodes, connectivity := connectivity }

/-- Nodes and elements of the right size may be given all at once. -/
theorem reachable_ofLists (space : Datum α) {nodes : List (List α)}
    {connectivity : List (Family × List ℤ)} (hn : ∀ x ∈ nodes, 1 ≤ x.length ∧ x.length ≤ 3)
    (hc : ∀ c ∈ connectivity, c.2.length = c.1.nodeCount) :
    (ofLists space nodes connectivity).Reachable := by
  induction connectivity using List.reverseRecOn with
  | nil =>
    clear hc
    induction nodes using List.reverseRecOn with
    | nil => exact .empty space
    | append_singleton nodes x ih =>
      have hx := hn x (by simp)
      refine .step (ih fun y hy => hn y (by simp [hy])) (.addNode x ?_)
      simp [Mesh.addNode, ofLists, Mesh.empty, hx]
  | append_singleton connectivity c ih =>
    have hlen := hc c (by simp)
    refine .step (ih fun y hy => hc y (by simp [hy])) (.addElement c.1 c.2 ?_)
    simp [Mesh.addElement, ofLists, Mesh.empty, hlen]

end Mesh
end WeakForm

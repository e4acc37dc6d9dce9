import WeakForm.Proofs.RealScalar
import WeakForm.Proofs.Element.Traces
import WeakForm.Proofs.Mesh.Exterior
import WeakForm.Proofs.Mesh.Grids

/-!
# Continuity

Two elements that share a side have the same degrees of freedom and the same nodes there. If the side
has the same ends for both, then fields and positions on it are the same from either element: at the
same parameter if both traverse the side in the same direction, and at the opposite one otherwise.
-/

namespace WeakForm

open Element Family

namespace Mesh

/-- The numbers of the end nodes of a side; a point has one. -/
def endNodeIds {α : Type} (m : Mesh α) (ref : SideRef) : Finset ℤ := ((m.sideNodeIds ref).take 2).toFinset

/-- The parameter of a side at the point where another one, with the same ends, has parameter `x`: the
same if both start at the same node and the opposite otherwise. -/
noncomputable def matchingParameter (m : Mesh ℝ) (ref other : SideRef) (x : ℝ) : ℝ :=
  if (m.sideNodeIds ref).head? = (m.sideNodeIds other).head? then x else -x

variable {m : Mesh ℝ} {i s : ℕ} {c : Cell ℝ} {side : CellSide} {u : Array ℝ}

theorem WellFormed.sideNodes_eq (hm : m.WellFormed) (hc : m.cells[i]? = some c)
    (hs : c.sides[s]? = some side) : c.element.sideNodes s = .ok side.nodes := by
  have hsides := hm.sides c (List.mem_of_getElem? hc)
  have hnodes : c.element.family.sides[s]? = some side.nodes := by
    rw [← hsides, List.getElem?_map, hs]
    rfl
  have hlt : s < c.element.family.sides.length := (List.getElem?_eq_some_iff.mp hnodes).1
  rw [sideNodes, position?_natCast hlt, Option.bind_some, hnodes]

/-- The values and the position on a side of a mesh are those at the nodes of the side. -/
theorem WellFormed.hasTrace (hm : m.WellFormed) (hfrozen : m.frozen = true)
    (hc : m.cells[i]? = some c) (hs : c.sides[s]? = some side) (hf : c.element.family.IsLagrange)
    {g : Family} (hg : c.element.family.sideFamily = some g) (hside : g.IsSide)
    (hu : m.dofs ≤ u.size) (x : ℝ) :
    c.element.HasTrace s u x
      ((List.range m.dofsPerNode).map fun i => blend (g.sideBasis x) fun p =>
        Element.component u m.dofsPerNode ((c.sideNodeIds side).getD p 0) i)
      ((List.range (nodeDim m.nodes)).map fun k => blend (g.sideBasis x) fun p =>
        (coordinateMatrix m.nodes).entry (((c.sideNodeIds side).getD p 0) - 1).toNat k) := by
  have hb := hm.built hfrozen
  have hmem := List.mem_of_getElem? hc
  obtain ⟨hmade, -⟩ := hb.isMade_of_mem hmem
  have hplaces := hm.sideNodes_eq hc hs
  have hlength : (g.sideBasis x).length = side.nodes.length := by
    rw [(hside.basis_eq (.zero 0 0) x).2.2]
    exact (sideNodes_length hg hplaces).symm
  have hrange : ∀ d ∈ c.element.getDof, 0 ≤ d ∧ d < u.size := by
    intro d hd
    obtain ⟨hnonneg, hlt⟩ := hb.mem_getDof hmem hd
    exact ⟨hnonneg, hlt.trans_le (by exact_mod_cast hu)⟩
  have hnode : ∀ p < (g.sideBasis x).length,
      c.element.nodeIds.getD (side.nodes.getD p 0) 0 = (c.sideNodeIds side).getD p 0 := by
    intro p hp
    rw [hlength] at hp
    simp [Cell.sideNodeIds, hp]
  have hentry {k : ℕ} (hk : k < nodeDim m.nodes) : ∀ p < (g.sideBasis x).length,
      c.element.nodes.entry (side.nodes.getD p 0) k =
        (coordinateMatrix m.nodes).entry ((c.sideNodeIds side).getD p 0 - 1).toNat k := by
    intro p hp
    have hlt : side.nodes.getD p 0 < c.element.nodeIds.length := by
      rw [c.element.length_nodeIds]
      apply (Family.lt_of_mem_sides (sideNodes_mem hplaces)).2
      rw [List.getD_eq_getElem _ _ (hlength ▸ hp)]
      exact List.getElem_mem _
    rw [← hnode p hp, hmade.nodes_eq, entry_nodesOf_of_lt hlt hk]
  have hcols : c.element.nodes.cols = nodeDim m.nodes := by
    rw [hmade.nodes_eq]
    rfl
  have htrace := Element.hasTrace hf hg hside hmade.side_eq hplaces (hm.dofsPerNode_pos hfrozen hmem)
    hrange x
  rw [hmade.dofsPerNode_eq, hcols] at htrace
  have hvalues := List.map_congr_left fun i (_ : i ∈ List.range m.dofsPerNode) =>
    blend_congr fun p hp => congrArg (Element.component u m.dofsPerNode · i) (hnode p hp)
  have hplace := List.map_congr_left fun k (hk : k ∈ List.range (nodeDim m.nodes)) =>
    blend_congr (hentry (List.mem_range.mp hk))
  rw [← hvalues, ← hplace]
  exact htrace

/-- A side with a neighbour has the same nodes as that neighbour. -/
theorem Reachable.sides_of_neighbor? {ref other : SideRef} (hm : m.Reachable)
    (h : m.neighbor? ref = some other) : ∃ i s j t c side d side', ref = (i + 1, s) ∧
      other = (j + 1, t) ∧ m.cells[i]? = some c ∧ c.sides[s]? = some side ∧
      m.cells[j]? = some d ∧ d.sides[t]? = some side' ∧
      (c.sideNodeIds side).toFinset = (d.sideNodeIds side').toFinset := by
  obtain ⟨side, hside, hneighbor⟩ := exists_neighbor h
  obtain ⟨i, c, s, rfl, hc, hs⟩ := side?_eq_some.mp hside
  have hmem : other ∈ sidesAlike m.cells (sortedSet (c.sideNodeIds side)) := by
    rcases (hm.knowNeighbors i c s side hc hs other).mp hneighbor with hgroup | hgroup <;>
      simp [hgroup]
  obtain ⟨j, d, t, side', hd, ht, rfl, hkey⟩ := mem_sideKeys.mp (mem_sidesAlike.mp hmem)
  exact ⟨i, s, j, t, c, side, d, side', rfl, rfl, hc, hs, hd, ht, sortedSet_eq_iff.mp hkey⟩

theorem nodup_sideNodeIds (hm : m.WellFormed) (hc : m.cells[i]? = some c)
    (hs : c.sides[s]? = some side) (hnodup : c.element.nodeIds.Nodup) :
    (c.sideNodeIds side).Nodup := by
  have hplaces := Family.lt_of_mem_sides (sideNodes_mem (hm.sideNodes_eq hc hs))
  apply List.Nodup.map_on _ hplaces.1
  intro k hk k' hk' heq
  have hlt := hplaces.2 k hk
  have hlt' := hplaces.2 k' hk'
  rw [← c.element.length_nodeIds] at hlt hlt'
  rw [List.getD_eq_getElem _ _ hlt, List.getD_eq_getElem _ _ hlt'] at heq
  exact (List.Nodup.getElem_inj_iff hnodup).mp heq

/-- Fields and positions are continuous across sides with the same ends. -/
theorem traces_agree {ref other : SideRef} (hm : m.Reachable) (hfrozen : m.frozen = true)
    (hlagrange : ∀ c ∈ m.cells, c.element.family.IsLagrange)
    (hnodup : ∀ c ∈ m.cells, c.element.nodeIds.Nodup) (hneighbor : m.neighbor? ref = some other)
    (hends : m.endNodeIds ref = m.endNodeIds other) (hu : m.dofs ≤ u.size) (x : ℝ) :
    ∃ c d values place, m.cells[ref.1 - 1]? = some c ∧ m.cells[other.1 - 1]? = some d ∧
      c.element.HasTrace ref.2 u x values place ∧
      d.element.HasTrace other.2 u (m.matchingParameter ref other x) values place := by
  have hwell := hm.wellFormed
  obtain ⟨i, s, j, t, c, side, d, side', rfl, rfl, hc, hs, hd, ht, hset⟩ :=
    hm.sides_of_neighbor? hneighbor
  have hcmem := List.mem_of_getElem? hc
  have hdmem := List.mem_of_getElem? hd
  have hdistinct := nodup_sideNodeIds hwell hc hs (hnodup c hcmem)
  have hdistinct' := nodup_sideNodeIds hwell hd ht (hnodup d hdmem)
  obtain ⟨g, hg, hside⟩ := (hlagrange c hcmem).exists_sideFamily
  obtain ⟨g', hg', hside'⟩ := (hlagrange d hdmem).exists_sideFamily
  have hlength : (c.sideNodeIds side).length = g.nodeCount :=
    (List.length_map _).trans (sideNodes_length hg (hwell.sideNodes_eq hc hs))
  have hlength' : (d.sideNodeIds side').length = g'.nodeCount :=
    (List.length_map _).trans (sideNodes_length hg' (hwell.sideNodes_eq hd ht))
  -- Without repetitions the two sides have as many nodes, so their families are the same.
  have hperm := List.perm_of_nodup_nodup_toFinset_eq hdistinct hdistinct' hset
  obtain rfl : g = g' := hside.eq_of_nodeCount hside' (by rw [← hlength, hperm.length_eq, hlength'])
  rw [endNodeIds, endNodeIds, sideNodeIds_eq hc hs, sideNodeIds_eq hd ht] at hends
  rw [matchingParameter, sideNodeIds_eq hc hs, sideNodeIds_eq hd ht]
  have htrace := hwell.hasTrace hfrozen hc hs (hlagrange c hcmem) hg hside hu x
  have hmatch (ψ : ℤ → ℝ) := hside.blend_matching hlength hlength' hdistinct hset hends ψ x
  have hvalues := List.map_congr_left fun i (_ : i ∈ List.range m.dofsPerNode) =>
    hmatch fun k => Element.component u m.dofsPerNode k i
  have hplace := List.map_congr_left fun k (_ : k ∈ List.range (nodeDim m.nodes)) =>
    hmatch fun id => (coordinateMatrix m.nodes).entry (id - 1).toNat k
  rw [hvalues, hplace] at htrace
  exact ⟨c, d, _, _, hc, hd, htrace, hwell.hasTrace hfrozen hd ht (hlagrange d hdmem) hg' hside hu _⟩

/-- Two triangles with mid-side nodes that share a side, which they traverse in opposite directions. -/
def splitCells : List (Family × List ℤ) := [(.tri6, [1, 3, 9, 2, 6, 5]), (.tri6, [1, 9, 7, 5, 8, 4])]

noncomputable def splitNodes : List (List ℝ) :=
  [[0, 0], [1, 0], [2, 0], [0, 1], [1, 1], [2, 1], [0, 2], [1, 2], [2, 2]]

noncomputable def splitSquare : Mesh ℝ := (Mesh.ofLists (.integer 1) splitNodes splitCells).freeze.2

theorem isOver_splitSquare : splitSquare.IsOver splitNodes splitCells 1 :=
  (isOver_freeze (by simp [splitNodes]) (by simp [splitNodes, splitCells]) rfl
    (by simp [splitCells, splitNodes, Family.nodeCount, Family.fixedDofs])).2.1

theorem isShared_splitCells : IsShared splitCells 0 2 1 0 := by
  refine ⟨by decide, [9, 1, 5], [1, 9, 5], rfl, rfl, by decide, ?_⟩
  intro k r other hother
  obtain ⟨c, hc, hother⟩ := Option.bind_eq_some_iff.mp hother
  obtain ⟨places, hplaces, rfl⟩ := Option.map_eq_some_iff.mp hother
  match k, r with
  | 0, 0 | 0, 1 | 1, 1 | 1, 2 =>
    cases hc
    cases hplaces
    decide
  | 0, 2 => exact fun _ => .inl rfl
  | 1, 0 => exact fun _ => .inr rfl
  | 0, r + 3 | 1, r + 3 =>
    cases hc
    cases hplaces
  | k + 2, _ => cases hc

theorem traces_agree_splitSquare :
    splitSquare.neighbor? (1, 2) = some (2, 0) ∧
    ∃ c d values place, splitSquare.cells[0]? = some c ∧ splitSquare.cells[1]? = some d ∧
      c.element.HasTrace 2 #[0, 1, 4, 1, 2, 5, 4, 5, 8] (1 / 2) values place ∧
      d.element.HasTrace 0 #[0, 1, 4, 1, 2, 5, 4, 5, 8] (-(1 / 2)) values place := by
  have hover := isOver_splitSquare
  have hshared : IsShared splitSquare.connectivity 0 2 1 0 :=
    hover.connectivity_eq ▸ isShared_splitCells
  have hneighbor := hshared.neighbor?_eq hover.reachable hover.frozen
  have hids : splitSquare.sideNodeIds (1, 2) = [9, 1, 5] :=
    sideNodeIds_of_sideOf hover.reachable.wellFormed hover.frozen (hover.connectivity_eq ▸ rfl)
  have hids' : splitSquare.sideNodeIds (2, 0) = [1, 9, 5] :=
    sideNodeIds_of_sideOf hover.reachable.wellFormed hover.frozen (hover.connectivity_eq ▸ rfl)
  have hlists : ∀ c ∈ splitCells, c.1.IsLagrange ∧ c.2.Nodup := by decide
  have hcells : ∀ c ∈ splitSquare.cells, c.element.family.IsLagrange ∧ c.element.nodeIds.Nodup := by
    apply hover.of_mem_cells (P := fun e => e.family.IsLagrange ∧ e.nodeIds.Nodup)
    intro c hc e he
    rw [he.family_eq, he.nodeIds_eq]
    exact hlists c hc
  have hends : splitSquare.endNodeIds (1, 2) = splitSquare.endNodeIds (2, 0) := by
    rw [endNodeIds, endNodeIds, hids, hids']
    decide
  have hopposite : splitSquare.matchingParameter (1, 2) (2, 0) (1 / 2) = -(1 / 2) := by
    simp [matchingParameter, hids, hids']
  refine ⟨hneighbor, ?_⟩
  rw [← hopposite]
  exact traces_agree hover.reachable hover.frozen (fun c hc => (hcells c hc).1)
    (fun c hc => (hcells c hc).2) hneighbor hends (by rw [hover.dofs_eq]; rfl) (1 / 2)

end Mesh
end WeakForm

import WeakForm.Proofs.Element.Deflections
import WeakForm.Proofs.Mesh.Grids

/-!
# Fields on meshes of beams

On a line of beams the deflections of all beams at a node are that of the node. The slopes are its rotation in
the beams that are listed from left to right, and minus its rotation in the others. So where two beams meet, the
slope is continuous for all fields exactly if both are listed in the same direction.
-/

namespace WeakForm
namespace Mesh

variable {m : Mesh ℝ} {c c' : Cell ℝ} {u : Array ℝ} {w : ℝ → ℝ} {k : ℤ}

/-- The position of a node on the line. -/
noncomputable def abscissa (m : Mesh ℝ) (k : ℤ) : ℝ := (coordinateMatrix m.nodes).entry (k - 1).toNat 0

/-- A frozen mesh on the line of beams between different points. -/
structure IsBeams (m : Mesh ℝ) : Prop where
  reachable : m.Reachable
  frozen : m.frozen = true
  dim_eq : m.dim = 1
  family_eq : ∀ c ∈ m.cells, c.element.family = .beam2
  ends_ne : ∀ c ∈ m.cells, c.element.nodes.entry 0 0 ≠ c.element.nodes.entry 1 0

namespace IsBeams

variable (h : m.IsBeams)
include h

theorem isSpan (hc : c ∈ m.cells) : c.element.IsSpan := by
  have hbuilt := h.reachable.wellFormed.built h.frozen
  obtain ⟨hmade, -⟩ := hbuilt.isMade_of_mem hc
  refine ⟨h.family_eq c hc, ?_, hbuilt.fixedDofs hc (by rw [h.family_eq c hc]; rfl), hmade.side_eq,
    h.ends_ne c hc⟩
  rw [hmade.nodes_eq, ← h.dim_eq, (h.reachable.placed h.frozen).dim_eq]
  rfl

theorem exists_end (hc : c ∈ m.cells) (hk : k ∈ c.element.nodeIds) :
    ∃ p < 2, c.element.nodeIds.getD p 0 = k ∧ c.element.nodes.entry p 0 = m.abscissa k := by
  obtain ⟨p, hp, rfl⟩ := List.mem_iff_getElem.mp hk
  have hcols := (h.isSpan hc).cols_eq
  obtain ⟨hmade, -⟩ := (h.reachable.wellFormed.built h.frozen).isMade_of_mem hc
  rw [hmade.nodes_eq] at hcols
  refine ⟨p, ?_, List.getD_eq_getElem _ _ hp, ?_⟩
  · rw [c.element.length_nodeIds, h.family_eq c hc] at hp
    exact hp
  · rw [hmade.nodes_eq, entry_nodesOf_of_lt hp (by exact hcols.symm ▸ one_pos), List.getD_eq_getElem _ _ hp]
    rfl

theorem isField_deflection (hu : u.size = m.dofs) (hc : c ∈ m.cells) :
    c.element.IsField u (c.element.deflection u) :=
  (h.isSpan hc).isField_deflection fun _ hd =>
    hu ▸ (h.reachable.wellFormed.built h.frozen).mem_getDof hc hd

/-- At a node every beam has its deflection and, up to the direction, its rotation as the slope. -/
theorem field_at_node (hu : u.size = m.dofs) (hc : c ∈ m.cells) (hw : c.element.IsField u w)
    (hk : k ∈ c.element.nodeIds) : w (m.abscissa k) = Element.component u 2 k 0 ∧
      HasDerivAt w (c.element.direction * Element.component u 2 k 1) (m.abscissa k) := by
  obtain ⟨p, hp, rfl, hposition⟩ := h.exists_end hc hk
  rw [(h.isSpan hc).isField_unique hw (h.isField_deflection hu hc), ← hposition]
  exact (h.isSpan hc).deflection_ends hp

theorem component_replicate (hc : c ∈ m.cells) (hk : k ∈ c.element.nodeIds) (x : ℝ) :
    Element.component (Array.replicate m.dofs x) 2 k 1 = x := by
  obtain ⟨p, hp, rfl⟩ := List.mem_iff_getElem.mp hk
  have hdofs := (h.isSpan hc).dofsPerNode_eq
  have hget := c.element.getElem?_getDof p (i := 1) (by rw [hdofs]; decide)
  rw [List.getElem?_eq_getElem hp, Option.map_some, hdofs] at hget
  obtain ⟨hnonneg, hlt⟩ :=
    (h.reachable.wellFormed.built h.frozen).mem_getDof hc (List.mem_of_getElem? hget)
  have hindex : (Element.dofIndex 2 c.element.nodeIds[p] 1).toNat < m.dofs := by omega
  simp [Element.component, hindex]

end IsBeams

/-- In all fields and in every beam the slope at a node is the rotation of the node. -/
def SlopesAreRotations (m : Mesh ℝ) : Prop := ∀ u : Array ℝ, u.size = m.dofs → ∀ c ∈ m.cells, ∀ w,
  c.element.IsField u w → ∀ k ∈ c.element.nodeIds, HasDerivAt w (Element.component u 2 k 1) (m.abscissa k)

/-- In all fields two beams have the same slope at a common node. -/
def SlopesMeet (m : Mesh ℝ) : Prop := ∀ u : Array ℝ, u.size = m.dofs →
  ∀ c ∈ m.cells, ∀ c' ∈ m.cells, ∀ w w', c.element.IsField u w → c'.element.IsField u w' →
    ∀ k ∈ c.element.nodeIds, k ∈ c'.element.nodeIds → deriv w (m.abscissa k) = deriv w' (m.abscissa k)

namespace IsBeams

variable (h : m.IsBeams)
include h

theorem slopesAreRotations_iff :
    m.SlopesAreRotations ↔ ∀ c ∈ m.cells, c.element.nodes.entry 0 0 < c.element.nodes.entry 1 0 := by
  constructor
  · intro hslopes c hc
    by_contra hreversed
    have hdirection : c.element.direction = -1 := if_neg hreversed
    obtain ⟨k, hk⟩ : ∃ k, k ∈ c.element.nodeIds :=
      List.exists_mem_of_ne_nil _ (List.ne_nil_of_length_pos (by
        rw [c.element.length_nodeIds, h.family_eq c hc]
        decide))
    -- the rotation of one at all nodes is a slope of minus one
    have hu : (Array.replicate m.dofs (1 : ℝ)).size = m.dofs := Array.size_replicate
    have hfield := h.isField_deflection hu hc
    have hslope := (h.field_at_node hu hc hfield hk).2.unique (hslopes _ hu c hc _ hfield k hk)
    rw [h.component_replicate hc hk, hdirection] at hslope
    norm_num at hslope
  · intro hforward u hu c hc w hw k hk
    have hdirection : c.element.direction = 1 := if_pos (hforward c hc)
    rw [← one_mul (Element.component u 2 k 1), ← hdirection]
    exact (h.field_at_node hu hc hw hk).2

theorem slopesMeet_iff : m.SlopesMeet ↔ ∀ c ∈ m.cells, ∀ c' ∈ m.cells,
    (∃ k ∈ c.element.nodeIds, k ∈ c'.element.nodeIds) → c.element.direction = c'.element.direction := by
  constructor
  · rintro hslopes c hc c' hc' ⟨k, hk, hk'⟩
    have hu : (Array.replicate m.dofs (1 : ℝ)).size = m.dofs := Array.size_replicate
    have hfield := h.isField_deflection hu hc
    have hfield' := h.isField_deflection hu hc'
    have hslope := hslopes _ hu c hc c' hc' _ _ hfield hfield' k hk hk'
    rwa [(h.field_at_node hu hc hfield hk).2.deriv, (h.field_at_node hu hc' hfield' hk').2.deriv,
      h.component_replicate hc hk, mul_one, mul_one] at hslope
  · intro hsame u hu c hc c' hc' w w' hw hw' k hk hk'
    rw [(h.field_at_node hu hc hw hk).2.deriv, (h.field_at_node hu hc' hw' hk').2.deriv,
      hsame c hc c' hc' ⟨k, hk, hk'⟩]

/-- The field of every beam has the deflections of its nodes and, up to the direction, their rotations as
slopes. The slopes are the rotations exactly if all beams are listed from left to right, and they agree where beams
meet exactly if these are listed in the same direction. -/
theorem fields_of_beams :
    (∀ u : Array ℝ, u.size = m.dofs → ∀ c ∈ m.cells, ∃ w, c.element.IsField u w ∧ ∀ k ∈ c.element.nodeIds,
      w (m.abscissa k) = Element.component u 2 k 0 ∧
        HasDerivAt w (c.element.direction * Element.component u 2 k 1) (m.abscissa k)) ∧
    (m.SlopesAreRotations ↔ ∀ c ∈ m.cells, c.element.nodes.entry 0 0 < c.element.nodes.entry 1 0) ∧
    (m.SlopesMeet ↔ ∀ c ∈ m.cells, ∀ c' ∈ m.cells,
      (∃ k ∈ c.element.nodeIds, k ∈ c'.element.nodeIds) → c.element.direction = c'.element.direction) := by
  refine ⟨fun u hu c hc => ⟨_, h.isField_deflection hu hc, fun k hk => ?_⟩, h.slopesAreRotations_iff,
    h.slopesMeet_iff⟩
  exact h.field_at_node hu hc (h.isField_deflection hu hc) hk

end IsBeams

section Lines

variable (xs : List ℝ) (spans : List (ℕ × ℕ)) {x y : ℝ}

/-- The mesh of beams over points of a line, each between two of them. -/
noncomputable def beamsOver (xs : List ℝ) (spans : List (ℕ × ℕ)) : Mesh ℝ :=
  (Mesh.ofLists (.integer 2) (xs.map fun x => [x])
    (spans.map fun s => (.beam2, [(s.1 : ℤ) + 1, (s.2 : ℤ) + 1]))).freeze.2

variable {spans} in
theorem isOver_beamsOver (hne : spans ≠ []) (hspans : ∀ s ∈ spans, s.1 < xs.length ∧ s.2 < xs.length) :
    nodeDim (xs.map fun x => [x]) = 1 ∧ (beamsOver xs spans).IsOver (xs.map fun x => [x])
      (spans.map fun s => (.beam2, [(s.1 : ℤ) + 1, (s.2 : ℤ) + 1])) 2 := by
  obtain ⟨s, hs⟩ := List.exists_mem_of_ne_nil _ hne
  have hnodes : (xs.map fun x => [x]) ≠ [] :=
    List.ne_nil_of_length_pos (by rw [List.length_map]; exact Nat.zero_lt_of_lt (hspans s hs).1)
  have hdim : nodeDim (xs.map fun x => [x]) = 1 := nodeDim_eq hnodes (by simp)
  refine ⟨hdim, (isOver_freeze (by simp) ⟨hnodes, by simpa using hne⟩ (by rw [hdim]; rfl) ?_).2.1⟩
  intro c hc
  obtain ⟨s, hs, rfl⟩ := List.mem_map.mp hc
  obtain ⟨hfirst, hsecond⟩ := hspans s hs
  refine ⟨rfl, fun fixed hfixed => Option.some.inj hfixed, ?_⟩
  simp only [List.forall_mem_cons, List.length_map]
  exact ⟨by omega, by omega, by simp⟩

variable {xs} in
/-- The ends of every beam are where its nodes are. -/
theorem entry_beamsOver {e : Element ℝ} {s : ℕ × ℕ} {d : ℕ} (hx : xs[s.1]? = some x) (hy : xs[s.2]? = some y)
    (he : e.IsMade .beam2 (nodesOf (coordinateMatrix (xs.map fun x => [x])) [(s.1 : ℤ) + 1, (s.2 : ℤ) + 1])
      [(s.1 : ℤ) + 1, (s.2 : ℤ) + 1] d) : e.nodes.entry 0 0 = x ∧ e.nodes.entry 1 0 = y := by
  rw [he.nodes_eq]
  constructor
  · exact entry_nodesOf (k := (s.1 : ℤ) + 1) (x := [x]) rfl (by simpa using hx) 0
  · exact entry_nodesOf (k := (s.2 : ℤ) + 1) (x := [y]) rfl (by simpa using hy) 0

variable {xs spans} in
theorem isBeams_beamsOver (hne : spans ≠ [])
    (hspans : ∀ s ∈ spans, ∃ x y, xs[s.1]? = some x ∧ xs[s.2]? = some y ∧ x ≠ y) :
    (beamsOver xs spans).IsBeams := by
  obtain ⟨hdim, hover⟩ := isOver_beamsOver xs hne fun s hs => by
    obtain ⟨x, y, hx, hy, -⟩ := hspans s hs
    exact ⟨(List.getElem?_eq_some_iff.mp hx).1, (List.getElem?_eq_some_iff.mp hy).1⟩
  refine ⟨hover.reachable, hover.frozen, ?_, hover.of_mem_cells (P := fun e => e.family = .beam2) ?_,
    hover.of_mem_cells (P := fun e => e.nodes.entry 0 0 ≠ e.nodes.entry 1 0) ?_⟩
  · rw [(hover.reachable.placed hover.frozen).dim_eq, hover.nodes_eq, hdim]
  · intro c hc e he
    obtain ⟨s, -, rfl⟩ := List.mem_map.mp hc
    exact he.family_eq
  · intro c hc e he
    obtain ⟨s, hs, rfl⟩ := List.mem_map.mp hc
    obtain ⟨x, y, hx, hy, hxy⟩ := hspans s hs
    obtain ⟨hfirst, hsecond⟩ := entry_beamsOver hx hy he
    rwa [hfirst, hsecond]

variable {spans} in
theorem exists_cell_beamsOver (hspans : ∀ s ∈ spans, s.1 < xs.length ∧ s.2 < xs.length) {s : ℕ × ℕ}
    (hs : s ∈ spans) (hx : xs[s.1]? = some x) (hy : xs[s.2]? = some y) : ∃ c ∈ (beamsOver xs spans).cells,
      c.element.nodeIds = [(s.1 : ℤ) + 1, (s.2 : ℤ) + 1] ∧ c.element.nodes.entry 0 0 = x ∧
        c.element.nodes.entry 1 0 = y := by
  obtain ⟨-, hover⟩ := isOver_beamsOver xs (List.ne_nil_of_mem hs) hspans
  obtain ⟨n, hn, rfl⟩ := List.mem_iff_getElem.mp hs
  have hcells := hover.forall₂_cells
  have hn' : n < (spans.map fun s => (Family.beam2, [(s.1 : ℤ) + 1, (s.2 : ℤ) + 1])).length := by simpa using hn
  have hcell : n < (beamsOver xs spans).cells.length := hcells.length_eq ▸ hn'
  obtain ⟨hmade, -⟩ := hcells.get hn' hcell
  simp only [List.get_eq_getElem, List.getElem_map] at hmade
  exact ⟨_, List.getElem_mem hcell, hmade.nodeIds_eq, entry_beamsOver hx hy hmade⟩

/-- Two beams that both lead to their common node have the deflections of the nodes, but not their rotations. -/
theorem fields_of_opposedBeams :
    (∀ u : Array ℝ, u.size = (beamsOver [0, 1, 2] [(0, 1), (2, 1)]).dofs →
      ∀ c ∈ (beamsOver [0, 1, 2] [(0, 1), (2, 1)]).cells, ∃ w, c.element.IsField u w ∧
        ∀ k ∈ c.element.nodeIds, w ((beamsOver [0, 1, 2] [(0, 1), (2, 1)]).abscissa k) =
          Element.component u 2 k 0) ∧
      ¬ (beamsOver [0, 1, 2] [(0, 1), (2, 1)]).SlopesAreRotations ∧
      ¬ (beamsOver [0, 1, 2] [(0, 1), (2, 1)]).SlopesMeet := by
  have hbeams : (beamsOver [0, 1, 2] [(0, 1), (2, 1)]).IsBeams := isBeams_beamsOver (by simp) (by simp)
  have hspans : ∀ s ∈ [(0, 1), (2, 1)], s.1 < [(0 : ℝ), 1, 2].length ∧ s.2 < [(0 : ℝ), 1, 2].length := by simp
  have hfirst : (0, 1) ∈ [(0, 1), (2, 1)] := by simp
  have hsecond : (2, 1) ∈ [(0, 1), (2, 1)] := by simp
  obtain ⟨c, hc, hids, hleft, hright⟩ := exists_cell_beamsOver [0, 1, 2] hspans hfirst rfl rfl
  obtain ⟨c', hc', hids', hleft', hright'⟩ := exists_cell_beamsOver [0, 1, 2] hspans hsecond rfl rfl
  obtain ⟨hfields, hrotations, hmeet⟩ := hbeams.fields_of_beams
  refine ⟨fun u hu d hd => ?_, fun hslopes => ?_, fun hslopes => ?_⟩
  · obtain ⟨w, hw, hends⟩ := hfields u hu d hd
    exact ⟨w, hw, fun k hk => (hends k hk).1⟩
  · have hlt := hrotations.mp hslopes c' hc'
    rw [hleft', hright'] at hlt
    norm_num at hlt
  · have hsame := hmeet.mp hslopes c hc c' hc' ⟨2, by simp [hids], by simp [hids']⟩
    rw [Element.direction, Element.direction, hleft, hright, hleft', hright'] at hsame
    norm_num at hsame

/-- A beam that is listed from right to left has the slope -1 where the rotation is one. -/
theorem slope_of_reversedBeam : (beamsOver [0, 1] [(1, 0)]).IsBeams ∧
    ∃ c ∈ (beamsOver [0, 1] [(1, 0)]).cells, ∃ w, c.element.IsField #[0, 1, 0, 0] w ∧
      1 ∈ c.element.nodeIds ∧ Element.component #[0, 1, 0, 0] 2 1 1 = 1 ∧
      HasDerivAt w (-1) ((beamsOver [0, 1] [(1, 0)]).abscissa 1) ∧
      ¬ HasDerivAt w (Element.component #[0, 1, 0, 0] 2 1 1) ((beamsOver [0, 1] [(1, 0)]).abscissa 1) := by
  have hbeams : (beamsOver [0, 1] [(1, 0)]).IsBeams := isBeams_beamsOver (by simp) (by simp)
  have hspans : ∀ s ∈ [(1, 0)], s.1 < [(0 : ℝ), 1].length ∧ s.2 < [(0 : ℝ), 1].length := by simp
  have hspan : (1, 0) ∈ [(1, 0)] := List.mem_singleton_self (1, 0)
  obtain ⟨c, hc, hids, hleft, hright⟩ := exists_cell_beamsOver [0, 1] hspans hspan rfl rfl
  obtain ⟨-, hover⟩ := isOver_beamsOver [0, 1] (List.ne_nil_of_mem hspan) hspans
  have hu : (#[0, 1, 0, 0] : Array ℝ).size = (beamsOver [0, 1] [(1, 0)]).dofs := by
    rw [hover.dofs_eq]
    rfl
  have hdirection : c.element.direction = -1 := if_neg (by rw [hleft, hright]; norm_num)
  have hone : Element.component #[0, 1, 0, 0] 2 1 1 = 1 := rfl
  have hmem : 1 ∈ c.element.nodeIds := by simp [hids]
  have hfield := hbeams.isField_deflection hu hc
  have hslope := (hbeams.field_at_node hu hc hfield hmem).2
  rw [hdirection, hone, mul_one] at hslope
  refine ⟨hbeams, c, hc, _, hfield, hmem, hone, hslope, fun hrotation => ?_⟩
  have hsame := hslope.unique hrotation
  rw [hone] at hsame
  norm_num at hsame

end Lines

end Mesh
end WeakForm

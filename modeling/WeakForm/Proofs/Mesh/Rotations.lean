import WeakForm.Proofs.Element.Turns
import WeakForm.Proofs.Mesh.Grids

/-!
# Meshes with rotated elements

The list of nodes of a quadrilateral or a triangle may start at any corner. The element that is built
from the list that starts one node later is the turned one, and after a whole turn it is the element
itself. So whatever a turn leaves unchanged is the same at all corners.
-/

namespace WeakForm
namespace Mesh

variable {coords : DenseMatrix ℝ} {n id : ℕ} {e : Element ℝ}

theorem nodesOf_rotate (coords : DenseMatrix ℝ) (ids : List ℤ) : nodesOf coords (ids.rotate 1) =
    (nodesOf coords ids).rearranged (fun p => (p + 1) % ids.length) fun k => k := by
  have hrows (ids : List ℤ) : (nodesOf coords ids).rows = ids.length := List.length_map _
  refine DenseMatrix.ext ?_ rfl fun p k hp hk => ?_
  · rw [hrows, ids.length_rotate]
    exact (hrows ids).symm
  · rw [hrows, ids.length_rotate] at hp
    have hk : k < coords.cols := hk
    rw [(nodesOf coords ids).entry_rearranged (by rwa [hrows]) hk,
      entry_nodesOf_of_lt (by rwa [ids.length_rotate]) hk,
      entry_nodesOf_of_lt (Nat.mod_lt _ (Nat.zero_lt_of_lt hp)) hk, getD_rotate hp]

theorem id_of_buildElement {family : Family} {ids : List ℤ} (h : buildElement coords n id family ids = .ok e) :
    e.id = id := by
  unfold buildElement Element.make at h
  repeat' split at h
  all_goals cases h
  all_goals rfl

/-- An element with distinct nodes, which is built from its numbers, of a family with a turn. -/
structure IsTurnable (coords : DenseMatrix ℝ) (n id : ℕ) (e : Element ℝ) : Prop where
  hasTurn : e.family.HasTurn
  isPlaced : e.IsPlaced
  nodup : e.nodeIds.Nodup
  cols_pos : 0 < e.nodes.cols
  built : buildElement coords n id e.family e.nodeIds = .ok e

namespace IsTurnable

variable (h : IsTurnable coords n id e)
include h

theorem one_le : ∀ k ∈ e.nodeIds, 1 ≤ k := fun k hk => ((buildElement_eq_ok h.built).2 k hk).1

theorem side_eq : e.side = none := (buildElement_eq_ok h.built).1.side_eq

theorem nonneg_getDof : ∀ d ∈ e.getDof, 0 ≤ d := by
  intro d hd
  rw [Element.getDof_eq, List.mem_flatMap] at hd
  obtain ⟨k, hk, hd⟩ := hd
  obtain ⟨i, -, rfl⟩ := List.mem_map.mp hd
  have hk := h.one_le k hk
  exact add_nonneg (mul_nonneg (by omega) (Nat.cast_nonneg _)) (Nat.cast_nonneg _)

/-- The turned element is the one that is built from the turned list of nodes. -/
theorem turned : IsTurnable coords n id e.turned := by
  obtain ⟨hmade, hrange⟩ := buildElement_eq_ok h.built
  obtain ⟨e', he'⟩ := exists_buildElement id ((e.nodeIds.length_rotate 1).trans e.length_nodeIds)
    (fun fixed hfixed => fixedDofs_of_buildElement h.built hfixed) fun k hk =>
      hrange k (List.mem_rotate.mp hk)
  obtain ⟨hfamily, hnodes, hids, hdofs, hside⟩ := (buildElement_eq_ok he').1
  have hid := (id_of_buildElement he').trans (id_of_buildElement h.built).symm
  have hn := hdofs.trans hmade.dofsPerNode_eq.symm
  have hturned : e'.nodes = e.nodes.rearranged e.family.next fun k => k := by
    rw [hnodes, nodesOf_rotate, ← hmade.nodes_eq, e.length_nodeIds]
    rfl
  replace hside := hside.trans h.side_eq.symm
  have hsame : e' = e.turned := by
    clear hnodes hdofs he'
    obtain ⟨id', family, nodes, ids, n', side, hrows, hlength⟩ := e'
    dsimp only at hid hfamily hturned hids hn hside
    subst hid hfamily hturned hids hn hside
    rfl
  rw [hsame] at he'
  exact ⟨h.hasTurn, ⟨h.isPlaced.dofsPerNode_pos, h.isPlaced.fixedDofs, h.isPlaced.cols_le⟩,
    List.nodup_rotate.mpr h.nodup, h.cols_pos, he'⟩

theorem iterate (s : ℕ) : IsTurnable coords n id (Element.turned^[s] e) ∧
    (Element.turned^[s] e).family = e.family ∧ (Element.turned^[s] e).nodeIds = e.nodeIds.rotate s := by
  induction s with
  | zero => exact ⟨h, rfl, e.nodeIds.rotate_zero.symm⟩
  | succ s ih =>
    obtain ⟨hs, hfamily, hids⟩ := ih
    rw [Function.iterate_succ_apply']
    refine ⟨hs.turned, hfamily, ?_⟩
    rw [Element.nodeIds_turned, hids, List.rotate_rotate]

/-- The element that is built from the list of nodes that starts at another corner. -/
theorem buildElement_rotate (s : ℕ) :
    buildElement coords n id e.family (e.nodeIds.rotate s) = .ok (Element.turned^[s] e) := by
  obtain ⟨hs, hfamily, hids⟩ := h.iterate s
  rw [← hfamily, ← hids]
  exact hs.built

/-- After whole turns the element is itself again. -/
theorem iterate_nodeCount (s : ℕ) : Element.turned^[e.family.nodeCount * s] e = e := by
  have hturned := h.buildElement_rotate (e.family.nodeCount * s)
  rw [← e.length_nodeIds, List.rotate_length_mul, h.built, e.length_nodeIds] at hturned
  exact (Except.ok.inj hturned).symm

/-- Whatever is kept by a turn holds at all corners if it holds at one. -/
theorem iterate_iff {P : Element ℝ → Prop} (hP : ∀ e, IsTurnable coords n id e → P e → P e.turned) (s : ℕ) :
    P (Element.turned^[s] e) ↔ P e := by
  have hstep {e : Element ℝ} (h : IsTurnable coords n id e) (he : P e) (s : ℕ) : P (Element.turned^[s] e) := by
    induction s with
    | zero => exact he
    | succ s ih =>
      rw [Function.iterate_succ_apply']
      exact hP _ (h.iterate s).1 ih
  refine ⟨fun hs => ?_, fun he => hstep h he s⟩
  -- the remaining corners complete `s` whole turns
  have hcount := h.hasTurn.nodeCount_bounds.1
  obtain ⟨r, hr⟩ : ∃ r, e.family.nodeCount * s = r + s :=
    ⟨(e.family.nodeCount - 1) * s, by rw [← Nat.succ_mul, Nat.succ_eq_add_one, Nat.sub_add_cancel (by omega)]⟩
  rw [← h.iterate_nodeCount s, hr, Function.iterate_add_apply]
  exact hstep (h.iterate s).1 hs r

end IsTurnable

/-- The meshes have the same nodes and the same elements, but the list of nodes of element `c` of `m'`
starts `s` nodes later. -/
structure IsRotated (m' : Mesh ℝ) (c s : ℕ) (m : Mesh ℝ) : Prop where
  reachable : m.Reachable
  frozen : m.frozen = true
  reachable' : m'.Reachable
  frozen' : m'.frozen = true
  space_eq : m'.space = m.space
  nodes_eq : m'.nodes = m.nodes
  connectivity_eq : m'.connectivity = m.connectivity.modify c fun x => (x.1, x.2.rotate s)

section Cells

variable {m m' : Mesh ℝ} {c j s : ℕ} {cell cell' : Cell ℝ}

theorem Built.length_cells (hb : m.Built) : m.cells.length = m.connectivity.length :=
  hb.forall₂_cells.length_eq.symm

/-- Every cell is built from its entry of the connectivity. -/
theorem Built.exists_buildElement (hb : m.Built) (hcell : m.cells[j]? = some cell) :
    ∃ x, m.connectivity[j]? = some x ∧ buildElement (coordinateMatrix m.nodes) m.dofsPerNode (j + 1) x.1 x.2 =
      .ok cell.element := by
  obtain ⟨hj, rfl⟩ := List.getElem?_eq_some_iff.mp hcell
  have hj' : j < m.connectivity.length := hb.length_cells ▸ hj
  have hbuild := (mapM_eq_ok_iff.mp hb.elements).get (by simpa using hj') (by simpa using hj)
  simp only [List.get_eq_getElem, List.getElem_zipIdx, List.getElem_map, zero_add] at hbuild
  exact ⟨_, List.getElem?_eq_getElem hj', hbuild⟩

namespace IsRotated

variable (h : m'.IsRotated c s m)
include h

theorem built : m.Built := h.reachable.wellFormed.built h.frozen

theorem built' : m'.Built := h.reachable'.wellFormed.built h.frozen'

theorem length_eq : m'.cells.length = m.cells.length := by
  rw [h.built'.length_cells, h.built.length_cells, h.connectivity_eq, List.length_modify]

theorem dofs_eq : m'.dofs = m.dofs := by
  rw [h.built'.dofs, h.built.dofs, h.built.dofsPerNode_eq h.built' h.space_eq h.nodes_eq, h.nodes_eq]

theorem isTurnable (hcell : m.cells[c]? = some cell) (hturn : cell.element.family.HasTurn)
    (hnodup : cell.element.nodeIds.Nodup) :
    IsTurnable (coordinateMatrix m.nodes) m.dofsPerNode (c + 1) cell.element := by
  have hmem := List.mem_of_getElem? hcell
  obtain ⟨x, -, hbuild⟩ := h.built.exists_buildElement hcell
  obtain ⟨hmade, -⟩ := buildElement_eq_ok hbuild
  refine ⟨hturn, h.reachable.wellFormed.isPlaced h.frozen hmem, hnodup,
    h.reachable.wellFormed.cols_nodes_pos h.frozen hmem, ?_⟩
  rwa [hmade.family_eq, hmade.nodeIds_eq]

theorem exists_buildElement_rotate (hcell' : m'.cells[j]? = some cell') : ∃ x, m.connectivity[j]? = some x ∧
    buildElement (coordinateMatrix m.nodes) m.dofsPerNode (j + 1) x.1
      (if c = j then x.2.rotate s else x.2) = .ok cell'.element := by
  obtain ⟨x', hx', hbuild⟩ := h.built'.exists_buildElement hcell'
  rw [h.connectivity_eq, List.getElem?_modify] at hx'
  obtain ⟨x, hx, rfl⟩ := Option.map_eq_some_iff.mp hx'
  rw [h.nodes_eq, h.built.dofsPerNode_eq h.built' h.space_eq h.nodes_eq] at hbuild
  refine ⟨x, hx, ?_⟩
  split_ifs at hbuild ⊢ <;> exact hbuild

/-- The other elements are the same. -/
theorem element_eq (hcell : m.cells[j]? = some cell) (hcell' : m'.cells[j]? = some cell') (hj : c ≠ j) :
    cell'.element = cell.element := by
  obtain ⟨x, hx, hbuild⟩ := h.built.exists_buildElement hcell
  obtain ⟨y, hy, hbuild'⟩ := h.exists_buildElement_rotate hcell'
  obtain rfl := Option.some.inj (hx.symm.trans hy)
  rw [if_neg hj, hbuild] at hbuild'
  exact (Except.ok.inj hbuild').symm

/-- The rotated element is turned again and again. -/
theorem element_eq_iterate (hcell : m.cells[c]? = some cell) (hcell' : m'.cells[c]? = some cell')
    (hturn : cell.element.family.HasTurn) (hnodup : cell.element.nodeIds.Nodup) :
    cell'.element = Element.turned^[s] cell.element := by
  obtain ⟨x, hx, hbuild⟩ := h.built.exists_buildElement hcell
  obtain ⟨y, hy, hbuild'⟩ := h.exists_buildElement_rotate hcell'
  obtain rfl := Option.some.inj (hx.symm.trans hy)
  obtain ⟨hmade, -⟩ := buildElement_eq_ok hbuild
  rw [if_pos rfl, ← hmade.family_eq, ← hmade.nodeIds_eq,
    (h.isTurnable hcell hturn hnodup).buildElement_rotate] at hbuild'
  exact (Except.ok.inj hbuild').symm

end IsRotated

/-- The mesh in which the list of nodes of element `c` starts `s` nodes later, not yet frozen. -/
def rotated (m : Mesh ℝ) (c s : ℕ) : Mesh ℝ :=
  .ofLists m.space m.nodes (m.connectivity.modify c fun x => (x.1, x.2.rotate s))

theorem forall_mem_rotated {P : Family × List ℤ → Prop} (hP : ∀ x ∈ m.connectivity, P x)
    (hrotate : ∀ x, P x → P (x.1, x.2.rotate s)) : ∀ x ∈ (m.rotated c s).connectivity, P x := by
  intro x hx
  obtain ⟨j, hj⟩ := List.mem_iff_getElem?.mp hx
  rw [rotated, ofLists, List.getElem?_modify] at hj
  obtain ⟨y, hy, rfl⟩ := Option.map_eq_some_iff.mp hj
  have hy := hP y (List.mem_of_getElem? hy)
  split_ifs
  · exact hrotate y hy
  · exact hy

/-- A mesh that can be frozen can also be frozen with a rotated element. -/
theorem freeze_rotated (hm : m.Reachable) (hok : m.freeze.1 = .ok ()) (c s : ℕ) :
    (m.rotated c s).freeze.1 = .ok () ∧ (m.rotated c s).freeze.2.IsRotated c s m.freeze.2 := by
  obtain ⟨hopen, hnodes, hconnectivity, n, hn, hcells, -⟩ := exists_of_freeze hok
  obtain ⟨-, hfrozen, hspace, hkept, hkept', -⟩ := freeze_eq_ok hm hopen hnodes hconnectivity hn hcells
  have hreachable : (m.rotated c s).Reachable :=
    reachable_ofLists m.space hm.wellFormed.nodes <| forall_mem_rotated hm.wellFormed.connectivity
      fun x hx => (List.length_rotate ..).trans hx
  obtain ⟨hok', hfrozen', hspace', hnodes', hconnectivity', -⟩ := freeze_eq_ok hreachable rfl hnodes
    (by simpa [rotated, ofLists, ← List.length_pos_iff] using hconnectivity) hn <| forall_mem_rotated hcells
      fun x hx => ⟨hx.1, fun k hk => hx.2 k (List.mem_rotate.mp hk)⟩
  refine ⟨hok', .step hm (.freeze _), hfrozen, .step hreachable (.freeze _), hfrozen', ?_, ?_, ?_⟩
  · rw [hspace, hspace']
    rfl
  · rw [hnodes', hkept]
    rfl
  · rw [hconnectivity', hkept']
    rfl

end Cells

end Mesh

end WeakForm

import WeakForm.Element.Side
import WeakForm.Proofs.Mesh.Reachable

/-!
# Elements of a mesh

The degrees of freedom of an element follow its nodes: place `k * n + i` holds component `i` of
node number `k`. Those of a side are the degrees of freedom of the element at the places of the
side. In a reachable mesh the nodes of every cell exist, so all indices are in range.
-/

namespace WeakForm

theorem Space.dofsPerNode_pos {α : Type} {space : Datum α} {dim n : ℕ} (hdim : 0 < dim)
    (h : Space.dofsPerNode space dim = .ok n) : 0 < n := by
  unfold Space.dofsPerNode at h
  split at h
  · split at h
    · cases h
    · cases h
      simp only [Nat.cast_id]
      omega
  · split at h
    · cases h
      exact Nat.one_pos
    · split at h
      · cases h
        exact hdim
      · cases h
  · cases h

/-- All families number the nodes of their sides among their own. -/
theorem Family.lt_of_mem_sides {f : Family} {nodes : List ℕ} (h : nodes ∈ f.sides) :
    nodes.Nodup ∧ ∀ k ∈ nodes, k < f.nodeCount := by
  cases f <;> simp [Family.sides] at h <;> rcases h with rfl | rfl | rfl | rfl <;> decide

namespace Element

variable {α : Type}

/-- The index of component `i` of node `k`, where `n` is the number of components. -/
def dofIndex (n : ℕ) (k : ℤ) (i : ℕ) : ℤ := (k - 1) * n + i

theorem map_ofNode (n : ℕ) (k : ℤ) :
    (Dof.ofNode n k).map (· - 1) = (List.range n).map (dofIndex n k) := by
  rw [Dof.ofNode, List.map_map]
  apply List.map_congr_left
  intro i _
  simp only [Function.comp_apply, dofIndex]
  ring

theorem map_expand (n : ℕ) (nodes : List ℤ) :
    (Dof.expand n nodes).map (· - 1) =
      nodes.flatMap fun k => (List.range n).map (dofIndex n k) := by
  simp only [Dof.expand, List.map_flatMap, map_ofNode]

/-- With one degree of freedom per node the general formula holds, too. -/
theorem getDof_eq (e : Element α) :
    e.getDof = e.nodeIds.flatMap fun k => (List.range e.dofsPerNode).map
      (dofIndex e.dofsPerNode k) := by
  unfold getDof
  split
  · rename_i h
    simp [h, dofIndex, List.map_eq_flatMap]
  · exact map_expand _ _

@[simp] theorem length_getDof (e : Element α) : e.getDof.length = e.dofs := by
  simp [getDof_eq, dofs, e.length_nodeIds]

theorem getElem?_getDof (e : Element α) (k : ℕ) {i : ℕ} (hi : i < e.dofsPerNode) :
    e.getDof[k * e.dofsPerNode + i]? =
      e.nodeIds[k]?.map fun node => dofIndex e.dofsPerNode node i := by
  rw [getDof_eq, getElem?_flatMap_of_length (fun _ => by simp) _ hi]
  cases e.nodeIds[k]? <;> simp [hi]

theorem sideDof_eq {e : Element α} {s : ℤ} {nodes : List ℕ} (h : e.sideNodes s = .ok nodes) :
    e.sideDof s = .ok (nodes.flatMap fun k => (List.range e.dofsPerNode).map
      fun i : ℕ => ((k * e.dofsPerNode + i : ℕ) : ℤ)) := by
  unfold sideDof
  rw [h]
  simp only [ok_bind]
  split
  · rename_i hn
    simp [hn, List.map_eq_flatMap, pure, Except.pure]
  · rw [map_expand, List.flatMap_map]
    refine congrArg Except.ok (List.flatMap_congr fun k _ => List.map_congr_left fun i _ => ?_)
    simp [dofIndex]

/-- The element has the given family, nodes and numbers and is not a side. -/
structure IsMade (e : Element α) (family : Family) (nodes : DenseMatrix α) (nodeIds : List ℤ)
    (n : ℕ) : Prop where
  family_eq : e.family = family
  nodes_eq : e.nodes = nodes
  nodeIds_eq : e.nodeIds = nodeIds
  dofsPerNode_eq : e.dofsPerNode = n
  side_eq : e.side = none

theorem make_eq_ok {id : ℤ} {family : Family} {nodes : DenseMatrix α} {nodeIds : List ℤ} {n : ℕ}
    {e : Element α} (h : make id family nodes nodeIds n = .ok e) :
    e.IsMade family nodes nodeIds n := by
  unfold make at h
  split_ifs at h
  split at h
  · split_ifs at h
    cases h
    exact ⟨rfl, rfl, rfl, rfl, rfl⟩
  · cases h
    exact ⟨rfl, rfl, rfl, rfl, rfl⟩

/-- Where its family fixes the degrees of freedom, an element has that many. -/
theorem fixedDofs_of_make {id : ℤ} {family : Family} {nodes : DenseMatrix α} {nodeIds : List ℤ} {n : ℕ}
    {e : Element α} (h : make id family nodes nodeIds n = .ok e) {fixed : ℕ}
    (hfixed : family.fixedDofs = some fixed) : n = fixed := by
  unfold make at h
  split_ifs at h
  rw [hfixed] at h
  dsimp only at h
  split_ifs at h with hn
  exact hn

/-- An element is made from as many nodes and numbers as its family has, with the degrees of freedom
that the family fixes. -/
theorem exists_make (id : ℤ) {family : Family} {nodes : DenseMatrix α} {nodeIds : List ℤ} {n : ℕ}
    (hnodes : nodes.rows = family.nodeCount) (hids : nodeIds.length = family.nodeCount)
    (hn : ∀ fixed, family.fixedDofs = some fixed → n = fixed) :
    ∃ e, make id family nodes nodeIds n = .ok e := by
  unfold make
  rw [dif_pos hnodes, dif_pos hids]
  cases hfixed : family.fixedDofs with
  | none => exact ⟨_, rfl⟩
  | some fixed => exact ⟨_, if_pos (hn fixed hfixed)⟩

/-- The element with another number. -/
def renumbered (e : Element α) (id : ℤ) : Element α := { e with id := id }

theorem make_renumbered {id : ℤ} {family : Family} {nodes : DenseMatrix α} {nodeIds : List ℤ}
    {n : ℕ} {e : Element α} (h : make id family nodes nodeIds n = .ok e) (id' : ℤ) :
    make id' family nodes nodeIds n = .ok (e.renumbered id') := by
  unfold make at h ⊢
  split_ifs at h ⊢
  split at h
  · split_ifs at h ⊢
    cases h
    rfl
  · cases h
    rfl

variable [Scalar α]

theorem buildSide_eq_ok {e side : Element α} {s : ℤ} (h : e.buildSide s = .ok side) :
    ∃ nodes, e.sideNodes s = .ok nodes ∧ side.dofsPerNode = e.dofsPerNode ∧
      side.nodeIds = nodes.map fun k => e.nodeIds.getD k 0 := by
  unfold buildSide at h
  split at h
  · cases h
  · split at h
    · cases h
    · rename_i nodes hnodes
      cases h
      exact ⟨nodes, hnodes, rfl, rfl⟩

theorem sideFamily_of_buildSide {e side : Element α} {s : ℤ} (h : e.buildSide s = .ok side) :
    e.family.sideFamily = some side.family := by
  unfold buildSide at h
  split at h
  · cases h
  · rename_i f hf
    split at h
    · cases h
    · cases h
      exact hf

/-- The nodes of a side have one coordinate, their distance from the first one, or none. -/
theorem cols_nodes_of_buildSide {e side : Element α} {s : ℤ} (h : e.buildSide s = .ok side) :
    side.nodes.cols ≤ 1 := by
  unfold buildSide at h
  split at h
  · cases h
  · split at h
    · cases h
    · cases h
      dsimp only [arcLengths]
      split_ifs
      · exact Nat.zero_le 1
      · exact le_rfl

theorem exists_buildSide {e : Element α} {s : ℤ} {f : Family} {nodes : List ℕ}
    (hf : e.family.sideFamily = some f) (hs : e.sideNodes s = .ok nodes) :
    ∃ side, e.buildSide s = .ok side := by
  unfold buildSide
  split
  · rename_i hnone
    cases hf.symm.trans hnone
  · split
    · rename_i herror
      cases hs.symm.trans herror
    · exact ⟨_, rfl⟩

end Element

namespace Mesh

variable {α : Type} [Scalar α]

/-- The nodes with the given numbers. -/
def nodesOf (coords : DenseMatrix α) (nodeIds : List ℤ) : DenseMatrix α :=
  coords.selectRows (nodeIds.map fun k => (k - 1).toNat)

theorem buildElement_eq_ok {coords : DenseMatrix α} {n id : ℕ} {family : Family}
    {nodeIds : List ℤ} {e : Element α} (h : buildElement coords n id family nodeIds = .ok e) :
    e.IsMade family (nodesOf coords nodeIds) nodeIds n ∧ ∀ k ∈ nodeIds, 1 ≤ k ∧ k ≤ coords.rows := by
  unfold buildElement at h
  split at h
  · rename_i hunknown
    refine ⟨Element.make_eq_ok h, fun k hk => ?_⟩
    have := List.filter_eq_nil_iff.mp hunknown k hk
    simp only [Bool.or_eq_true, decide_eq_true_eq, not_or, not_lt] at this
    exact this
  · cases h

theorem fixedDofs_of_buildElement {coords : DenseMatrix α} {n id : ℕ} {family : Family}
    {nodeIds : List ℤ} {e : Element α} (h : buildElement coords n id family nodeIds = .ok e) {fixed : ℕ}
    (hfixed : family.fixedDofs = some fixed) : n = fixed := by
  unfold buildElement at h
  split at h
  · exact Element.fixedDofs_of_make h hfixed
  · cases h

theorem exists_buildElement {coords : DenseMatrix α} {n : ℕ} (id : ℕ) {family : Family}
    {nodeIds : List ℤ} (hids : nodeIds.length = family.nodeCount)
    (hn : ∀ fixed, family.fixedDofs = some fixed → n = fixed)
    (hrange : ∀ k ∈ nodeIds, 1 ≤ k ∧ k ≤ coords.rows) :
    ∃ e, buildElement coords n id family nodeIds = .ok e := by
  have hknown : (nodeIds.filter fun k => k < 1 || (coords.rows : ℤ) < k) = [] := by
    refine List.filter_eq_nil_iff.mpr fun k hk => ?_
    obtain ⟨hone, hle⟩ := hrange k hk
    simp only [Bool.or_eq_true, decide_eq_true_eq, not_or, not_lt]
    exact ⟨hone, hle⟩
  unfold buildElement
  rw [hknown]
  exact Element.exists_make id (by simpa [DenseMatrix.selectRows] using hids) hids hn

theorem buildElement_renumbered {coords : DenseMatrix α} {n id : ℕ} {family : Family}
    {nodeIds : List ℤ} {e : Element α} (h : buildElement coords n id family nodeIds = .ok e)
    (id' : ℕ) : buildElement coords n id' family nodeIds = .ok (e.renumbered id') := by
  unfold buildElement at h ⊢
  split at h
  · exact Element.make_renumbered h id'
  · cases h

variable {m : Mesh α}

/-- The cells are made from the nodes as the connectivity says. -/
theorem Built.forall₂_cells (hb : m.Built) : List.Forall₂ (fun c cell =>
    cell.element.IsMade c.1 (nodesOf (coordinateMatrix m.nodes) c.2) c.2 m.dofsPerNode ∧
      ∀ k ∈ c.2, 1 ≤ k ∧ k ≤ (m.nodes.length : ℤ)) m.connectivity m.cells := by
  have hel := mapM_eq_ok_iff.mp hb.elements
  have hlength : m.connectivity.length = m.cells.length := by simpa using hel.length_eq
  refine List.forall₂_iff_get.mpr ⟨hlength, fun i hi hi' => ?_⟩
  have hbuild := hel.get (by simpa using hi) (by simpa using hi')
  simp only [List.get_eq_getElem, List.getElem_zipIdx, List.getElem_map] at hbuild
  exact buildElement_eq_ok hbuild

/-- Every cell is made from its nodes, all of which exist. -/
theorem Built.isMade_of_mem (hb : m.Built) {c : Cell α} (hc : c ∈ m.cells) :
    c.element.IsMade c.element.family (nodesOf (coordinateMatrix m.nodes) c.element.nodeIds)
        c.element.nodeIds m.dofsPerNode ∧
      ∀ k ∈ c.element.nodeIds, 1 ≤ k ∧ k ≤ m.nodes.length := by
  obtain ⟨i, hi, rfl⟩ := List.mem_iff_getElem.mp hc
  have hcells := hb.forall₂_cells
  obtain ⟨hmade, hrange⟩ := hcells.get (hcells.length_eq ▸ hi) hi
  have hids : m.cells[i].element.nodeIds = _ := hmade.nodeIds_eq
  rw [hids]
  exact ⟨⟨rfl, hmade.nodes_eq, hids, hmade.dofsPerNode_eq, hmade.side_eq⟩, hrange⟩

theorem Built.of_mem_cells (hb : m.Built) {c : Cell α} (hc : c ∈ m.cells) :
    (∀ k ∈ c.element.nodeIds, 1 ≤ k ∧ k ≤ m.nodes.length) ∧
      c.element.dofsPerNode = m.dofsPerNode :=
  ⟨(hb.isMade_of_mem hc).2, (hb.isMade_of_mem hc).1.dofsPerNode_eq⟩

/-- Where its family fixes the degrees of freedom, a cell has that many. -/
theorem Built.fixedDofs (hb : m.Built) {c : Cell α} (hc : c ∈ m.cells) {fixed : ℕ}
    (hfixed : c.element.family.fixedDofs = some fixed) : c.element.dofsPerNode = fixed := by
  obtain ⟨x, -, hx⟩ := exists_of_mem_mapM hb.elements (List.mem_map_of_mem hc)
  rw [(buildElement_eq_ok hx).1.family_eq] at hfixed
  rw [(buildElement_eq_ok hx).1.dofsPerNode_eq]
  exact fixedDofs_of_buildElement hx hfixed

/-- Every node of a mesh in use has a coordinate. -/
theorem WellFormed.nodeDim_pos (hm : m.WellFormed) (hnodes : 0 < m.nodes.length) :
    0 < nodeDim m.nodes := by
  have hfirst := List.getElem_mem hnodes
  exact (hm.nodes _ hfirst).1.trans ((le_foldl_max _ 0).2 _ (List.mem_map_of_mem hfirst))

/-- No node of a mesh has more than three coordinates. -/
theorem WellFormed.nodeDim_le (hm : m.WellFormed) : nodeDim m.nodes ≤ 3 := by
  refine foldl_max_le (Nat.zero_le 3) fun n hn => ?_
  obtain ⟨x, hx, rfl⟩ := List.mem_map.mp hn
  exact (hm.nodes x hx).2

/-- The nodes of every cell have coordinates. -/
theorem WellFormed.cols_nodes_pos (hm : m.WellFormed) (hf : m.frozen = true) {c : Cell α}
    (hc : c ∈ m.cells) : 0 < c.element.nodes.cols := by
  obtain ⟨hmade, hrange⟩ := (hm.built hf).isMade_of_mem hc
  have hcount : 0 < c.element.nodeIds.length := by
    rw [c.element.length_nodeIds]
    cases c.element.family <;> decide
  obtain ⟨hone, hle⟩ := hrange _ (List.getElem_mem hcount)
  rw [hmade.nodes_eq]
  exact hm.nodeDim_pos (by omega)

/-- In a mesh with cells every node has degrees of freedom. -/
theorem WellFormed.dofsPerNode_pos (hm : m.WellFormed) (hf : m.frozen = true) {c : Cell α}
    (hc : c ∈ m.cells) : 0 < c.element.dofsPerNode := by
  have hb := hm.built hf
  obtain ⟨hids, hn⟩ := hb.of_mem_cells hc
  have hcount : 0 < c.element.nodeIds.length := by
    rw [c.element.length_nodeIds]
    cases c.element.family <;> decide
  obtain ⟨hk, hk'⟩ := hids _ (List.getElem_mem hcount)
  rw [hn]
  exact Space.dofsPerNode_pos (hm.nodeDim_pos (by omega)) hb.dofsPerNode

/-- Every degree of freedom of a cell has an index in range. -/
theorem Built.mem_getDof (hb : m.Built) {c : Cell α} (hc : c ∈ m.cells) {d : ℤ}
    (hd : d ∈ c.element.getDof) : 0 ≤ d ∧ d < m.dofs := by
  obtain ⟨hnodes, hn⟩ := hb.of_mem_cells hc
  rw [Element.getDof_eq, List.mem_flatMap] at hd
  obtain ⟨k, hk, hd⟩ := hd
  obtain ⟨i, hi, rfl⟩ := List.mem_map.mp hd
  obtain ⟨hk₁, hk₂⟩ := hnodes k hk
  have hi' : (i : ℤ) < m.dofsPerNode := by
    rw [hn] at hi
    exact_mod_cast List.mem_range.mp hi
  rw [hn, Element.dofIndex, hb.dofs]
  push_cast
  constructor
  · have : 0 ≤ (k - 1) * (m.dofsPerNode : ℤ) := mul_nonneg (by omega) (by omega)
    omega
  · calc (k - 1) * (m.dofsPerNode : ℤ) + i < (k - 1) * m.dofsPerNode + m.dofsPerNode := by omega
      _ = k * m.dofsPerNode := by ring
      _ ≤ m.nodes.length * m.dofsPerNode := mul_le_mul_of_nonneg_right hk₂ (by omega)

/-- The elements of a mesh without their numbers, as its connectivity gives them. -/
theorem Built.map_elements (hb : m.Built) :
    m.cells.map (fun c => some (c.element.renumbered 0)) =
      m.connectivity.map fun c =>
        (buildElement (coordinateMatrix m.nodes) m.dofsPerNode 0 c.1 c.2).toOption := by
  have hel := mapM_eq_ok_iff.mp hb.elements
  rw [← map_zipIdx_fst (fun c : Family × List ℤ =>
    (buildElement (coordinateMatrix m.nodes) m.dofsPerNode 0 c.1 c.2).toOption)]
  apply List.ext_getElem
  · simpa using hel.length_eq.symm
  · intro k hk hk'
    have hbuild := hel.get (by simpa using hk') (by simpa using hk)
    simp only [List.get_eq_getElem, List.getElem_map] at hbuild ⊢
    rw [buildElement_renumbered hbuild 0]
    rfl

theorem Built.dofsPerNode_eq {m' : Mesh α} (hb : m.Built) (hb' : m'.Built)
    (hspace : m'.space = m.space) (hnodes : m'.nodes = m.nodes) :
    m'.dofsPerNode = m.dofsPerNode := by
  have h := hb'.dofsPerNode
  rw [hspace, hnodes, hb.dofsPerNode] at h
  exact (Except.ok.inj h).symm

/-- Meshes with the same nodes whose elements were added in another order have the same elements
apart from their numbers. -/
theorem Built.perm_elements {m' : Mesh α} (hb : m.Built) (hb' : m'.Built)
    (hspace : m'.space = m.space) (hnodes : m'.nodes = m.nodes)
    (hconn : m'.connectivity.Perm m.connectivity) :
    (m'.cells.map fun c => c.element.renumbered 0).Perm
      (m.cells.map fun c => c.element.renumbered 0) := by
  have hn := hb.dofsPerNode_eq hb' hspace hnodes
  have hsome : (m'.cells.map fun c => some (c.element.renumbered 0)).Perm
      (m.cells.map fun c => some (c.element.renumbered 0)) := by
    rw [hb.map_elements, hb'.map_elements, hn, hnodes]
    exact hconn.map _
  have hunwrap := hsome.filterMap id
  simpa [List.filterMap_map, Function.comp_def] using hunwrap

end Mesh
end WeakForm

/-!
## Places of sides

The places of the degrees of freedom of a side among those of its element. They are distinct and in
range, and the degrees of freedom of the side are those of the element at these places.
-/

namespace WeakForm
namespace Element

section Distinct

theorem dofIndex_inj {n : ℕ} {k k' : ℤ} {i i' : ℕ} (hi : i < n) (hi' : i' < n)
    (h : dofIndex n k i = dofIndex n k' i') : k = k' ∧ i = i' := by
  unfold dofIndex at h
  have hkk : k = k' := by
    by_contra hne
    rcases lt_or_gt_of_ne hne with hlt | hlt
    · have : (k - 1) * (n : ℤ) + n ≤ (k' - 1) * n := by nlinarith
      omega
    · have : (k' - 1) * (n : ℤ) + n ≤ (k - 1) * n := by nlinarith
      omega
  subst hkk
  omega

/-- Distinct nodes own distinct degrees of freedom. -/
theorem nodup_flatMap_dofIndex {n : ℕ} {nodes : List ℤ} (h : nodes.Nodup) :
    (nodes.flatMap fun k => (List.range n).map (dofIndex n k)).Nodup := by
  rw [List.nodup_flatMap]
  constructor
  · intro k _
    apply List.nodup_range.map_on
    intro i hi i' hi' he
    exact (dofIndex_inj (List.mem_range.mp hi) (List.mem_range.mp hi') he).2
  · refine h.imp fun {k k'} hne => ?_
    rw [Function.onFun, List.disjoint_left]
    intro d hd hd'
    obtain ⟨i, hi, rfl⟩ := List.mem_map.mp hd
    obtain ⟨i', hi', he⟩ := List.mem_map.mp hd'
    exact hne (dofIndex_inj (List.mem_range.mp hi') (List.mem_range.mp hi) he).1.symm

theorem nodup_getDof {α : Type} {e : Element α} (h : e.nodeIds.Nodup) : e.getDof.Nodup := by
  rw [getDof_eq]
  exact nodup_flatMap_dofIndex h

end Distinct

variable {α : Type}

/-- The places of all degrees of freedom of some local nodes. -/
def places (e : Element α) (nodes : List ℕ) : List ℕ :=
  nodes.flatMap fun k => (List.range e.dofsPerNode).map fun i => k * e.dofsPerNode + i

theorem toNat_sideDof {e : Element α} {s : ℤ} {nodes : List ℕ} (h : e.sideNodes s = .ok nodes) :
    (e.sideDof s).map (List.map Int.toNat) = .ok (e.places nodes) := by
  rw [sideDof_eq h]
  simp only [Except.map, places, List.map_flatMap, List.map_map, Function.comp_def,
    Int.toNat_natCast]

theorem mem_places {e : Element α} {nodes : List ℕ} {p : ℕ} :
    p ∈ e.places nodes ↔ ∃ k ∈ nodes, ∃ i < e.dofsPerNode, p = k * e.dofsPerNode + i := by
  simp [places, List.mem_flatMap, eq_comm]

theorem places_subset (e : Element α) {nodes nodes' : List ℕ} (h : ∀ k ∈ nodes, k ∈ nodes') :
    ∀ p ∈ e.places nodes, p ∈ e.places nodes' := by
  intro p hp
  obtain ⟨k, hk, i, hi, rfl⟩ := mem_places.mp hp
  exact mem_places.mpr ⟨k, h k hk, i, hi, rfl⟩

theorem map_places (e : Element α) (nodes : List ℕ) :
    (e.places nodes).map (fun p : ℕ => (p : ℤ)) =
      (nodes.map fun k : ℕ => (k : ℤ) + 1).flatMap fun k =>
        (List.range e.dofsPerNode).map (dofIndex e.dofsPerNode k) := by
  rw [places, List.map_flatMap, List.flatMap_map]
  apply List.flatMap_congr
  intro k _
  rw [List.map_map]
  exact List.map_congr_left fun i _ => by simp [dofIndex]

theorem nodup_places (e : Element α) {nodes : List ℕ} (h : nodes.Nodup) :
    (e.places nodes).Nodup := by
  apply List.Nodup.of_map (fun p : ℕ => (p : ℤ))
  rw [map_places]
  exact nodup_flatMap_dofIndex (h.map fun k k' he => by simpa using he)

theorem lt_of_mem_places {e : Element α} {nodes : List ℕ}
    (h : ∀ k ∈ nodes, k < e.family.nodeCount) {p : ℕ} (hp : p ∈ e.places nodes) : p < e.dofs := by
  obtain ⟨k, hk, i, hi, rfl⟩ := mem_places.mp hp
  calc k * e.dofsPerNode + i < k * e.dofsPerNode + e.dofsPerNode := by omega
    _ = (k + 1) * e.dofsPerNode := (Nat.succ_mul _ _).symm
    _ ≤ e.dofs := Nat.mul_le_mul_right _ (h k hk)

/-- The degrees of freedom of a side are those of the element at the places of the side. -/
theorem getDof_side [Scalar α] {e side : Element α} {s : ℤ} (h : e.buildSide s = .ok side) :
    ∃ nodes, e.sideNodes s = .ok nodes ∧ nodes ∈ e.family.sides ∧
      side.getDof = (e.places nodes).map fun p => e.getDof.getD p 0 := by
  obtain ⟨nodes, hnodes, hn, hids⟩ := buildSide_eq_ok h
  have hmem := sideNodes_mem hnodes
  refine ⟨nodes, hnodes, hmem, ?_⟩
  rw [getDof_eq, hn, hids, List.flatMap_map, places, List.map_flatMap]
  apply List.flatMap_congr
  intro k hk
  have hlt : k < e.nodeIds.length := by
    rw [e.length_nodeIds]
    exact (Family.lt_of_mem_sides hmem).2 k hk
  rw [List.map_map]
  apply List.map_congr_left
  intro i hi
  simp [getElem?_getDof e k (List.mem_range.mp hi), hlt]

end Element
end WeakForm

import Mathlib.Logic.Relation
import WeakForm.Proofs.RealScalar
import WeakForm.Proofs.Linear.Cancellation
import WeakForm.Proofs.Mesh.Exterior
import WeakForm.Proofs.Mesh.Locations

/-!
# Meshes over lists

A mesh that is frozen over given nodes and elements keeps them, however it is tagged. Sums over its
cells are sums over the list of its elements.
-/

namespace WeakForm
namespace Mesh

variable {m m' : Mesh ℝ} {nodes : List (List ℝ)} {connectivity : List (Family × List ℤ)} {d : ℕ}

/-- A frozen mesh over the given nodes and elements with `d` degrees of freedom per node. -/
structure IsOver (m : Mesh ℝ) (nodes : List (List ℝ)) (connectivity : List (Family × List ℤ))
    (d : ℕ) : Prop where
  reachable : m.Reachable
  frozen : m.frozen = true
  nodes_eq : m.nodes = nodes
  connectivity_eq : m.connectivity = connectivity
  dofsPerNode_eq : m.dofsPerNode = d
  coords_eq : m.coords = some (coordinateMatrix nodes)

namespace IsOver

variable (h : m.IsOver nodes connectivity d)
include h

theorem built : m.Built := h.reachable.wellFormed.built h.frozen

theorem dofs_eq : m.dofs = nodes.length * d := by
  rw [h.built.dofs, h.nodes_eq, h.dofsPerNode_eq]

/-- The cells are made as the list of elements says. -/
theorem forall₂_cells : List.Forall₂ (fun c cell =>
    cell.element.IsMade c.1 (nodesOf (coordinateMatrix nodes) c.2) c.2 d ∧
      ∀ k ∈ c.2, 1 ≤ k ∧ k ≤ (nodes.length : ℤ)) connectivity m.cells := by
  have hcells := h.built.forall₂_cells
  rwa [h.nodes_eq, h.connectivity_eq, h.dofsPerNode_eq] at hcells

/-- What holds of everything made as the list of elements says holds of all elements. -/
theorem of_mem_cells {P : Element ℝ → Prop} (hP : ∀ c ∈ connectivity, ∀ e : Element ℝ,
    e.IsMade c.1 (nodesOf (coordinateMatrix nodes) c.2) c.2 d → P e) :
    ∀ c ∈ m.cells, P c.element := by
  intro c hc
  obtain ⟨i, hi, rfl⟩ := List.mem_iff_getElem.mp hc
  have hcells := h.forall₂_cells
  have hi' : i < connectivity.length := hcells.length_eq ▸ hi
  exact hP _ (List.getElem_mem hi') _ (hcells.get hi' hi).1

/-- A sum over all elements is one over the items that they are listed by. -/
theorem sum_cells {ι : Type} {items : List ι} {entry : ι → Family × List ℤ}
    (hitems : connectivity = items.map entry) {f : Element ℝ → ℝ} {g : ι → ℝ}
    (hfg : ∀ x ∈ items, ∀ e : Element ℝ,
      e.IsMade (entry x).1 (nodesOf (coordinateMatrix nodes) (entry x).2) (entry x).2 d → f e = g x) :
    ((m.cells.map Cell.element).map f).sum = (items.map g).sum := by
  have hcells := h.forall₂_cells
  rw [hitems, List.forall₂_map_left_iff] at hcells
  rw [List.map_map]
  refine congrArg List.sum (List.ext_getElem (by simp [hcells.length_eq]) fun i hi hi' => ?_)
  rw [List.length_map] at hi hi'
  simp only [List.getElem_map, Function.comp_apply]
  exact hfg _ (List.getElem_mem hi') _ (hcells.get hi' hi).1

/-- Tagging leaves a mesh over its lists. -/
theorem step (hs : Step m m') : m'.IsOver nodes connectivity d := by
  obtain ⟨cells, regions, -, rfl⟩ := hs.exists_of_frozen h.frozen
  exact ⟨.step h.reachable hs, h.frozen, h.nodes_eq, h.connectivity_eq, h.dofsPerNode_eq, h.coords_eq⟩

/-- The whole exterior of a mesh without other tags is tagged. -/
theorem exists_tagExterior (hregions : m.regions = []) {tag : TagId} (htag : tag.IsPlain)
    (essential : Bool) : ∃ r m', m.addBoundary tag [] essential = (.ok r, m') ∧
      m'.IsOver nodes connectivity d ∧ m'.regions = [(tag.key, r)] ∧ r.essential = essential ∧
      ∀ k, k ∈ m'.regionNodeIds r ↔ ∃ i s ids, IsExterior connectivity i s ids ∧ k ∈ ids := by
  obtain ⟨r, cells, hadd, -, hessential, hmem⟩ :=
    exists_addBoundary_exterior h.reachable h.frozen hregions htag essential
  have hover := h.step (.addBoundary m tag [] essential)
  rw [hadd] at hover
  rw [h.connectivity_eq] at hmem
  exact ⟨r, _, hadd, hover, rfl, hessential, hmem⟩

/-- The region of the whole exterior has the sides that no two elements share. -/
theorem exists_exteriorRegion (hregions : m.regions = []) {tag : TagId} (htag : tag.IsPlain)
    (essential : Bool) : ∃ r m', m.addBoundary tag [] essential = (.ok r, m') ∧
      m'.IsOver nodes connectivity d ∧ m'.boundary tag = .ok r ∧
      ∀ ref, ref ∈ r.sides ↔ 1 ≤ ref.1 ∧ ∃ ids, IsExterior connectivity (ref.1 - 1) ref.2 ids := by
  obtain ⟨r, cells, hadd, -, hkind, -, hmem⟩ := addBoundary_eq_ok h.frozen htag
    (by simp [hregions]) rfl fun c _ side _ => takesSide_nil c side
  have hover := h.step (.addBoundary m tag [] essential)
  rw [hadd] at hover
  refine ⟨r, _, hadd, hover, ?_, fun ref => ?_⟩
  · rw [boundary, if_neg htag.usable]
    simp [hregions, Option.filter, hkind]
  · simp only [hmem, ← h.connectivity_eq, isExterior_iff h.reachable h.frozen]
    refine and_congr_right fun _ => ⟨?_, ?_⟩
    · rintro ⟨c, side, hc, hs, hboundary⟩
      exact ⟨_, c, side, hc, hs, hboundary, rfl⟩
    · rintro ⟨_, c, side, hc, hs, hboundary, -⟩
      exact ⟨c, side, hc, hs, hboundary⟩

/-- With one degree of freedom per node a function of the nodes is a vector. -/
theorem toArray_nodes (hd : d = 1) (g : List ℝ → ℝ) :
    (m.nodes.map g).toArray = Array.ofFn fun i : Fin m.dofs => g (nodes.getD i []) := by
  have hdofs : m.dofs = nodes.length := by rw [h.dofs_eq, hd, mul_one]
  refine Array.ext (by simp [h.nodes_eq, hdofs]) fun i hi hi' => ?_
  have hlt : i < nodes.length := by simpa [h.nodes_eq] using hi
  simp [h.nodes_eq, hlt]

/-- A function of the nodes with a value for every component is a vector. -/
theorem toArray_components {g : List ℝ → List ℝ} (hg : ∀ x, (g x).length = d) :
    (m.nodes.flatMap g).toArray =
      Array.ofFn fun i : Fin m.dofs => (g (nodes.getD ((i : ℕ) / d) [])).getD ((i : ℕ) % d) 0 := by
  have hlength : (m.nodes.flatMap g).length = m.dofs := by
    simp [List.length_flatMap, hg, h.nodes_eq, h.dofs_eq]
  refine Array.ext (by simp [hlength]) fun i hi hi' => ?_
  have hlt : i < nodes.length * d := by simpa [hlength, h.dofs_eq] using hi
  have hd : 0 < d := Nat.pos_of_mul_pos_left (Nat.zero_lt_of_lt hlt)
  have hnode : i / d < nodes.length := Nat.div_lt_of_lt_mul (by rwa [mul_comm])
  have hget := getElem?_flatMap_of_length hg nodes (k := i / d) (Nat.mod_lt i hd)
  rw [Nat.div_add_mod', List.getElem?_eq_getElem hnode, Option.bind_some] at hget
  simp only [List.getElem_toArray, Array.getElem_ofFn, List.getD_eq_getElem nodes [] hnode]
  rw [List.getD_eq_getElem?_getD, ← hget, ← h.nodes_eq, List.getElem?_eq_getElem (by simpa using hi)]
  rfl

theorem of_steps (hs : Relation.ReflTransGen Step m m') : m'.IsOver nodes connectivity d := by
  induction hs with
  | refl => exact h
  | tail _ hs ih => exact ih.step hs

end IsOver

theorem nodeDim_eq (hne : nodes ≠ []) {dim : ℕ} (h : ∀ x ∈ nodes, x.length = dim) :
    nodeDim nodes = dim := by
  have hmap : nodes.map List.length = List.replicate nodes.length dim :=
    List.map_eq_replicate_iff.mpr h
  have hmax (count : ℕ) : (List.replicate count dim).foldl max dim = dim := by
    induction count with
    | zero => rfl
    | succ count ih => rw [List.replicate_succ, List.foldl_cons, max_self, ih]
  obtain ⟨count, hcount⟩ := Nat.exists_eq_succ_of_ne_zero (List.length_pos_of_ne_nil hne).ne'
  rw [nodeDim, hmap, hcount, List.replicate_succ, List.foldl_cons, Nat.zero_max, hmax]

theorem entry_coordinateMatrix {i : ℕ} {x : List ℝ} (hx : nodes[i]? = some x) (j : ℕ) :
    (coordinateMatrix nodes).entry i j = x.getD j 0 := by
  obtain ⟨hi, rfl⟩ := List.getElem?_eq_some_iff.mp hx
  rw [coordinateMatrix, DenseMatrix.ofRows, DenseMatrix.entry_ofFn_eq, List.getD_eq_getElem nodes [] hi]
  split_ifs with h
  · rfl
  · have hlength : nodes[i].length ≤ nodeDim nodes :=
      (le_foldl_max _ 0).2 _ (List.mem_map_of_mem (List.getElem_mem hi))
    have hnone : nodes[i][j]? = none := List.getElem?_eq_none (by omega)
    rw [List.getD_eq_getElem?_getD, hnone]
    rfl

theorem entry_nodesOf_of_lt {coords : DenseMatrix ℝ} {ids : List ℤ} {p k : ℕ} (hp : p < ids.length)
    (hk : k < coords.cols) :
    (nodesOf coords ids).entry p k = coords.entry (ids.getD p 0 - 1).toNat k := by
  have hrow : (ids.map fun k => (k - 1).toNat).getD p 0 = (ids.getD p 0 - 1).toNat := by simp [hp]
  rw [nodesOf, DenseMatrix.selectRows, DenseMatrix.entry_ofFn _ (by simpa using hp) hk, hrow]

/-- The coordinates of the nodes of an element. -/
theorem entry_nodesOf {ids : List ℤ} {p : ℕ} {k : ℤ} {x : List ℝ} (hp : ids[p]? = some k)
    (hx : nodes[(k - 1).toNat]? = some x) (j : ℕ) :
    (nodesOf (coordinateMatrix nodes) ids).entry p j = x.getD j 0 := by
  obtain ⟨hlt, rfl⟩ := List.getElem?_eq_some_iff.mp hp
  have hrow : (ids.map fun k => (k - 1).toNat).getD p 0 = (ids[p] - 1).toNat := by
    simp [hlt]
  rw [← entry_coordinateMatrix hx, nodesOf, DenseMatrix.selectRows, DenseMatrix.entry_ofFn_eq, hrow]
  split_ifs with h
  · rfl
  · exact (DenseMatrix.entry_of_cols_le _ (not_lt.mp fun hj => h ⟨by simpa using hlt, hj⟩)).symm

/-- Lists of nodes and elements are frozen if the elements are over existing nodes and have the degrees
of freedom that their families need. -/
theorem isOver_freeze {space : Datum ℝ} (hnodes : ∀ x ∈ nodes, 1 ≤ x.length ∧ x.length ≤ 3)
    (hempty : nodes ≠ [] ∧ connectivity ≠ []) (hd : Space.dofsPerNode space (nodeDim nodes) = .ok d)
    (hcells : ∀ c ∈ connectivity, c.2.length = c.1.nodeCount ∧
      (∀ fixed, c.1.fixedDofs = some fixed → d = fixed) ∧ ∀ k ∈ c.2, 1 ≤ k ∧ k ≤ (nodes.length : ℤ)) :
    (ofLists space nodes connectivity).freeze.1 = .ok () ∧
      (ofLists space nodes connectivity).freeze.2.IsOver nodes connectivity d ∧
      (ofLists space nodes connectivity).freeze.2.regions = [] := by
  have hopen := reachable_ofLists space hnodes fun c hc => (hcells c hc).1
  obtain ⟨hok, hfrozen, -, hkept, hconnectivity, hn, hcoords, hregions⟩ :=
    freeze_eq_ok hopen rfl hempty.1 hempty.2 hd fun c hc => (hcells c hc).2
  exact ⟨hok, ⟨.step hopen (.freeze _), hfrozen, hkept, hconnectivity, hn, hcoords⟩, hregions⟩

end Mesh
end WeakForm

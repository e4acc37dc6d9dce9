import Mathlib.Data.List.Forall2
import Mathlib.Tactic
import WeakForm.Proofs.Kernel.Copies
import WeakForm.Proofs.Mesh.Grids
import WeakForm.Proofs.Mesh.Neighbors

/-!
# Renumbered meshes

The nodes of a mesh get other numbers, and its elements are added in another order. The cells of the
frozen mesh are then copies of what they were: they lie in the same places, and the same sides are
exterior and lie on the same faces of the bounding box.
-/

/-!
## Items at other places

The items of a list are found in another list, each related to its image, but at places that a
permutation gives. Up to their order the two lists are then related item by item.
-/

namespace WeakForm

variable {β γ β' γ' : Type} {R : β → γ → Prop} {π : Equiv.Perm ℕ} {xs : List β} {ys : List γ}

theorem rel_getElem?_of_forall₂ (h : List.Forall₂ R xs ys) (i : ℕ) : Option.Rel R xs[i]? ys[i]? := by
  induction h generalizing i with
  | nil => exact .none
  | cons hxy _ ih =>
    cases i with
    | zero => exact .some hxy
    | succ i => exact ih i

/-- What there is for every pair of related items there is for the lists. -/
theorem exists_forall₂ {δ : Type} {S : β → δ → Prop} {T : γ → δ → Prop} (h : List.Forall₂ R xs ys)
    (hex : ∀ x ∈ xs, ∀ y, R x y → ∃ z, S x z ∧ T y z) :
    ∃ zs, List.Forall₂ S xs zs ∧ List.Forall₂ T ys zs := by
  induction h with
  | nil => exact ⟨[], .nil, .nil⟩
  | cons hxy _ ih =>
    obtain ⟨hx, hxs⟩ := List.forall_mem_cons.mp hex
    obtain ⟨z, hz, hz'⟩ := hx _ hxy
    obtain ⟨zs, hzs, hzs'⟩ := ih hxs
    exact ⟨z :: zs, .cons hz hzs, .cons hz' hzs'⟩

/-- Item `i` of the first list is related to item `π i` of the second one, which has no others. -/
def Moved (R : β → γ → Prop) (π : Equiv.Perm ℕ) (xs : List β) (ys : List γ) : Prop :=
  ∀ i, Option.Rel R xs[i]? ys[π i]?

namespace Moved

theorem of_map {g : β → γ} (h : ∀ i, ys[π i]? = xs[i]?.map g) :
    Moved (fun x y => y = g x) π xs ys := by
  intro i
  rw [h i]
  cases xs[i]? with
  | none => exact .none
  | some x => exact .some rfl

theorem map_iff {f : β' → β} {g : γ' → γ} {xs : List β'} {ys : List γ'} :
    Moved R π (xs.map f) (ys.map g) ↔ Moved (fun x y => R (f x) (g y)) π xs ys := by
  refine forall_congr' fun i => ?_
  rw [List.getElem?_map, List.getElem?_map]
  cases xs[i]? <;> cases ys[π i]? <;> simp

theorem imp {S : β → γ → Prop} (h : Moved R π xs ys)
    (hS : ∀ i x y, xs[i]? = some x → ys[π i]? = some y → R x y → S x y) : Moved S π xs ys := by
  intro i
  have hi := h i
  generalize hx : xs[i]? = x at hi ⊢
  generalize hy : ys[π i]? = y at hi ⊢
  cases hi with
  | some hxy => exact .some (hS i _ _ hx hy hxy)
  | none => exact .none

/-- What is made from the items, one by one, is moved with them. -/
theorem of_forall₂ {S : β → β' → Prop} {T : γ → γ' → Prop} {xs' : List β'} {ys' : List γ'}
    (h : Moved R π xs ys) (hS : List.Forall₂ S xs xs') (hT : List.Forall₂ T ys ys') :
    Moved (fun x' y' => ∃ x y, S x x' ∧ T y y' ∧ R x y) π xs' ys' := by
  intro i
  have hi := h i
  have hx := rel_getElem?_of_forall₂ hS i
  have hy := rel_getElem?_of_forall₂ hT (π i)
  generalize xs[i]? = x at hi hx
  generalize ys[π i]? = y at hi hy
  generalize xs'[i]? = x' at hx ⊢
  generalize ys'[π i]? = y' at hy ⊢
  cases hi with
  | some hxy =>
    cases hx with
    | some hx => cases hy with
      | some hy => exact .some ⟨_, _, hx, hy, hxy⟩
  | none =>
    cases hx
    cases hy
    exact .none

theorem exists_right (h : Moved R π xs ys) {i : ℕ} {x : β} (hx : xs[i]? = some x) :
    ∃ y, ys[π i]? = some y ∧ R x y := by
  have hi := h i
  rw [hx] at hi
  generalize ys[π i]? = y at hi ⊢
  cases hi with
  | some hxy => exact ⟨_, rfl, hxy⟩

theorem exists_left (h : Moved R π xs ys) {j : ℕ} {y : γ} (hy : ys[j]? = some y) :
    ∃ i x, π i = j ∧ xs[i]? = some x ∧ R x y := by
  have hi := h (π.symm j)
  rw [Equiv.apply_symm_apply, hy] at hi
  generalize hx : xs[π.symm j]? = x at hi
  cases hi with
  | some hxy => exact ⟨π.symm j, _, π.apply_symm_apply j, hx, hxy⟩

theorem exists_mem_left (h : Moved R π xs ys) {y : γ} (hy : y ∈ ys) : ∃ x ∈ xs, R x y := by
  obtain ⟨j, hj⟩ := List.mem_iff_getElem?.mp hy
  obtain ⟨i, x, -, hx, hxy⟩ := h.exists_left hj
  exact ⟨x, List.mem_of_getElem? hx, hxy⟩

theorem lt_iff (h : Moved R π xs ys) (i : ℕ) : π i < ys.length ↔ i < xs.length := by
  constructor
  · intro hi
    obtain ⟨j, x, hj, hx, -⟩ := h.exists_left (List.getElem?_eq_getElem hi)
    exact π.injective hj ▸ (List.getElem?_eq_some_iff.mp hx).1
  · intro hi
    obtain ⟨y, hy, -⟩ := h.exists_right (List.getElem?_eq_getElem hi)
    exact (List.getElem?_eq_some_iff.mp hy).1

theorem perm_range (h : Moved R π xs ys) :
    ((List.range xs.length).map π).Perm (List.range ys.length) := by
  rw [List.perm_ext_iff_of_nodup (List.nodup_range.map π.injective) List.nodup_range]
  intro j
  rw [List.mem_map, List.mem_range]
  constructor
  · rintro ⟨i, hi, rfl⟩
    exact (h.lt_iff i).mpr (List.mem_range.mp hi)
  · intro hj
    refine ⟨π.symm j, List.mem_range.mpr ((h.lt_iff _).mp ?_), π.apply_symm_apply j⟩
    rwa [Equiv.apply_symm_apply]

theorem length_eq (h : Moved R π xs ys) : ys.length = xs.length := by
  simpa using h.perm_range.length_eq.symm

/-- The items can be put into an order in which they are related one by one. -/
theorem exists_perm (h : Moved R π xs ys) : ∃ zs, zs.Perm ys ∧ List.Forall₂ R xs zs := by
  let zs := List.ofFn fun i : Fin xs.length => ys.get ⟨π i, (h.lt_iff i).mpr i.isLt⟩
  have hzs : zs.map some = ((List.range xs.length).map π).map fun j => ys[j]? :=
    List.ext_getElem (by simp [zs]) fun i hi _ => by
      have hlt : π i < ys.length := (h.lt_iff i).mpr (by simpa [zs] using hi)
      simp [zs, hlt]
  have hys : ys.map some = (List.range ys.length).map fun j => ys[j]? :=
    List.ext_getElem (by simp) fun j hj _ => by
      have hlt : j < ys.length := by simpa using hj
      simp [hlt]
  have hperm : (zs.map some).Perm (ys.map some) := by
    rw [hzs, hys]
    exact h.perm_range.map _
  refine ⟨zs, by simpa using hperm.filterMap id, List.forall₂_iff_get.mpr ⟨by simp [zs], ?_⟩⟩
  intro i hi _
  obtain ⟨y, hy, hxy⟩ := h.exists_right (List.getElem?_eq_getElem hi)
  obtain ⟨_, rfl⟩ := List.getElem?_eq_some_iff.mp hy
  simpa [zs] using hxy

/-- Items that are only moved are the same up to their order. -/
theorem perm {xs' : List β} (h : Moved (fun x y => y = x) π xs xs') : xs.Perm xs' := by
  obtain ⟨zs, hperm, hzs⟩ := h.exists_perm
  have heq : zs = xs := by
    rw [← List.forall₂_eq_eq_eq]
    exact hzs.flip
  exact heq ▸ hperm

end Moved

end WeakForm

/-!
## Copies of meshes
-/

namespace WeakForm

section Numbers

variable {π : Equiv.Perm ℕ} {ids ids' : List ℤ} {k l : ℤ}

/-- The new number of a node; nodes are numbered from one, and their places counted from zero. -/
def movedNode (π : Equiv.Perm ℕ) (k : ℤ) : ℤ := (π (k - 1).toNat : ℤ) + 1

@[simp] theorem toNat_movedNode (π : Equiv.Perm ℕ) (k : ℤ) :
    (movedNode π k - 1).toNat = π (k - 1).toNat := by
  simp [movedNode]

theorem one_le_movedNode (π : Equiv.Perm ℕ) (k : ℤ) : 1 ≤ movedNode π k := by
  unfold movedNode
  omega

theorem movedNode_inj (hk : 1 ≤ k) (hl : 1 ≤ l) : movedNode π k = movedNode π l ↔ k = l := by
  rw [movedNode, movedNode, add_left_inj, Nat.cast_inj, π.injective.eq_iff]
  omega

theorem mem_map_movedNode (hids : ∀ k ∈ ids, 1 ≤ k) (hk : 1 ≤ k) :
    movedNode π k ∈ ids.map (movedNode π) ↔ k ∈ ids := by
  constructor
  · intro h
    obtain ⟨l, hl, hlk⟩ := List.mem_map.mp h
    exact (movedNode_inj (hids l hl) hk).mp hlk ▸ hl
  · exact List.mem_map_of_mem

/-- Whether two sides have the same nodes does not depend on their numbers. -/
theorem sortedSet_map_movedNode (h : ∀ k ∈ ids, 1 ≤ k) (h' : ∀ k ∈ ids', 1 ≤ k) :
    sortedSet (ids.map (movedNode π)) = sortedSet (ids'.map (movedNode π)) ↔
      sortedSet ids = sortedSet ids' := by
  simp only [sortedSet_eq_iff, Finset.ext_iff, List.mem_toFinset]
  constructor
  · intro heq k
    by_cases hk : 1 ≤ k
    · rw [← mem_map_movedNode h hk, heq, mem_map_movedNode h' hk]
    · exact iff_of_false (fun hmem => hk (h k hmem)) fun hmem => hk (h' k hmem)
  · intro heq j
    simp only [List.mem_map, heq]

end Numbers

/-- What is known about a side but for its tags and its neighbour. -/
def CellSide.place (side : CellSide) : List ℕ × Bool × Option Location :=
  (side.nodes, side.onBoundary, side.location)

namespace Cell

variable {α : Type} {f : ℤ → ℤ} {c c' : Cell α} {s : ℕ} {side side' : CellSide}

/-- The cell `c'` is a copy of `c`, with sides that are exterior and lie on faces like those of `c`. -/
structure IsCopy (c' : Cell α) (f : ℤ → ℤ) (c : Cell α) : Prop where
  element : c'.element.IsCopy f c.element
  sides : c'.sides.map CellSide.place = c.sides.map CellSide.place

theorem sideNodeIds_copy (h : c'.element.IsCopy f c.element) (hnodes : side'.nodes = side.nodes)
    (hside : side.nodes ∈ c.element.family.sides) :
    c'.sideNodeIds side' = (c.sideNodeIds side).map f := by
  rw [sideNodeIds, sideNodeIds, hnodes, h.map_getD hside]

theorem sidePoints_copy [Zero α] (h : c'.element.IsCopy f c.element)
    (hnodes : side'.nodes = side.nodes) : c'.sidePoints side' = c.sidePoints side := by
  rw [sidePoints, sidePoints, hnodes, h.nodes_eq]

end Cell

namespace Mesh

/-- Node `k` of the one mesh is node `π k` of the other, and element `i` is element `ρ i`, all counted
from zero. -/
structure Permutes {α : Type} (π ρ : Equiv.Perm ℕ) (m m' : Mesh α) : Prop where
  space_eq : m'.space = m.space
  nodes : ∀ k, m'.nodes[π k]? = m.nodes[k]?
  connectivity : ∀ i, m'.connectivity[ρ i]? =
    m.connectivity[i]?.map fun c => (c.1, c.2.map (movedNode π))

section Coordinates

variable {π : Equiv.Perm ℕ} {nodes nodes' : List (List ℝ)}

theorem nodeDim_of_moved (h : Moved (fun x y => y = x) π nodes nodes') :
    nodeDim nodes' = nodeDim nodes :=
  ((h.perm.map List.length).foldl_op_eq).symm

/-- The columns of coordinates are the same up to their order. -/
theorem perm_column (h : Moved (fun x y => y = x) π nodes nodes') (j : ℕ) :
    ((coordinateMatrix nodes).column j).Perm ((coordinateMatrix nodes').column j) := by
  have hentry : (List.range nodes.length).map ((coordinateMatrix nodes).entry · j) =
      ((List.range nodes.length).map π).map ((coordinateMatrix nodes').entry · j) := by
    rw [List.map_map]
    refine List.map_congr_left fun k hk => ?_
    have hx := List.getElem?_eq_getElem (List.mem_range.mp hk)
    obtain ⟨y, hy, rfl⟩ := h.exists_right hx
    rw [Function.comp_apply, entry_coordinateMatrix hx, entry_coordinateMatrix hy]
  change ((List.range nodes.length).map _).Perm ((List.range nodes'.length).map _)
  rw [hentry]
  exact h.perm_range.map _

theorem min?_of_perm {xs ys : List ℝ} (h : xs.Perm ys) : xs.min? = ys.min? := by
  ext a
  simp only [List.min?_eq_some_iff, h.mem_iff]

theorem max?_of_perm {xs ys : List ℝ} (h : xs.Perm ys) : xs.max? = ys.max? := by
  ext a
  simp only [List.max?_eq_some_iff, h.mem_iff]

theorem columnRange_of_moved (h : Moved (fun x y => y = x) π nodes nodes') (j : ℕ) :
    columnRange (coordinateMatrix nodes') j = columnRange (coordinateMatrix nodes) j := by
  rw [columnRange_eq, columnRange_eq, min?_of_perm (perm_column h j), max?_of_perm (perm_column h j)]

theorem boxFaces_of_moved (h : Moved (fun x y => y = x) π nodes nodes') :
    boxFaces (coordinateMatrix nodes') = boxFaces (coordinateMatrix nodes) := by
  have hcols : (coordinateMatrix nodes').cols = (coordinateMatrix nodes).cols := nodeDim_of_moved h
  simp only [boxFaces, columnRange_of_moved h, hcols]

theorem boxTolerance_of_moved (h : Moved (fun x y => y = x) π nodes nodes') :
    boxTolerance (coordinateMatrix nodes') = boxTolerance (coordinateMatrix nodes) := by
  have hcols : (coordinateMatrix nodes').cols = (coordinateMatrix nodes).cols := nodeDim_of_moved h
  simp only [boxTolerance, columnRange_of_moved h, hcols]

/-- The nodes of an element lie where they did. -/
theorem nodesOf_of_moved (h : Moved (fun x y => y = x) π nodes nodes') {ids : List ℤ}
    (hids : ∀ k ∈ ids, 1 ≤ k ∧ k ≤ (nodes.length : ℤ)) :
    nodesOf (coordinateMatrix nodes') (ids.map (movedNode π)) =
      nodesOf (coordinateMatrix nodes) ids := by
  refine DenseMatrix.ext (by simp [nodesOf, DenseMatrix.selectRows]) (nodeDim_of_moved h) ?_
  intro p j hp _
  have hlt : p < ids.length := by simpa [nodesOf, DenseMatrix.selectRows] using hp
  obtain ⟨hone, hle⟩ := hids _ (List.getElem_mem hlt)
  have hplace : (ids[p] - 1).toNat < nodes.length := by omega
  have hx := List.getElem?_eq_getElem hplace
  obtain ⟨y, hy, rfl⟩ := h.exists_right hx
  rw [entry_nodesOf (List.getElem?_eq_getElem hlt) hx j]
  refine entry_nodesOf (k := movedNode π ids[p]) ?_ ?_ j
  · rw [List.getElem?_map, List.getElem?_eq_getElem hlt, Option.map_some]
  · rw [toNat_movedNode, hy]

end Coordinates

section Sides

variable {π ρ : Equiv.Perm ℕ} {m m' : Mesh ℝ} {i s : ℕ} {c c' : Cell ℝ} {side side' : CellSide}

/-- The elements of a renumbered mesh are copies. -/
structure HasCopies (π ρ : Equiv.Perm ℕ) (m m' : Mesh ℝ) : Prop where
  reachable : m.Reachable
  reachable' : m'.Reachable
  frozen : m.frozen = true
  frozen' : m'.frozen = true
  elements : Moved (fun c c' => c'.element.IsCopy (movedNode π) c.element) ρ m.cells m'.cells

namespace HasCopies

variable (h : HasCopies π ρ m m')
include h

theorem nodes_eq (hc : m.cells[i]? = some c) (hc' : m'.cells[ρ i]? = some c') :
    c'.sides.map CellSide.nodes = c.sides.map CellSide.nodes := by
  obtain ⟨d, hd, hcopy⟩ := h.elements.exists_right hc
  obtain rfl := Option.some.inj (hd.symm.trans hc')
  rw [h.reachable'.wellFormed.sides d (List.mem_of_getElem? hd),
    h.reachable.wellFormed.sides c (List.mem_of_getElem? hc), hcopy.family_eq]

theorem exists_side (hc : m.cells[i]? = some c) (hc' : m'.cells[ρ i]? = some c') :
    (∃ side, c.sides[s]? = some side) ↔ ∃ side', c'.sides[s]? = some side' := by
  have hlength : c'.sides.length = c.sides.length := by
    simpa using congrArg List.length (h.nodes_eq hc hc')
  simp only [← Option.isSome_iff_exists, isSome_getElem?, hlength]

/-- The sides have the same nodes under their new numbers. -/
theorem sideNodeIds_eq (hc : m.cells[i]? = some c) (hs : c.sides[s]? = some side)
    (hc' : m'.cells[ρ i]? = some c') (hs' : c'.sides[s]? = some side') :
    c'.sideNodeIds side' = (c.sideNodeIds side).map (movedNode π) := by
  obtain ⟨d, hd, hcopy⟩ := h.elements.exists_right hc
  obtain rfl := Option.some.inj (hd.symm.trans hc')
  have hnodes := congrArg (fun nodes : List _ => nodes[s]?) (h.nodes_eq hc hc')
  simp only [List.getElem?_map, hs, hs', Option.map_some] at hnodes
  refine Cell.sideNodeIds_copy hcopy (Option.some.inj hnodes) ?_
  rw [← h.reachable.wellFormed.sides c (List.mem_of_getElem? hc)]
  exact List.mem_map_of_mem (List.mem_of_getElem? hs)

/-- The same sides are exterior. -/
theorem onBoundary_eq (hc : m.cells[i]? = some c) (hs : c.sides[s]? = some side)
    (hc' : m'.cells[ρ i]? = some c') (hs' : c'.sides[s]? = some side') :
    side'.onBoundary = side.onBoundary := by
  have hone {i s : ℕ} {c : Cell ℝ} {side : CellSide} (hc : m.cells[i]? = some c)
      (hs : c.sides[s]? = some side) : ∀ k ∈ c.sideNodeIds side, 1 ≤ k := fun k hk =>
    (h.reachable.wellFormed.range_of_mem_side (h.reachable.wellFormed.built h.frozen)
      (List.mem_of_getElem? hc) (List.mem_of_getElem? hs) hk).1
  -- two sides have the same nodes under the new numbers if and only if they had them before
  have hkey {j t : ℕ} {d d' : Cell ℝ} {other other' : CellSide} (hd : m.cells[j]? = some d)
      (ht : d.sides[t]? = some other) (hd' : m'.cells[ρ j]? = some d')
      (ht' : d'.sides[t]? = some other') :
      sortedSet (d'.sideNodeIds other') = sortedSet (c'.sideNodeIds side') ↔
        sortedSet (d.sideNodeIds other) = sortedSet (c.sideNodeIds side) := by
    rw [h.sideNodeIds_eq hd ht hd' ht', h.sideNodeIds_eq hc hs hc' hs']
    exact sortedSet_map_movedNode (hone hd ht) (hone hc hs)
  rw [Bool.eq_iff_iff, h.reachable'.knowSides _ _ _ _ hc' hs', h.reachable.knowSides _ _ _ _ hc hs]
  constructor
  · intro hunique j d t other hd ht hsame
    obtain ⟨d', hd', -⟩ := h.elements.exists_right hd
    obtain ⟨other', ht'⟩ := (h.exists_side hd hd').mp ⟨other, ht⟩
    have hpair := hunique _ _ _ _ hd' ht' ((hkey hd ht hd' ht').mpr hsame)
    obtain ⟨hj, rfl⟩ := Prod.ext_iff.mp hpair
    exact Prod.ext (ρ.injective hj) rfl
  · intro hunique j' d' t other' hd' ht' hsame
    obtain ⟨j, d, rfl, hd, -⟩ := h.elements.exists_left hd'
    obtain ⟨other, ht⟩ := (h.exists_side hd hd').mpr ⟨other', ht'⟩
    obtain ⟨rfl, rfl⟩ := Prod.ext_iff.mp (hunique j d t other hd ht ((hkey hd ht hd' ht').mp hsame))
    rfl

end HasCopies

end Sides

section Permuting

variable {π ρ : Equiv.Perm ℕ} {m m' : Mesh ℝ}

theorem movedNode_le {nodes nodes' : List (List ℝ)} (h : Moved (fun x y => y = x) π nodes nodes')
    {k : ℤ} (hk : k ≤ (nodes.length : ℤ)) (hone : 1 ≤ k) : movedNode π k ≤ nodes'.length := by
  have hlt := (h.lt_iff (k - 1).toNat).mpr (by omega)
  unfold movedNode
  omega

namespace Permutes

variable (h : m.Permutes π ρ m')
include h

theorem moved_nodes : Moved (fun x y => y = x) π m.nodes m'.nodes :=
  .of_map (g := fun x => x) fun i => by rw [h.nodes, Option.map_id']

theorem moved_connectivity : Moved (fun c c' => c' = (c.1, c.2.map (movedNode π))) ρ m.connectivity
    m'.connectivity := .of_map h.connectivity

/-- If a mesh can be frozen, so can the renumbered one, and its cells are copies. -/
theorem freeze (hm : m.Reachable) (hm' : m'.Reachable) (hopen : m'.frozen = false)
    (hok : m.freeze.1 = .ok ()) : ∃ n, m.freeze.2.IsOver m.nodes m.connectivity n ∧
      m'.freeze.2.IsOver m'.nodes m'.connectivity n ∧ m.freeze.2.regions = [] ∧
      m'.freeze.2.regions = [] ∧
      Moved (fun c c' => c'.IsCopy (movedNode π) c) ρ m.freeze.2.cells m'.freeze.2.cells := by
  have hnodes := h.moved_nodes
  have hconnectivity := h.moved_connectivity
  obtain ⟨hopen₀, hsome, hused, n, hn, hfits, elements, hcells⟩ := exists_of_freeze hok
  have hsome' : m'.nodes ≠ [] := by
    rw [← List.length_pos_iff, hnodes.length_eq]
    exact List.length_pos_iff.mpr hsome
  have hused' : m'.connectivity ≠ [] := by
    rw [← List.length_pos_iff, hconnectivity.length_eq]
    exact List.length_pos_iff.mpr hused
  have hn' : Space.dofsPerNode m'.space (nodeDim m'.nodes) = .ok n := by
    rw [h.space_eq, nodeDim_of_moved hnodes, hn]
  have hfits' : ∀ c ∈ m'.connectivity, (∀ fixed, c.1.fixedDofs = some fixed → n = fixed) ∧
      ∀ k ∈ c.2, 1 ≤ k ∧ k ≤ (m'.nodes.length : ℤ) := by
    intro c' hc'
    obtain ⟨c, hc, rfl⟩ := hconnectivity.exists_mem_left hc'
    obtain ⟨hfixed, hrange⟩ := hfits c hc
    refine ⟨hfixed, fun k hk => ?_⟩
    obtain ⟨l, hl, rfl⟩ := List.mem_map.mp hk
    exact ⟨one_le_movedNode π l, movedNode_le hnodes (hrange l hl).2 (hrange l hl).1⟩
  obtain ⟨-, hfrozen, -, hnodes₁, hconnectivity₁, hn₁, hcoords, hregions⟩ :=
    freeze_eq_ok hm hopen₀ hsome hused hn hfits
  obtain ⟨hok', hfrozen', -, hnodes₁', hconnectivity₁', hn₁', hcoords', hregions'⟩ :=
    freeze_eq_ok hm' hopen hsome' hused' hn' hfits'
  obtain ⟨-, -, -, -, -, -, elements', hcells'⟩ := exists_of_freeze hok'
  have hover : m.freeze.2.IsOver m.nodes m.connectivity n :=
    ⟨.step hm (.freeze _), hfrozen, hnodes₁, hconnectivity₁, hn₁, hcoords⟩
  have hover' : m'.freeze.2.IsOver m'.nodes m'.connectivity n :=
    ⟨.step hm' (.freeze _), hfrozen', hnodes₁', hconnectivity₁', hn₁', hcoords'⟩
  -- that the elements are copies comes first, since which sides are exterior follows from it
  have hcopies : HasCopies π ρ m.freeze.2 m'.freeze.2 := by
    refine ⟨hover.reachable, hover'.reachable, hfrozen, hfrozen', ?_⟩
    refine (hconnectivity.of_forall₂ hover.forall₂_cells hover'.forall₂_cells).imp ?_
    rintro i c c' - - ⟨x, _, ⟨hmade, hrange⟩, ⟨hmade', -⟩, rfl⟩
    refine ⟨hmade'.family_eq.trans hmade.family_eq.symm, ?_,
      hmade'.dofsPerNode_eq.trans hmade.dofsPerNode_eq.symm, hmade'.side_eq.trans hmade.side_eq.symm,
      by rw [hmade'.nodeIds_eq, hmade.nodeIds_eq]⟩
    rw [hmade'.nodes_eq, hmade.nodes_eq, nodesOf_of_moved hnodes hrange]
  refine ⟨n, hover, hover', hregions, hregions', hcopies.elements.imp ?_⟩
  intro i c c' hc hc' hcopy
  have hsides := hcopies.nodes_eq hc hc'
  refine ⟨hcopy, List.ext_getElem (by simpa using congrArg List.length hsides) fun s hs' hs => ?_⟩
  rw [List.length_map] at hs hs'
  rw [List.getElem_map, List.getElem_map]
  have hnode : c'.sides[s].nodes = c.sides[s].nodes := by
    have hsame := congrArg (fun nodes : List _ => nodes[s]?) hsides
    simpa [hs, hs'] using hsame
  have hboundary := hcopies.onBoundary_eq hc (List.getElem?_eq_getElem hs) hc'
    (List.getElem?_eq_getElem hs')
  have hlocation : c'.sides[s].location = c.sides[s].location := by
    rw [location_of_classified (hcells ▸ List.mem_of_getElem? hc) (List.getElem_mem hs),
      location_of_classified (hcells' ▸ List.mem_of_getElem? hc') (List.getElem_mem hs'), hboundary,
      Cell.sidePoints_copy hcopy hnode, boxFaces_of_moved hnodes, boxTolerance_of_moved hnodes]
    rw [show (coordinateMatrix m'.nodes).cols = (coordinateMatrix m.nodes).cols from
      nodeDim_of_moved hnodes]
  exact Prod.ext hnode (Prod.ext hboundary hlocation)

end Permutes

end Permuting

end Mesh
end WeakForm

import WeakForm.Proofs.Mesh.Boundaries
import WeakForm.Proofs.Mesh.Elements
import WeakForm.Proofs.Mesh.Neighbors

/-!
# The exterior of a mesh

The nodes of every side are given by the connectivity alone, and so are the exterior sides. A tag for
the whole exterior has exactly the nodes of these sides.
-/

namespace WeakForm
namespace Mesh

variable {α : Type}

/-- The numbers of the nodes of side `s` of element `i`. -/
def sideOf (connectivity : List (Family × List ℤ)) (i s : ℕ) : Option (List ℤ) :=
  connectivity[i]?.bind fun c => c.1.sides[s]?.map fun places => places.map fun p => c.2.getD p 0

/-- Side `s` of element `i` has the given nodes and shares them with no other side. -/
structure IsExterior (connectivity : List (Family × List ℤ)) (i s : ℕ) (ids : List ℤ) : Prop where
  sideOf_eq : sideOf connectivity i s = some ids
  unique : ∀ j t ids', sideOf connectivity j t = some ids' → sortedSet ids' = sortedSet ids →
    (j, t) = (i, s)

variable {connectivity : List (Family × List ℤ)} {i s : ℕ} {ids : List ℤ}

/-- A side is exterior if no other side has the same nodes. -/
theorem IsExterior.of_mem (hside : sideOf connectivity i s = some ids)
    (h : ∀ j t ids', sideOf connectivity j t = some ids' → (∀ k, k ∈ ids' ↔ k ∈ ids) →
      (j, t) = (i, s)) : IsExterior connectivity i s ids := by
  refine ⟨hside, fun j t ids' hside' hkey => h j t ids' hside' fun k => ?_⟩
  rw [← mem_sortedSet, hkey, mem_sortedSet]

variable [Scalar α] {m : Mesh α}

/-- The cells of a frozen mesh have the sides that the connectivity gives them. -/
theorem sideOf_eq_some (hm : m.WellFormed) (hfrozen : m.frozen = true) :
    sideOf m.connectivity i s = some ids ↔ ∃ c side, m.cells[i]? = some c ∧
      c.sides[s]? = some side ∧ c.sideNodeIds side = ids := by
  have hcells := (hm.built hfrozen).forall₂_cells
  unfold sideOf
  cases hc : m.cells[i]? with
  | none =>
    have hnone : m.connectivity[i]? = none := by
      rw [List.getElem?_eq_none_iff] at hc ⊢
      exact hcells.length_eq ▸ hc
    simp [hnone]
  | some c =>
    obtain ⟨hi, rfl⟩ := List.getElem?_eq_some_iff.mp hc
    have hi' : i < m.connectivity.length := hcells.length_eq ▸ hi
    obtain ⟨hmade, -⟩ := hcells.get hi' hi
    have hsides := hm.sides _ (List.getElem_mem hi)
    change m.cells[i].element.IsMade m.connectivity[i].1 _ m.connectivity[i].2 _ at hmade
    rw [hmade.family_eq] at hsides
    rw [List.getElem?_eq_getElem hi', Option.bind_some, ← hsides, List.getElem?_map, Option.map_map]
    simp only [Option.some.injEq, exists_eq_left', Option.map_eq_some_iff, exists_and_left,
      Function.comp_apply, Cell.sideNodeIds, hmade.nodeIds_eq]

/-- The sides of a frozen mesh that are exterior. -/
theorem isExterior_iff (hm : m.Reachable) (hfrozen : m.frozen = true) :
    IsExterior m.connectivity i s ids ↔ ∃ c side, m.cells[i]? = some c ∧ c.sides[s]? = some side ∧
      side.onBoundary = true ∧ c.sideNodeIds side = ids := by
  constructor
  · rintro ⟨hside, hunique⟩
    obtain ⟨c, side, hc, hs, rfl⟩ := (sideOf_eq_some hm.wellFormed hfrozen).mp hside
    refine ⟨c, side, hc, hs, (hm.knowSides i c s side hc hs).mpr fun j d t other hd ht hkey => ?_, rfl⟩
    exact hunique j t _ ((sideOf_eq_some hm.wellFormed hfrozen).mpr ⟨d, other, hd, ht, rfl⟩) hkey
  · rintro ⟨c, side, hc, hs, hboundary, rfl⟩
    refine ⟨(sideOf_eq_some hm.wellFormed hfrozen).mpr ⟨c, side, hc, hs, rfl⟩, fun j t ids' hside => ?_⟩
    obtain ⟨d, other, hd, ht, rfl⟩ := (sideOf_eq_some hm.wellFormed hfrozen).mp hside
    exact (hm.knowSides i c s side hc hs).mp hboundary j d t other hd ht

/-- Tagging the whole exterior of a mesh without other tags. -/
theorem exists_addBoundary_exterior (hm : m.Reachable) (hfrozen : m.frozen = true)
    (hregions : m.regions = []) {tag : TagId} (htag : tag.IsPlain) (essential : Bool) :
    ∃ r cells, m.addBoundary tag [] essential =
        (.ok r, { m with cells := cells, regions := [(tag.key, r)] }) ∧
      r.kind = .boundary ∧ r.essential = essential ∧
      ∀ k, k ∈ regionNodeIds { m with cells := cells, regions := [(tag.key, r)] } r ↔
        ∃ i s ids, IsExterior m.connectivity i s ids ∧ k ∈ ids := by
  obtain ⟨r, cells, hadd, hcells, hkind, hessential, hmem⟩ := addBoundary_eq_ok hfrozen htag
    (by simp [hregions]) rfl fun c _ side _ => takesSide_nil c side
  rw [hregions, List.nil_append] at hadd
  refine ⟨r, cells, hadd, hkind, hessential, fun k => ?_⟩
  simp only [mem_regionNodeIds hkind, exists_side_of_untagged hcells, isExterior_iff hm hfrozen]
  constructor
  · rintro ⟨ref, href, c, side, hc, hs, hk⟩
    obtain ⟨-, d, other, hd, ht, hboundary⟩ := (hmem ref).mp href
    obtain rfl := Option.some.inj (hc.symm.trans hd)
    obtain rfl := Option.some.inj (hs.symm.trans ht)
    exact ⟨_, _, _, ⟨c, side, hc, hs, hboundary, rfl⟩, hk⟩
  · rintro ⟨i, s, ids, ⟨c, side, hc, hs, hboundary, rfl⟩, hk⟩
    have href : (i + 1, s) ∈ r.sides := (hmem _).mpr ⟨by omega, c, side, by simpa using hc, hs, hboundary⟩
    exact ⟨_, href, c, side, by simpa using hc, hs, hk⟩

end Mesh
end WeakForm

/-!
## Shared sides

Whether two sides have the same nodes, and no other side has them, can be told from the connectivity
alone. In a frozen mesh such sides are neighbours of each other, and neither is exterior.
-/

namespace WeakForm
namespace Mesh

/-- Side `s` of element `i` and side `t` of element `j` have the same nodes, and no other side has
them. -/
structure IsShared (connectivity : List (Family × List ℤ)) (i s j t : ℕ) : Prop where
  ne : (i, s) ≠ (j, t)
  exists_nodes : ∃ ids ids', sideOf connectivity i s = some ids ∧ sideOf connectivity j t = some ids' ∧
    ids'.toFinset = ids.toFinset ∧ ∀ k r other, sideOf connectivity k r = some other →
      other.toFinset = ids.toFinset → (k, r) = (i, s) ∨ (k, r) = (j, t)

variable {α : Type} [Scalar α] {m : Mesh α} {i s j t : ℕ} {ids : List ℤ}

theorem sideNodeIds_of_sideOf (hm : m.WellFormed) (hfrozen : m.frozen = true)
    (h : sideOf m.connectivity i s = some ids) : m.sideNodeIds (i + 1, s) = ids := by
  obtain ⟨c, side, hc, hs, rfl⟩ := (sideOf_eq_some hm hfrozen).mp h
  exact sideNodeIds_eq hc hs

/-- The members of a pair of sides are alike, and no other side is like them. -/
theorem IsShared.alike_eq (hm : m.WellFormed) (hfrozen : m.frozen = true)
    (h : IsShared m.connectivity i s j t) : m.alike (i + 1, s) = {(i + 1, s), (j + 1, t)} := by
  obtain ⟨-, ids, ids', hside, hside', hsame, hunique⟩ := h
  obtain ⟨c, self, hc, hs, rfl⟩ := (sideOf_eq_some hm hfrozen).mp hside
  obtain ⟨d, other, hd, ht, rfl⟩ := (sideOf_eq_some hm hfrozen).mp hside'
  rw [Mesh.alike_eq hc hs]
  ext ref
  simp only [List.mem_toFinset, mem_sidesAlike, mem_sideKeys, Finset.mem_insert,
    Finset.mem_singleton]
  constructor
  · rintro ⟨k, b, r, third, hb, hr, rfl, hkey⟩
    have hthird := (sideOf_eq_some hm hfrozen).mpr ⟨b, third, hb, hr, rfl⟩
    have hplace := hunique k r _ hthird (sortedSet_eq_iff.mp hkey.symm)
    simpa using hplace
  · rintro (rfl | rfl)
    · exact ⟨i, c, s, self, hc, hs, rfl, rfl⟩
    · exact ⟨j, d, t, other, hd, ht, rfl, (sortedSet_eq_iff.mpr hsame).symm⟩

/-- The members of a pair of sides are neighbours. -/
theorem IsShared.neighbor?_eq (hm : m.Reachable) (hfrozen : m.frozen = true)
    (h : IsShared m.connectivity i s j t) : m.neighbor? (i + 1, s) = some (j + 1, t) := by
  obtain ⟨ids, -, hside, -⟩ := h.exists_nodes
  obtain ⟨c, self, hc, hs, rfl⟩ := (sideOf_eq_some hm.wellFormed hfrozen).mp hside
  have halike := h.alike_eq hm.wellFormed hfrozen
  have hgroup : (sidesAlike m.cells (sortedSet (c.sideNodeIds self))).toFinset =
      [(i + 1, s), (j + 1, t)].toFinset := by
    rw [← Mesh.alike_eq hc hs, halike]
    simp
  have hne : (i + 1, s) ≠ (j + 1, t) := fun heq => h.ne (by simpa using heq)
  have hperm := List.perm_of_nodup_nodup_toFinset_eq (nodup_sidesAlike _ _) (by simpa using hne) hgroup
  rw [neighbor?, side?_eq_some.mpr ⟨i, c, s, rfl, hc, hs⟩, Option.bind_some,
    hm.knowNeighbors i c s self hc hs]
  exact List.perm_pair.mp hperm

/-- A side whose nodes another side has is not exterior. -/
theorem IsShared.not_isExterior {connectivity : List (Family × List ℤ)}
    (h : IsShared connectivity i s j t) (hids : sideOf connectivity i s = some ids) :
    ¬ IsExterior connectivity i s ids := by
  intro hexterior
  obtain ⟨ids, ids', hside, hside', hsame, -⟩ := h.exists_nodes
  cases hids.symm.trans hside
  exact h.ne (hexterior.unique j t ids' hside' (sortedSet_eq_iff.mpr hsame)).symm

end Mesh
end WeakForm

import WeakForm.Proofs.Mesh.Reachable

/-!
# Exterior sides

The sides of a frozen mesh are looked up by the sets of their nodes. A side is exterior exactly if no
other side of the mesh has the same nodes.
-/

namespace WeakForm

@[simp] theorem mem_sortedSet {ids : List ℤ} {k : ℤ} : k ∈ sortedSet ids ↔ k ∈ ids := by
  simp [sortedSet]

/-- The list has no other member than the given one. -/
theorem eq_singleton_of_nodup {β : Type} {items : List β} (hitems : items.Nodup) {x : β}
    (hx : x ∈ items) (hall : ∀ y ∈ items, y = x) : items = [x] := by
  have hperm : items.Perm [x] := (List.perm_ext_iff_of_nodup hitems (List.nodup_singleton x)).mpr
    fun y => ⟨fun hy => List.mem_singleton.mpr (hall y hy), fun hy => List.mem_singleton.mp hy ▸ hx⟩
  exact List.perm_singleton.mp hperm

namespace Mesh

variable {α : Type}

section Lookups

/-- The lists of sides by their least nodes. -/
theorem getElem?_foldr_modify {count n : ℕ} (hn : n < count) (sides : List (SideRef × List ℤ)) :
    (sides.foldr (fun s lists => lists.modify (leastNode s.2) (s :: ·))
      (Array.replicate count []))[n]? = some (sides.filter fun s => leastNode s.2 == n) := by
  induction sides with
  | nil => simp [hn]
  | cons s sides ih =>
    simp only [List.foldr_cons, Array.getElem?_modify, ih, List.filter_cons]
    by_cases h : leastNode s.2 = n <;> simp [h]

/-- The sides on a set of nodes are found. -/
theorem sidesOn_sidesByNode {sides : List (SideRef × List ℤ)} {s : SideRef × List ℤ}
    (hs : s ∈ sides) :
    sidesOn (sidesByNode sides) s.2 = (sides.filter fun t => t.2 == s.2).map Prod.fst := by
  have hlt : leastNode s.2 < (sides.map fun s => leastNode s.2 + 1).foldl max 0 :=
    (le_foldl_max _ 0).2 _ (List.mem_map_of_mem hs)
  unfold sidesOn sidesByNode
  rw [Array.getD_eq_getD_getElem?]
  dsimp only
  rw [getElem?_foldr_modify hlt, Option.getD_some, List.filter_filter]
  congr 1
  refine List.filter_congr fun t _ => ?_
  by_cases ht : t.2 = s.2 <;> simp [ht]

end Lookups

section Keys

variable {cells : List (Cell α)}

theorem mem_sideKeys {ref : SideRef} {key : List ℤ} : (ref, key) ∈ sideKeys cells ↔
    ∃ i c s side, cells[i]? = some c ∧ c.sides[s]? = some side ∧ ref = (i + 1, s) ∧
      key = sortedSet (c.sideNodeIds side) := by
  simp only [sideKeys, List.mem_flatMap, List.mem_map, Prod.exists, List.mk_mem_zipIdx_iff_getElem?,
    Prod.mk.injEq]
  constructor
  · rintro ⟨c, i, hc, side, s, hside, rfl, rfl⟩
    exact ⟨i, c, s, side, hc, hside, rfl, rfl⟩
  · rintro ⟨i, c, s, side, hc, hside, rfl, rfl⟩
    exact ⟨c, i, hc, side, s, hside, rfl, rfl⟩

/-- Every side is listed once. -/
theorem nodup_sideKeys (cells : List (Cell α)) : ((sideKeys cells).map Prod.fst).Nodup := by
  have hplaces {β : Type} (items : List β) : items.zipIdx.Pairwise fun x y => x.2 ≠ y.2 := by
    have hnodup : (items.zipIdx.map Prod.snd).Nodup := by
      rw [List.zipIdx_map_snd]
      exact List.nodup_range'
    exact List.pairwise_map.mp hnodup
  have hrefs : (sideKeys cells).map Prod.fst = cells.zipIdx.flatMap fun c =>
      c.1.sides.zipIdx.map fun s => (c.2 + 1, s.2) := by
    simp only [sideKeys, List.map_flatMap, List.map_map, Function.comp_def]
  rw [hrefs, List.nodup_flatMap]
  constructor
  · intro c _
    refine List.pairwise_map.mpr ((hplaces c.1.sides).imp ?_)
    exact fun hne h => hne (Prod.ext_iff.mp h).2
  · refine (hplaces cells).imp fun hne => List.disjoint_left.mpr fun ref hx hy => ?_
    obtain ⟨s, -, rfl⟩ := List.mem_map.mp hx
    obtain ⟨t, -, ht⟩ := List.mem_map.mp hy
    exact hne (Nat.succ.inj (Prod.ext_iff.mp ht).1).symm

end Keys

section Connecting

variable {cells : List (Cell α)} {i s : ℕ} {c : Cell α} {side : CellSide}

/-- A side that is not yet known to be exterior is so in a group of its own. -/
theorem onBoundary_connectSide {group : List SideRef} {self : SideRef}
    (hside : side.onBoundary = false) :
    (connectSide group self side).onBoundary = true ↔ ∃ ref, group = [ref] := by
  unfold connectSide
  split
  · simp
  · simp [hside]
  · rename_i hone htwo
    simp only [hside, Bool.false_eq_true, false_iff, not_exists]
    exact fun ref h => hone ref h

/-- A side of the connected cells is exterior if no other side has the same nodes. -/
theorem onBoundary_of_connected (hopen : side.onBoundary = false) (hc : cells[i]? = some c)
    (hs : c.sides[s]? = some side) :
    (connectSide (sidesOn (sidesByNode (sideKeys cells)) (sortedSet (c.sideNodeIds side)))
      (i + 1, s) side).onBoundary = true ↔
    ∀ j d t other, cells[j]? = some d → d.sides[t]? = some other →
      sortedSet (d.sideNodeIds other) = sortedSet (c.sideNodeIds side) → (j, t) = (i, s) := by
  have hself : ((i + 1, s), sortedSet (c.sideNodeIds side)) ∈ sideKeys cells :=
    mem_sideKeys.mpr ⟨i, c, s, side, hc, hs, rfl, rfl⟩
  rw [onBoundary_connectSide hopen, sidesOn_sidesByNode hself]
  constructor
  · rintro ⟨ref, hgroup⟩ j d t other hd hother hkey
    have hmem (x : SideRef × List ℤ) (hx : x ∈ sideKeys cells)
        (hkey : x.2 = sortedSet (c.sideNodeIds side)) : x.1 = ref := by
      have hfound : x.1 ∈ ((sideKeys cells).filter
          fun t => t.2 == sortedSet (c.sideNodeIds side)).map Prod.fst :=
        List.mem_map_of_mem (List.mem_filter.mpr ⟨hx, beq_iff_eq.mpr hkey⟩)
      exact List.mem_singleton.mp (hgroup ▸ hfound)
    have hboth := (hmem _ (mem_sideKeys.mpr ⟨j, d, t, other, hd, hother, rfl, rfl⟩) hkey).trans
      (hmem _ hself rfl).symm
    obtain ⟨hj, ht⟩ := Prod.ext_iff.mp hboth
    exact Prod.ext (Nat.succ.inj hj) ht
  · intro hunique
    refine ⟨(i + 1, s), eq_singleton_of_nodup ?_ ?_ ?_⟩
    · exact (nodup_sideKeys cells).sublist (List.filter_sublist.map _)
    · have hfound : ((i + 1, s), sortedSet (c.sideNodeIds side)) ∈ (sideKeys cells).filter
          fun t => t.2 == sortedSet (c.sideNodeIds side) :=
        List.mem_filter.mpr ⟨hself, beq_self_eq_true _⟩
      exact List.mem_map_of_mem hfound
    · intro ref href
      obtain ⟨⟨ref, key⟩, hfound, rfl⟩ := List.mem_map.mp href
      obtain ⟨hkeys, hkey⟩ := List.mem_filter.mp hfound
      obtain ⟨j, d, t, other, hd, hother, rfl, rfl⟩ := mem_sideKeys.mp hkeys
      obtain ⟨rfl, rfl⟩ := Prod.ext_iff.mp (hunique j d t other hd hother (beq_iff_eq.mp hkey))
      rfl

end Connecting

section Outlines

/-- What a cell says about its sides, apart from their places and tags. -/
def outline (c : Cell α) : Element α × List (List ℕ × Bool × Option SideRef) :=
  (c.element, c.sides.map fun s => (s.nodes, s.onBoundary, s.neighbor))

variable {cells cells' : List (Cell α)}

theorem exists_side_of_outline (h : cells'.map outline = cells.map outline) {i s : ℕ}
    {c' : Cell α} {side' : CellSide} (hc : cells'[i]? = some c') (hs : c'.sides[s]? = some side') :
    ∃ c side, cells[i]? = some c ∧ c.sides[s]? = some side ∧ c'.element = c.element ∧
      c'.sideNodeIds side' = c.sideNodeIds side ∧ side'.onBoundary = side.onBoundary ∧
      side'.neighbor = side.neighbor := by
  have hmap := congrArg (fun l : List _ => l[i]?) h
  simp only [List.getElem?_map, hc, Option.map_some] at hmap
  obtain ⟨c, hcell, houtline⟩ := Option.map_eq_some_iff.mp hmap.symm
  obtain ⟨helement, hsides⟩ := Prod.ext_iff.mp houtline
  have hside := congrArg (fun l : List _ => l[s]?) hsides
  simp only [outline, List.getElem?_map, hs, Option.map_some] at hside
  obtain ⟨side, hfound, hpair⟩ := Option.map_eq_some_iff.mp hside
  obtain ⟨hnodes, hrest⟩ := Prod.ext_iff.mp hpair
  obtain ⟨hboundary, hneighbor⟩ := Prod.ext_iff.mp hrest
  refine ⟨c, side, hcell, hfound, helement.symm, ?_, hboundary.symm, hneighbor.symm⟩
  change c.element = c'.element at helement
  change side.nodes = side'.nodes at hnodes
  rw [Cell.sideNodeIds, Cell.sideNodeIds, helement, hnodes]

/-- The cells know which of their sides are exterior: those whose nodes are those of no other side. -/
def KnowSides (cells : List (Cell α)) : Prop :=
  ∀ (i : ℕ) (c : Cell α) (s : ℕ) (side : CellSide), cells[i]? = some c → c.sides[s]? = some side →
    (side.onBoundary = true ↔ ∀ (j : ℕ) (d : Cell α) (t : ℕ) (other : CellSide),
      cells[j]? = some d → d.sides[t]? = some other →
        sortedSet (d.sideNodeIds other) = sortedSet (c.sideNodeIds side) → (j, t) = (i, s))

theorem KnowSides.of_outline (hcells : KnowSides cells)
    (h : cells'.map outline = cells.map outline) : KnowSides cells' := by
  intro i c' s side' hc' hs'
  obtain ⟨c, side, hc, hs, -, hids, hboundary, -⟩ := exists_side_of_outline h hc' hs'
  rw [hboundary, hids, hcells i c s side hc hs]
  constructor
  · intro hunique j d' t other' hd' ht' hkey
    obtain ⟨d, other, hd, ht, -, hids', -⟩ := exists_side_of_outline h hd' ht'
    exact hunique j d t other hd ht (hids' ▸ hkey)
  · intro hunique j d t other hd ht hkey
    obtain ⟨d', other', hd', ht', -, hids', -⟩ := exists_side_of_outline h.symm hd ht
    exact hunique j d' t other' hd' ht' (hids' ▸ hkey)

theorem map_outline_of_untagged (h : cells'.map Cell.untagged = cells.map Cell.untagged) :
    cells'.map outline = cells.map outline := by
  have houtline (c : Cell α) : outline c = outline c.untagged := by
    simp only [outline, Cell.untagged, List.map_map]
    rfl
  rw [funext houtline, ← Function.comp_def outline, ← List.map_map, ← List.map_map, h]

/-- A side of the connected cells is what its group says about a side of the cells. -/
theorem exists_side_of_connectSides {i s : ℕ} {c' : Cell α} {side' : CellSide}
    (hc' : (connectSides cells)[i]? = some c') (hs' : c'.sides[s]? = some side') :
    ∃ c side, cells[i]? = some c ∧ c.sides[s]? = some side ∧
      c'.sideNodeIds side' = c.sideNodeIds side ∧ side' = connectSide
        (sidesOn (sidesByNode (sideKeys cells)) (sortedSet (c.sideNodeIds side))) (i + 1, s) side := by
  simp only [connectSides, List.getElem?_map, List.getElem?_zipIdx, Option.map_map] at hc'
  obtain ⟨c, hc, rfl⟩ := Option.map_eq_some_iff.mp hc'
  simp only [Function.comp_apply, List.getElem?_map, List.getElem?_zipIdx, Option.map_map,
    Nat.zero_add] at hs'
  obtain ⟨side, hs, rfl⟩ := Option.map_eq_some_iff.mp hs'
  refine ⟨c, side, hc, hs, ?_, rfl⟩
  simp only [Cell.sideNodeIds, Function.comp_apply, nodes_connectSide]

theorem knowSides_connectSides
    (hopen : ∀ c ∈ cells, ∀ side ∈ c.sides, side.onBoundary = false) :
    KnowSides (connectSides cells) := by
  intro i c' s side' hc' hs'
  obtain ⟨c, side, hc, hs, hids, rfl⟩ := exists_side_of_connectSides hc' hs'
  rw [hids, onBoundary_of_connected (hopen c (List.mem_of_getElem? hc) side (List.mem_of_getElem? hs))
    hc hs]
  constructor
  · intro hunique j d' t other' hd' ht' hkey
    obtain ⟨d, other, hd, ht, hids', -⟩ := exists_side_of_connectSides hd' ht'
    exact hunique j d t other hd ht (hids' ▸ hkey)
  · intro hunique j d t other hd ht hkey
    have hconnected : ((connectSides cells).map skeleton)[j]? = (cells.map skeleton)[j]? := by
      rw [map_skeleton_connectSides]
    simp only [List.getElem?_map, hd, Option.map_some] at hconnected
    obtain ⟨d', hd', hskeleton⟩ := Option.map_eq_some_iff.mp hconnected
    obtain ⟨helement, hnodes⟩ := Prod.ext_iff.mp hskeleton
    have hside := congrArg (fun l : List _ => l[t]?) hnodes
    simp only [skeleton, List.getElem?_map, ht, Option.map_some] at hside
    obtain ⟨other', ht', hnode⟩ := Option.map_eq_some_iff.mp hside
    refine hunique j d' t other' hd' ht' ?_
    change d'.element = d.element at helement
    rwa [Cell.sideNodeIds, helement, hnode, ← Cell.sideNodeIds]

end Outlines

section Meshes

variable [Scalar α] {m m' : Mesh α}

theorem map_outline_classifySides (coords : DenseMatrix α) (cells : List (Cell α)) :
    (classifySides coords cells).map outline = cells.map outline := by
  unfold classifySides
  split_ifs
  · rfl
  · rw [List.map_map]
    refine List.map_congr_left fun c _ => ?_
    simp only [Function.comp_apply, outline, List.map_map]
    congr 1
    refine List.map_congr_left fun s _ => ?_
    simp only [Function.comp_apply]
    split_ifs <;> rfl

/-- Only freezing changes the outlines of the cells: it connects the sides of the elements. -/
theorem Step.outline_cases (hs : Step m m') : m'.cells.map outline = m.cells.map outline ∨
    ∃ elements : List (Element α),
      m'.cells.map outline = (connectSides (elements.map Cell.ofElement)).map outline := by
  cases hs with
  | addNode coord hadd =>
    obtain ⟨-, -, rfl⟩ := addNode_eq_ok hadd
    exact .inl rfl
  | addElement family nodeIds hadd =>
    obtain ⟨-, -, rfl⟩ := addElement_eq_ok hadd
    exact .inl rfl
  | freeze =>
    obtain ⟨e, dim, n, coords, hfreeze⟩ | ⟨-, -, -, n, elements, -, -, hfreeze⟩ := m.freeze_cases
    · rw [hfreeze]
      exact .inl rfl
    · rw [hfreeze]
      exact .inr ⟨elements, map_outline_classifySides _ _⟩
  | addBoundary tag selectors essential =>
    unfold Mesh.addBoundary
    split_ifs
    · exact .inl rfl
    split
    · exact .inl rfl
    dsimp only
    split
    · exact .inl rfl
    · exact .inl (map_outline_of_untagged (map_untagged_tagCellSides _ _ _ _))
  | addSubdomain tag condition =>
    unfold Mesh.addSubdomain
    split_ifs
    · exact .inl rfl
    dsimp only
    split
    · exact .inl rfl
    · exact .inl (map_outline_of_untagged (map_untagged_tagCells _ _ _ _))

theorem KnowSides.step (hs : Step m m') (h : KnowSides m.cells) : KnowSides m'.cells := by
  rcases hs.outline_cases with houtline | ⟨elements, houtline⟩
  · exact h.of_outline houtline
  · refine (knowSides_connectSides fun c hc side hside => ?_).of_outline houtline
    obtain ⟨e, -, rfl⟩ := List.mem_map.mp hc
    obtain ⟨nodes, -, rfl⟩ := List.mem_map.mp hside
    rfl

/-- At all times the exterior sides of a mesh are those whose nodes are those of no other side. -/
theorem Reachable.knowSides (hm : m.Reachable) : KnowSides m.cells := by
  induction hm with
  | empty space => exact fun i c s side (hc : ([] : List (Cell α))[i]? = some c) => nomatch hc
  | step _ hs ih => exact ih.step hs

end Meshes

end Mesh
end WeakForm

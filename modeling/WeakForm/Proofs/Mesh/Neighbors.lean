import WeakForm.Mesh.Selection
import WeakForm.Proofs.RealScalar
import WeakForm.Proofs.Mesh.Sides

/-!
# Neighbours

The sides of a mesh fall into groups with the same nodes. A side that is alone in its group is exterior,
the two sides of a group of two are neighbours of each other, and a side of a larger group is neither.
-/

namespace WeakForm

/-- Without repetitions no member occurs twice. -/
theorem nodup_eraseDups {β : Type} [BEq β] [LawfulBEq β] (items : List β) : items.eraseDups.Nodup := by
  match items with
  | [] => simp
  | x :: items =>
    rw [List.eraseDups_cons, List.nodup_cons]
    refine ⟨fun hmem => ?_, nodup_eraseDups _⟩
    simpa using (List.mem_filter.mp (List.mem_eraseDups.mp hmem)).2
termination_by items.length
decreasing_by exact Nat.lt_succ_of_le (List.length_filter_le _ _)

theorem nodup_sortedSet (ids : List ℤ) : (sortedSet ids).Nodup :=
  (List.mergeSort_perm _ _).nodup_iff.mpr (nodup_eraseDups ids)

theorem pairwise_sortedSet (ids : List ℤ) : (sortedSet ids).Pairwise (· ≤ ·) := by
  have hpairwise : (sortedSet ids).Pairwise fun a b => decide (a ≤ b) = true := List.pairwise_mergeSort
    (fun a b c hab hbc => by simp only [decide_eq_true_eq] at *; exact hab.trans hbc)
    (fun a b => by simp [Int.le_total]) ids.eraseDups
  exact hpairwise.imp fun hab => of_decide_eq_true hab

/-- Sets of numbers are compared by their lists in increasing order. -/
theorem sortedSet_eq_iff {ids ids' : List ℤ} : sortedSet ids = sortedSet ids' ↔
    ids.toFinset = ids'.toFinset := by
  simp only [Finset.ext_iff, List.mem_toFinset]
  constructor
  · intro h k
    rw [← mem_sortedSet, h, mem_sortedSet]
  · intro h
    have hperm := (List.perm_ext_iff_of_nodup (nodup_sortedSet ids) (nodup_sortedSet ids')).mpr fun k => by
      rw [mem_sortedSet, mem_sortedSet, h]
    exact hperm.eq_of_pairwise' (pairwise_sortedSet ids) (pairwise_sortedSet ids')

namespace Mesh

variable {α : Type}

section Groups

variable {cells cells' : List (Cell α)} {i s : ℕ} {c : Cell α} {side : CellSide}
  {group : List SideRef} {self other : SideRef}

/-- The sides with the given nodes. -/
def sidesAlike (cells : List (Cell α)) (key : List ℤ) : List SideRef :=
  ((sideKeys cells).filter fun t => t.2 == key).map Prod.fst

theorem mem_sidesAlike {key : List ℤ} {ref : SideRef} :
    ref ∈ sidesAlike cells key ↔ (ref, key) ∈ sideKeys cells := by
  simp [sidesAlike]

theorem nodup_sidesAlike (cells : List (Cell α)) (key : List ℤ) : (sidesAlike cells key).Nodup :=
  (nodup_sideKeys cells).sublist (List.filter_sublist.map _)

/-- The members of a group of two are neighbours of each other, and those of other groups have no
neighbours. -/
theorem neighbor_connectSide (hopen : side.neighbor = none) (hself : self ∈ group)
    (hnodup : group.Nodup) : (connectSide group self side).neighbor = some other ↔
      group = [self, other] ∨ group = [other, self] := by
  unfold connectSide
  split
  · simp [hopen]
  · rename_i a b
    have hne : a ≠ b := by simpa using hnodup
    rw [Option.some.injEq]
    rcases List.mem_pair.mp hself with rfl | rfl
    · simp [hne.symm]
    · simp [hne]
  · rename_i htwo
    simp only [hopen, reduceCtorEq, false_iff, not_or]
    exact ⟨fun h => htwo _ _ h, fun h => htwo _ _ h⟩

/-- The cells know the neighbours of their sides: the other members of groups of two. -/
def KnowNeighbors (cells : List (Cell α)) : Prop :=
  ∀ (i : ℕ) (c : Cell α) (s : ℕ) (side : CellSide), cells[i]? = some c → c.sides[s]? = some side →
    ∀ other, side.neighbor = some other ↔
      sidesAlike cells (sortedSet (c.sideNodeIds side)) = [(i + 1, s), other] ∨
        sidesAlike cells (sortedSet (c.sideNodeIds side)) = [other, (i + 1, s)]

/-- The groups depend on the nodes of the sides alone. -/
theorem sideKeys_of_skeleton (h : cells'.map skeleton = cells.map skeleton) :
    sideKeys cells' = sideKeys cells := by
  have hkeys (cells : List (Cell α)) : sideKeys cells = (cells.map skeleton).zipIdx.flatMap fun c =>
      c.1.2.zipIdx.map fun s => ((c.2 + 1, s.2),
        sortedSet (s.1.map fun k => c.1.1.nodeIds.getD k 0)) := by
    simp only [sideKeys, List.zipIdx_map (f := skeleton), List.flatMap_map]
    refine List.flatMap_congr fun c _ => ?_
    simp only [Prod.map_fst, skeleton, List.zipIdx_map, List.map_map]
    rfl
  rw [hkeys, hkeys, h]

theorem map_skeleton_of_outline (h : cells'.map outline = cells.map outline) :
    cells'.map skeleton = cells.map skeleton := by
  have hskeleton (cells : List (Cell α)) : cells.map skeleton =
      (cells.map outline).map fun o => (o.1, o.2.map Prod.fst) := by
    simp [skeleton, outline, Function.comp_def]
  rw [hskeleton, hskeleton, h]

theorem KnowNeighbors.of_outline (hcells : KnowNeighbors cells)
    (h : cells'.map outline = cells.map outline) : KnowNeighbors cells' := by
  intro i c' s side' hc' hs' other
  obtain ⟨c, side, hc, hs, -, hids, -, hneighbor⟩ := exists_side_of_outline h hc' hs'
  have hkeys := sideKeys_of_skeleton (map_skeleton_of_outline h)
  rw [hneighbor, hids, hcells i c s side hc hs, sidesAlike, sidesAlike, hkeys]

theorem knowNeighbors_connectSides
    (hopen : ∀ c ∈ cells, ∀ side ∈ c.sides, side.neighbor = none) :
    KnowNeighbors (connectSides cells) := by
  intro i c' s side' hc' hs' other
  obtain ⟨c, side, hc, hs, hids, rfl⟩ := exists_side_of_connectSides hc' hs'
  have hself : ((i + 1, s), sortedSet (c.sideNodeIds side)) ∈ sideKeys cells :=
    mem_sideKeys.mpr ⟨i, c, s, side, hc, hs, rfl, rfl⟩
  have hkeys := sideKeys_of_skeleton (map_skeleton_connectSides cells)
  rw [hids, sidesOn_sidesByNode hself, sidesAlike, hkeys]
  exact neighbor_connectSide (hopen c (List.mem_of_getElem? hc) side (List.mem_of_getElem? hs))
    (mem_sidesAlike.mpr hself) (nodup_sidesAlike _ _)

variable [Scalar α] {m m' : Mesh α}

theorem KnowNeighbors.step (hs : Step m m') (h : KnowNeighbors m.cells) : KnowNeighbors m'.cells := by
  rcases hs.outline_cases with houtline | ⟨elements, houtline⟩
  · exact h.of_outline houtline
  · refine (knowNeighbors_connectSides fun c hc side hside => ?_).of_outline houtline
    obtain ⟨e, -, rfl⟩ := List.mem_map.mp hc
    obtain ⟨nodes, -, rfl⟩ := List.mem_map.mp hside
    rfl

/-- At all times the neighbours of the sides of a mesh are the other members of groups of two. -/
theorem Reachable.knowNeighbors (hm : m.Reachable) : KnowNeighbors m.cells := by
  induction hm with
  | empty space => exact fun i c s side (hc : ([] : List (Cell α))[i]? = some c) => nomatch hc
  | step _ hs ih => exact ih.step hs

end Groups

section Connectivity

variable {m : Mesh α} {ref other : SideRef} {side : CellSide}

/-- A side of a mesh. -/
def side? (m : Mesh α) : SideRef → Option CellSide
  | (0, _) => none
  | (i + 1, s) => m.cells[i]?.bind fun c => c.sides[s]?

/-- The neighbour of a side. -/
def neighbor? (m : Mesh α) (ref : SideRef) : Option SideRef := (m.side? ref).bind CellSide.neighbor

/-- The sides of a mesh whose nodes are those of the given one, which is one of them. -/
def alike (m : Mesh α) (ref : SideRef) : Finset SideRef :=
  ((sideKeys m.cells).map Prod.fst).toFinset.filter fun other =>
    (m.sideNodeIds other).toFinset = (m.sideNodeIds ref).toFinset

theorem side?_eq_some : m.side? ref = some side ↔ ∃ i c s, ref = (i + 1, s) ∧ m.cells[i]? = some c ∧
    c.sides[s]? = some side := by
  match ref with
  | (0, _) => simp [side?]
  | (i + 1, s) => simp [side?, Option.bind_eq_some_iff]

theorem sideNodeIds_eq {i s : ℕ} {c : Cell α} (hc : m.cells[i]? = some c)
    (hs : c.sides[s]? = some side) : m.sideNodeIds (i + 1, s) = c.sideNodeIds side := by
  simp [sideNodeIds, hc, hs]

/-- The sides that are alike are those of a group. -/
theorem alike_eq {i s : ℕ} {c : Cell α} (hc : m.cells[i]? = some c) (hs : c.sides[s]? = some side) :
    m.alike (i + 1, s) = (sidesAlike m.cells (sortedSet (c.sideNodeIds side))).toFinset := by
  ext ref
  simp only [alike, Finset.mem_filter, List.mem_toFinset, List.mem_map, Prod.exists, exists_and_right,
    exists_eq_right, mem_sidesAlike, mem_sideKeys, sideNodeIds_eq hc hs]
  constructor
  · rintro ⟨⟨key, j, d, t, other, hd, ht, rfl, rfl⟩, hnodes⟩
    rw [sideNodeIds_eq hd ht] at hnodes
    exact ⟨j, d, t, other, hd, ht, rfl, (sortedSet_eq_iff.mpr hnodes).symm⟩
  · rintro ⟨j, d, t, other, hd, ht, rfl, hkey⟩
    refine ⟨⟨_, j, d, t, other, hd, ht, rfl, rfl⟩, ?_⟩
    rw [sideNodeIds_eq hd ht]
    exact (sortedSet_eq_iff.mp hkey).symm

theorem card_alike {i s : ℕ} {c : Cell α} (hc : m.cells[i]? = some c) (hs : c.sides[s]? = some side) :
    (m.alike (i + 1, s)).card = (sidesAlike m.cells (sortedSet (c.sideNodeIds side))).length := by
  rw [alike_eq hc hs, List.toFinset_card_of_nodup (nodup_sidesAlike _ _)]

/-- A side is exterior exactly if no other side of the mesh has the same nodes, and has a neighbour
exactly if there is one other; the neighbour is that other side, whose own neighbour is this one. -/
theorem sides_connected [Scalar α] (hm : m.Reachable) (h : m.side? ref = some side) :
    (side.onBoundary = true ↔ (m.alike ref).card = 1) ∧
    (side.neighbor.isSome = true ↔ (m.alike ref).card = 2) ∧
    (∀ other, side.neighbor = some other →
      other ≠ ref ∧ m.alike ref = {ref, other} ∧ m.neighbor? other = some ref) ∧
    ¬ (side.onBoundary = true ∧ side.neighbor.isSome = true) := by
  obtain ⟨i, c, s, rfl, hc, hs⟩ := side?_eq_some.mp h
  have hneighbor := hm.knowNeighbors i c s side hc hs
  have hself : (i + 1, s) ∈ sidesAlike m.cells (sortedSet (c.sideNodeIds side)) :=
    mem_sidesAlike.mpr (mem_sideKeys.mpr ⟨i, c, s, side, hc, hs, rfl, rfl⟩)
  have hnodup := nodup_sidesAlike m.cells (sortedSet (c.sideNodeIds side))
  have hexterior : side.onBoundary = true ↔ (m.alike (i + 1, s)).card = 1 := by
    rw [hm.knowSides i c s side hc hs, card_alike hc hs, List.length_eq_one_iff]
    constructor
    · refine fun hunique => ⟨_, eq_singleton_of_nodup hnodup hself fun y hy => ?_⟩
      obtain ⟨j, d, t, other, hd, ht, rfl, hkey⟩ := mem_sideKeys.mp (mem_sidesAlike.mp hy)
      obtain ⟨rfl, rfl⟩ := Prod.ext_iff.mp (hunique j d t other hd ht hkey.symm)
      rfl
    · rintro ⟨a, hgroup⟩ j d t other hd ht hkey
      have hother : (j + 1, t) ∈ sidesAlike m.cells (sortedSet (c.sideNodeIds side)) :=
        mem_sidesAlike.mpr (mem_sideKeys.mpr ⟨j, d, t, other, hd, ht, rfl, hkey.symm⟩)
      rw [hgroup, List.mem_singleton] at hself hother
      simpa using hother.trans hself.symm
  have hshared : side.neighbor.isSome = true ↔ (m.alike (i + 1, s)).card = 2 := by
    rw [card_alike hc hs, List.length_eq_two, Option.isSome_iff_exists]
    constructor
    · rintro ⟨other, hother⟩
      rcases (hneighbor other).mp hother with hgroup | hgroup
      · exact ⟨_, _, hgroup⟩
      · exact ⟨_, _, hgroup⟩
    · rintro ⟨a, b, hgroup⟩
      rw [hgroup] at hself
      rcases List.mem_pair.mp hself with rfl | rfl
      · exact ⟨b, (hneighbor b).mpr (.inl hgroup)⟩
      · exact ⟨a, (hneighbor a).mpr (.inr hgroup)⟩
  refine ⟨hexterior, hshared, fun other hother => ?_, fun hboth => ?_⟩
  · have hgroup := (hneighbor other).mp hother
    have hmem : other ∈ sidesAlike m.cells (sortedSet (c.sideNodeIds side)) := by
      rcases hgroup with hgroup | hgroup <;> simp [hgroup]
    obtain ⟨j, d, t, side', hd, ht, rfl, hkey⟩ := mem_sideKeys.mp (mem_sidesAlike.mp hmem)
    refine ⟨?_, ?_, ?_⟩
    · rintro heq
      rcases hgroup with hgroup | hgroup <;> simp [hgroup, heq] at hnodup
    · rw [alike_eq hc hs]
      rcases hgroup with hgroup | hgroup <;> simp [hgroup, Finset.pair_comm]
    · have hback := hm.knowNeighbors j d t side' hd ht (i + 1, s)
      rw [← hkey] at hback
      rw [neighbor?, side?_eq_some.mpr ⟨j, d, t, rfl, hd, ht⟩, Option.bind_some, hback]
      exact hgroup.symm
  · have hone := hexterior.mp hboth.1
    rw [hshared.mp hboth.2] at hone
    omega

/-- Two segments with a node in common, and one whose ends are the same node. -/
noncomputable def loopedLine : Mesh ℝ :=
  (Mesh.ofLists (.integer 1) [[0], [1], [2], [3]]
    [(.line2, [1, 2]), (.line2, [2, 3]), (.line2, [4, 4])]).freeze.2

theorem reachable_loopedLine : loopedLine.Reachable :=
  .step (reachable_ofLists _ (by simp) (by simp [Family.nodeCount])) (.freeze _)

theorem exists_neighbor {ref other : SideRef} (h : m.neighbor? ref = some other) :
    ∃ side, m.side? ref = some side ∧ side.neighbor = some other := Option.bind_eq_some_iff.mp h

theorem sides_of_loopedLine_connected :
    loopedLine.alike (1, 1) = {(1, 1), (2, 0)} ∧ loopedLine.neighbor? (2, 0) = some (1, 1) ∧
      loopedLine.alike (3, 0) = {(3, 0), (3, 1)} ∧ loopedLine.neighbor? (3, 1) = some (3, 0) := by
  have hnext : loopedLine.neighbor? (1, 1) = some (2, 0) := by decide +kernel
  have hloop : loopedLine.neighbor? (3, 0) = some (3, 1) := by decide +kernel
  obtain ⟨side, hside, hneighbor⟩ := exists_neighbor hnext
  obtain ⟨-, -, hall, -⟩ := sides_connected reachable_loopedLine hside
  obtain ⟨side', hside', hneighbor'⟩ := exists_neighbor hloop
  obtain ⟨-, -, hall', -⟩ := sides_connected reachable_loopedLine hside'
  exact ⟨(hall _ hneighbor).2.1, (hall _ hneighbor).2.2, (hall' _ hneighbor').2.1,
    (hall' _ hneighbor').2.2⟩

end Connectivity

end Mesh
end WeakForm

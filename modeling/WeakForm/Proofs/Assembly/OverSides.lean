import WeakForm.Proofs.Assembly.OverCells
import WeakForm.Proofs.Assembly.Scatter

/-!
# Assembly over tagged sides

Over a tagged boundary the global matrix and vector are the sums of what the tagged sides have at
each place, each side being an element with degrees of freedom of its own. Grouping the sides by
their cells only rearranges the sum.
-/

namespace WeakForm

/-- The groups of items with the same key hold all items. -/
theorem perm_flatMap_filter {β κ : Type} [BEq κ] [LawfulBEq κ] (key : β → κ) (items : List β) :
    ((items.map key).eraseDups.flatMap fun k => items.filter fun x => key x == k).Perm items := by
  match items with
  | [] => simp
  | x :: items =>
    let others := items.filter fun y => !(key y == key x)
    have hkeys : (items.map key).filter (fun k => !(k == key x)) = others.map key := by
      rw [List.filter_map]
      rfl
    have hothers : (x :: items).filter (fun y => !(key y == key x)) = others := by
      simp [others]
    have hgroup : ∀ k ∈ (others.map key).eraseDups,
        ((x :: items).filter fun y => key y == k) = others.filter fun y => key y == k := by
      intro k hk
      obtain ⟨y, hy, rfl⟩ := List.mem_map.mp (List.mem_eraseDups.mp hk)
      have hne : key y ≠ key x := by simpa using (List.mem_filter.mp hy).2
      rw [← hothers, List.filter_filter]
      apply List.filter_congr
      intro z _
      by_cases hz : key z = key y
      · simp [hz, hne]
      · simp [hz]
    rw [List.map_cons, List.eraseDups_cons, List.flatMap_cons, hkeys, List.flatMap_congr hgroup]
    refine ((perm_flatMap_filter key others).append_left _).trans ?_
    rw [← hothers]
    exact List.filter_append_perm _ _
termination_by items.length
decreasing_by exact Nat.lt_succ_of_le (List.length_filter_le _ _)

namespace Mesh

variable {α : Type} [Scalar α]

/-- A side of the mesh as an element. -/
def sideElement (m : Mesh α) (side : ℕ × ℕ) : Except (Error α) (Element α) := do
  let c ← m.cell side.1
  c.element.buildSide side.2

end Mesh

namespace Assembly

theorem groupSides_perm (sides : List (ℕ × ℕ)) :
    ((groupSides sides).flatMap fun g => g.2.map fun s => (g.1, s)).Perm sides := by
  have hgroup (id : ℕ) : ((sides.filter fun s => s.1 == id).map Prod.snd).map (fun s => (id, s)) =
      sides.filter fun s => s.1 == id := by
    rw [List.map_map]
    conv_rhs => rw [← List.map_id (sides.filter _)]
    apply List.map_congr_left
    intro s hs
    have hs' : s.1 = id := by simpa using (List.mem_filter.mp hs).2
    exact Prod.ext hs'.symm rfl
  rw [groupSides, List.flatMap_map]
  simp only [hgroup]
  exact perm_flatMap_filter Prod.fst sides

section Groups

variable {m : Mesh ℝ} {β : Type} {sides : List (ℕ × ℕ)} {groups : List (Element ℝ × List ℕ)}

/-- The groups of a list of sides with their elements. -/
def elementGroups (m : Mesh ℝ) (sides : List (ℕ × ℕ)) :
    Except (Error ℝ) (List (Element ℝ × List ℕ)) :=
  (groupSides sides).mapM fun g => (m.cell g.1).map fun c => (c.element, g.2)

theorem mem_cells_of_cell {id : ℤ} {c : Cell ℝ} (h : m.cell id = .ok c) : c ∈ m.cells := by
  unfold Mesh.cell at h
  split at h
  · rename_i found hfound
    cases h
    obtain ⟨k, -, hk⟩ := Option.bind_eq_some_iff.mp hfound
    exact List.mem_of_getElem? hk
  · cases h

theorem mem_of_elementGroups (h : elementGroups m sides = .ok groups)
    {g : Element ℝ × List ℕ} (hg : g ∈ groups) : g.1 ∈ m.cells.map Cell.element := by
  obtain ⟨x, -, hx⟩ := exists_of_mem_mapM h hg
  obtain ⟨c, hc, rfl⟩ := map_eq_ok.mp hx
  exact List.mem_map_of_mem (mem_cells_of_cell hc)

/-- Cells are counted from one. -/
theorem cell_eq_ok {i : ℕ} {c : Cell ℝ} (h : m.cells[i]? = some c) :
    m.cell ((i + 1 : ℕ) : ℤ) = .ok c := by
  have hi := (List.getElem?_eq_some_iff.mp h).1
  have hindex : ((i + 1 : ℕ) : ℤ) - 1 = (i : ℕ) := by push_cast; ring
  rw [Mesh.cell, hindex, position?_natCast hi, Option.bind_some, h]

/-- Every side is in the group of its element. -/
theorem exists_group (h : elementGroups m sides = .ok groups) {x : ℕ × ℕ} (hx : x ∈ sides) :
    ∃ c g, m.cell x.1 = .ok c ∧ g ∈ groups ∧ g.1 = c.element ∧ x.2 ∈ g.2 := by
  obtain ⟨g, hg, hxg⟩ := List.mem_flatMap.mp ((groupSides_perm sides).mem_iff.mpr hx)
  obtain ⟨s, hs, rfl⟩ := List.mem_map.mp hxg
  obtain ⟨g', hg', hok⟩ := exists_of_mapM_eq_ok h hg
  obtain ⟨c, hc, rfl⟩ := map_eq_ok.mp hok
  exact ⟨c, _, hc, hg', rfl, hs⟩

theorem exists_side_of_group (h : elementGroups m sides = .ok groups)
    {g : Element ℝ × List ℕ} (hg : g ∈ groups) {s : ℕ} (hs : s ∈ g.2) :
    ∃ id c, (id, s) ∈ sides ∧ m.cell id = .ok c ∧ c.element = g.1 := by
  obtain ⟨x, hx, hok⟩ := exists_of_mem_mapM h hg
  obtain ⟨c, hc, rfl⟩ := map_eq_ok.mp hok
  have hmem : (x.1, s) ∈ (groupSides sides).flatMap fun g => g.2.map fun s => (g.1, s) :=
    List.mem_flatMap.mpr ⟨x, hx, List.mem_map_of_mem hs⟩
  exact ⟨x.1, c, (groupSides_perm sides).subset hmem, hc, rfl⟩

/-- Sides of existing cells can be grouped. -/
theorem exists_groups (h : ∀ x ∈ sides, ∃ c, m.cell x.1 = .ok c) :
    ∃ groups, elementGroups m sides = .ok groups := by
  apply exists_mapM_eq_ok
  intro g hg
  obtain ⟨id, hid, rfl⟩ := List.mem_map.mp hg
  obtain ⟨x, hx, rfl⟩ := List.mem_map.mp (List.mem_eraseDups.mp hid)
  obtain ⟨c, hc⟩ := h x hx
  exact ⟨_, map_eq_ok.mpr ⟨c, hc, rfl⟩⟩

theorem sideElement_eq_ok {x : ℕ × ℕ} {side : Element ℝ} (h : m.sideElement x = .ok side) :
    ∃ c, m.cell x.1 = .ok c ∧ c.element.buildSide x.2 = .ok side := bind_eq_ok.mp h

/-- What the blocks of all groups have is what all sides have. -/
theorem sum_over_groups {entries : Element ℝ → List ℕ → Except (Error ℝ) β}
    {blocks : List (Block β)} {es : List (Element ℝ)} (hes : sides.mapM m.sideElement = .ok es)
    (hgroups : elementGroups m sides = .ok groups)
    (hblocks : groups.mapM (fun g => blockOf (entries · g.2) g.1) = .ok blocks)
    (F : Block β → ℝ) (share : Element ℝ → ℝ)
    (hF : ∀ e ∈ m.cells.map Cell.element, ∀ ss b, blockOf (entries · ss) e = .ok b →
      F b = (ss.map (sideShare share e)).sum) :
    (blocks.map F).sum = (es.map share).sum := by
  let sideOf (x : ℕ × ℕ) : ℝ :=
    (m.cell x.1).toOption.elim 0 fun c => sideShare share c.element x.2
  have hside {id : ℕ} {c : Cell ℝ} (hc : m.cell id = .ok c) (s : ℕ) :
      sideOf (id, s) = sideShare share c.element s := by
    simp only [sideOf, hc]
    rfl
  have hb : blocks.map F = groups.map fun g => (g.2.map (sideShare share g.1)).sum :=
    map_eq_of_mapM_eq_ok hblocks fun g hg b h =>
      hF g.1 (mem_of_elementGroups hgroups hg) g.2 b h
  have hg : (groups.map fun g => (g.2.map (sideShare share g.1)).sum) =
      (groupSides sides).map fun g => ((g.2.map fun s => (g.1, s)).map sideOf).sum := by
    apply map_eq_of_mapM_eq_ok hgroups
    intro g _ y hy
    obtain ⟨c, hc, rfl⟩ := map_eq_ok.mp hy
    rw [List.map_map]
    congr 1
    apply List.map_congr_left
    intro s _
    exact (hside hc s).symm
  have he : es.map share = sides.map sideOf := by
    apply map_eq_of_mapM_eq_ok hes
    intro x _ e hx
    obtain ⟨c, hc, hbuild⟩ := sideElement_eq_ok hx
    exact ((hside hc x.2).trans (sideShare_eq hbuild)).symm
  have hperm := ((groupSides_perm sides).map sideOf).sum_eq
  rw [List.map_flatMap, List.flatMap_def, List.sum_flatten, List.map_map] at hperm
  rw [hb, hg, he]
  exact hperm

end Groups

section Tagged

variable {m : Mesh ℝ} {k : Kernel ℝ} {tag : TagId}

/-- The sides with a tag, each once, as elements. -/
def IsTagged (m : Mesh ℝ) (tag : TagId) (sides : List (Element ℝ)) : Prop :=
  ∃ r, m.boundary tag = .ok r ∧ r.sides.Nodup ∧ r.sides.mapM m.sideElement = .ok sides

theorem lookup_of_boundary {r : Region} (h : m.boundary tag = .ok r) :
    m.regions.lookup tag.key = some r ∧ r.kind = .boundary := by
  unfold Mesh.boundary at h
  split at h
  · cases h
  · split at h
    · rename_i found hfound
      cases h
      obtain ⟨hlookup, hkind⟩ := Option.filter_eq_some_iff.mp hfound
      exact ⟨hlookup, by simpa using hkind⟩
    · cases h

theorem sidesIn_boundary (hm : m.Reachable) {r : Region} (h : m.boundary tag = .ok r) :
    r.SidesIn m.cells :=
  hm.wellFormed.regions _ (mem_of_lookup_eq_some (lookup_of_boundary h).1)

theorem nodup_boundary (hm : m.Reachable) {r : Region} (h : m.boundary tag = .ok r) :
    r.sides.Nodup := (sidesIn_boundary hm h).nodup

/-- The indices of a side are among those of its element. -/
theorem mem_getDof_side {e side : Element ℝ} {s : ℤ} (h : e.buildSide s = .ok side) {d : ℤ}
    (hd : d ∈ side.getDof) : d ∈ e.getDof := by
  obtain ⟨nodes, -, hnodes, hgetDof⟩ := Element.getDof_side h
  rw [hgetDof] at hd
  obtain ⟨p, hp, rfl⟩ := List.mem_map.mp hd
  have hlt : p < e.getDof.length := by
    rw [Element.length_getDof]
    exact Element.lt_of_mem_places (Family.lt_of_mem_sides hnodes).2 hp
  rw [List.getD_eq_getElem _ _ hlt]
  exact List.getElem_mem hlt

theorem in_range_sides (hm : InRange m) {sides : List (Element ℝ)} {xs : List (ℕ × ℕ)}
    (h : xs.mapM m.sideElement = .ok sides) :
    ∀ e ∈ sides, ∀ d ∈ e.getDof, 0 ≤ d ∧ d < m.dofs := by
  intro e he d hd
  obtain ⟨x, -, hx⟩ := exists_of_mem_mapM h he
  obtain ⟨c, hc, hside⟩ := sideElement_eq_ok hx
  exact hm _ (List.mem_map_of_mem (mem_cells_of_cell hc)) d (mem_getDof_side hside hd)

theorem boundaryBlocks_eq_ok {β : Type} {entries : Element ℝ → List ℕ → Except (Error ℝ) β}
    {blocks : List (Block β)} :
    (boundaryGroups m tag >>= fun groups =>
      groups.mapM fun g => blockOf (entries · g.2) g.1) = .ok blocks ↔
      ∃ r groups, m.boundary tag = .ok r ∧ elementGroups m r.sides = .ok groups ∧
        groups.mapM (fun g => blockOf (entries · g.2) g.1) = .ok blocks := by
  simp only [boundaryGroups, bind_eq_ok]
  constructor
  · rintro ⟨groups, ⟨r, hr, hgroups⟩, hblocks⟩
    exact ⟨r, groups, hr, hgroups, hblocks⟩
  · rintro ⟨r, groups, hr, hgroups, hblocks⟩
    exact ⟨groups, ⟨r, hr, hgroups⟩, hblocks⟩

theorem matrixBlocks_some {blocks : List (Block (DenseMatrix ℝ))} :
    matrixBlocks m k (some tag) = .ok blocks ↔ ∃ r groups, m.boundary tag = .ok r ∧
      elementGroups m r.sides = .ok groups ∧
        groups.mapM (fun g => blockOf (sideMatrix k · g.2) g.1) = .ok blocks :=
  boundaryBlocks_eq_ok

theorem vectorBlocks_some {blocks : List (Block (Array ℝ))} :
    vectorBlocks m k (some tag) = .ok blocks ↔ ∃ r groups, m.boundary tag = .ok r ∧
      elementGroups m r.sides = .ok groups ∧
        groups.mapM (fun g => blockOf (sideVector k · g.2) g.1) = .ok blocks :=
  boundaryBlocks_eq_ok

section Sums

variable {r : Region} {groups : List (Element ℝ × List ℕ)}

/-- When the sides of all groups have local values, all tagged sides exist and have them. -/
theorem exists_sides {β : Type} (entries : Element ℝ → Except (Error ℝ) β)
    (whole : Element ℝ → List ℕ → Except (Error ℝ) β)
    (hwhole : ∀ e ss K, whole e ss = .ok K →
      ∃ parts, ss.mapM (sidePart entries e) = .ok parts)
    (hgroups : elementGroups m r.sides = .ok groups) {blocks : List (Block β)}
    (hblocks : groups.mapM (fun g => blockOf (whole · g.2) g.1) = .ok blocks) :
    ∃ sides, r.sides.mapM m.sideElement = .ok sides ∧ ∀ e ∈ sides, ∃ K, entries e = .ok K := by
  have hside : ∀ x ∈ r.sides, ∃ side, m.sideElement x = .ok side ∧ ∃ K, entries side = .ok K := by
    intro x hx
    obtain ⟨c, g, hc, hg, hgc, hs⟩ := exists_group hgroups hx
    obtain ⟨b, -, hb⟩ := exists_of_mapM_eq_ok hblocks hg
    obtain ⟨K, hK, -⟩ := blockOf_eq_ok.mp hb
    obtain ⟨parts, hparts⟩ := hwhole _ _ K hK
    obtain ⟨part, -, hpart⟩ := exists_of_mapM_eq_ok hparts hs
    obtain ⟨side, -, hside, -, -, -, -, hentries⟩ := sidePart_eq_ok hpart
    refine ⟨side, ?_, part.entries, hentries⟩
    rw [Mesh.sideElement, hc, ok_bind, ← hgc, hside]
  obtain ⟨sides, hsides⟩ := exists_mapM_eq_ok fun x hx => (hside x hx).imp fun _ h => h.1
  refine ⟨sides, hsides, ?_⟩
  intro e he
  obtain ⟨x, hx, hxe⟩ := exists_of_mem_mapM hsides he
  obtain ⟨side, hside, hK⟩ := hside x hx
  rw [hxe] at hside
  exact Except.ok.inj hside ▸ hK

theorem isMatrixOver_sides (hm : InRange m) {blocks : List (Block (DenseMatrix ℝ))}
    (hr : m.boundary tag = .ok r) (hnodup : r.sides.Nodup)
    (hgroups : elementGroups m r.sides = .ok groups)
    (hblocks : groups.mapM (fun g => blockOf (sideMatrix k · g.2) g.1) = .ok blocks) :
    ∃ sides, IsTagged m tag sides ∧ k.IsMatrixOver sides m.dofs (triplet m.dofs blocks) := by
  obtain ⟨sides, hsides, hex⟩ := exists_sides k.localMatrix (sideMatrix k)
    (fun _ _ _ h => (sideMatrix_eq_ok h).imp fun _ hp => hp.1) hgroups hblocks
  refine ⟨sides, ⟨r, hr, hnodup, hsides⟩, by simp [triplet], by simp [triplet],
    in_range_sides hm hsides, fun e he => ?_, fun i j hi hj => ?_⟩
  · obtain ⟨K, hK⟩ := hex e he
    exact ⟨K, hK, Kernel.localMatrix_size hK⟩
  · rw [entry_triplet (fun b hb => ?_) hi]
    · refine sum_over_groups hsides hgroups hblocks (fun b => b.spread i j)
        (k.matrixShare · i j) ?_
      intro e he ss b hb
      obtain ⟨K, hK, rfl⟩ := blockOf_eq_ok.mp hb
      exact spread_sideMatrix (fun d hd => (hm e he d hd).1) hK i j
    · obtain ⟨g, -, hg⟩ := exists_of_mem_mapM hblocks hb
      obtain ⟨K, hK, rfl⟩ := blockOf_eq_ok.mp hg
      obtain ⟨-, -, hrows, hcols, -⟩ := sideMatrix_eq_ok hK
      exact ⟨by simp [hrows], by simp [hcols]⟩

theorem isVectorOver_sides (hm : InRange m) {blocks : List (Block (Array ℝ))}
    (hr : m.boundary tag = .ok r) (hnodup : r.sides.Nodup)
    (hgroups : elementGroups m r.sides = .ok groups)
    (hblocks : groups.mapM (fun g => blockOf (sideVector k · g.2) g.1) = .ok blocks) :
    ∃ sides, IsTagged m tag sides ∧ k.IsVectorOver sides m.dofs
      (blocks.foldl scatter (Array.replicate m.dofs 0)) := by
  obtain ⟨sides, hsides, hex⟩ := exists_sides k.localVector (sideVector k)
    (fun _ _ _ h => (sideVector_eq_ok h).imp fun _ hp => hp.1) hgroups hblocks
  refine ⟨sides, ⟨r, hr, hnodup, hsides⟩, by simp [size_foldl_scatter],
    in_range_sides hm hsides, fun e he => ?_, fun i hi => ?_⟩
  · obtain ⟨f, hf⟩ := hex e he
    exact ⟨f, hf, Kernel.localVector_size hf⟩
  · have hzero : (Array.replicate m.dofs (0 : ℝ)).getD i 0 = 0 := by simp [hi]
    rw [getD_foldl_scatter _ _ (by simpa using hi), hzero, zero_add]
    refine sum_over_groups hsides hgroups hblocks (fun b => b.spreadAt i)
      (k.vectorShare · i) ?_
    intro e he ss b hb
    obtain ⟨f, hf, rfl⟩ := blockOf_eq_ok.mp hb
    exact spreadAt_sideVector (fun d hd => (hm e he d hd).1) hf i

/-- A matrix over a tagged boundary is the sum of the matrices of the tagged sides. -/
theorem isMatrixOver_tagged (hm : m.Reachable) (hf : m.frozen = true) {A : SparseMatrix ℝ}
    (hA : matrix m k (some tag) .triplet = .ok A) :
    ∃ sides, IsTagged m tag sides ∧ k.IsMatrixOver sides m.dofs A := by
  rw [matrix_triplet] at hA
  obtain ⟨blocks, hblocks, rfl⟩ := map_eq_ok.mp hA
  obtain ⟨r, groups, hr, hgroups, hblocks⟩ := matrixBlocks_some.mp hblocks
  exact isMatrixOver_sides (inRange hm hf) hr (nodup_boundary hm hr) hgroups hblocks

/-- A vector over a tagged boundary is the sum of the vectors of the tagged sides. -/
theorem isVectorOver_tagged (hm : m.Reachable) (hf : m.frozen = true) {v : Array ℝ}
    (hv : vector m k (some tag) = .ok v) :
    ∃ sides, IsTagged m tag sides ∧ k.IsVectorOver sides m.dofs v := by
  rw [vector_eq] at hv
  obtain ⟨blocks, hblocks, rfl⟩ := map_eq_ok.mp hv
  obtain ⟨r, groups, hr, hgroups, hblocks⟩ := vectorBlocks_some.mp hblocks
  exact isVectorOver_sides (inRange hm hf) hr (nodup_boundary hm hr) hgroups hblocks

end Sums

/-- The blocks of all groups exist if all tagged sides have local values. -/
theorem exists_blocks_sides {β : Type} {entries : Element ℝ → Except (Error ℝ) β}
    (whole : Element ℝ → List ℕ → Except (Error ℝ) β)
    (hwhole : ∀ e ss, (∀ s ∈ ss, ∃ b, sidePart entries e s = .ok b) → ∃ K, whole e ss = .ok K)
    {r : Region} {sides : List (Element ℝ)} (hsides : r.sides.mapM m.sideElement = .ok sides)
    (h : ∀ e ∈ sides, ∃ K, entries e = .ok K) :
    ∃ groups blocks, elementGroups m r.sides = .ok groups ∧
      groups.mapM (fun g => blockOf (whole · g.2) g.1) = .ok blocks := by
  have hside : ∀ x ∈ r.sides, ∃ side, side ∈ sides ∧ m.sideElement x = .ok side := fun x hx =>
    exists_of_mapM_eq_ok hsides hx
  obtain ⟨groups, hgroups⟩ := exists_groups (m := m) fun x hx => by
    obtain ⟨side, -, hx⟩ := hside x hx
    exact (sideElement_eq_ok hx).imp fun _ hc => hc.1
  obtain ⟨blocks, hblocks⟩ : ∃ blocks,
      groups.mapM (fun g => blockOf (whole · g.2) g.1) = .ok blocks := by
    refine exists_mapM_eq_ok fun g hg => ?_
    obtain ⟨K, hK⟩ := hwhole g.1 g.2 fun s hs => by
      obtain ⟨id, c, hmem, hc, hce⟩ := exists_side_of_group hgroups hg hs
      obtain ⟨side, hin, hx⟩ := hside _ hmem
      obtain ⟨d, hd, hbuild⟩ := sideElement_eq_ok hx
      obtain rfl := Except.ok.inj (hc.symm.trans hd)
      obtain ⟨K, hK⟩ := h side hin
      exact exists_sidePart (hce ▸ hbuild) hK
    exact ⟨_, blockOf_eq_ok.mpr ⟨K, hK, rfl⟩⟩
  exact ⟨groups, blocks, hgroups, hblocks⟩

/-- The matrix exists if all tagged sides have one. -/
theorem exists_matrix_sides {r : Region} (hr : m.boundary tag = .ok r) {sides : List (Element ℝ)}
    (hsides : r.sides.mapM m.sideElement = .ok sides)
    (h : ∀ e ∈ sides, ∃ K, k.localMatrix e = .ok K) :
    ∃ A, matrix m k (some tag) .triplet = .ok A := by
  obtain ⟨groups, blocks, hgroups, hblocks⟩ :=
    exists_blocks_sides (sideMatrix k) (fun _ _ => exists_sideMatrix) hsides h
  rw [matrix_triplet, matrixBlocks_some.mpr ⟨r, groups, hr, hgroups, hblocks⟩]
  exact ⟨_, rfl⟩

/-- The vector exists if all tagged sides have one. -/
theorem exists_vector_sides {r : Region} (hr : m.boundary tag = .ok r) {sides : List (Element ℝ)}
    (hsides : r.sides.mapM m.sideElement = .ok sides)
    (h : ∀ e ∈ sides, ∃ f, k.localVector e = .ok f) : ∃ v, vector m k (some tag) = .ok v := by
  obtain ⟨groups, blocks, hgroups, hblocks⟩ :=
    exists_blocks_sides (sideVector k) (fun _ _ => exists_sideVector) hsides h
  rw [vector_eq, vectorBlocks_some.mpr ⟨r, groups, hr, hgroups, hblocks⟩]
  exact ⟨_, rfl⟩

/-- Direct assembly of blocks of cells with distinct nodes overwrites nothing. -/
theorem direct_eq_triplet_sides (hm : InRange m)
    (hdistinct : ∀ c ∈ m.cells, c.element.nodeIds.Nodup) {r : Region}
    {groups : List (Element ℝ × List ℕ)} {blocks : List (Block (DenseMatrix ℝ))}
    (hgroups : elementGroups m r.sides = .ok groups)
    (hblocks : groups.mapM (fun g => blockOf (sideMatrix k · g.2) g.1) = .ok blocks) :
    (direct m.dofs blocks).toDense = (triplet m.dofs blocks).toDense := by
  have hblock : ∀ b ∈ blocks, ∃ g ∈ groups, ∃ K, sideMatrix k g.1 g.2 = .ok K ∧
      b = ⟨globalDofs g.1, K⟩ := by
    intro b hb
    obtain ⟨g, hg, hgb⟩ := exists_of_mem_mapM hblocks hb
    exact ⟨g, hg, blockOf_eq_ok.mp hgb⟩
  rw [direct_eq_triplet_iff]
  · intro i j _ _
    apply List.sum_eq_zero
    intro x hx
    obtain ⟨b, hb, rfl⟩ := List.mem_map.mp hx
    obtain ⟨g, hg, K, -, rfl⟩ := hblock b hb
    have he := mem_of_elementGroups hgroups hg
    obtain ⟨c, hc, hce⟩ := List.mem_map.mp he
    exact Block.overwritten_eq_zero _
      (nodup_globalDofs (fun d hd => (hm _ he d hd).1) (hce ▸ hdistinct c hc)) i j
  · intro b hb
    obtain ⟨g, -, K, hK, rfl⟩ := hblock b hb
    obtain ⟨-, -, hrows, hcols, -⟩ := sideMatrix_eq_ok hK
    exact ⟨by simp [hrows], by simp [hcols]⟩

/-- Over a tagged boundary every entry of the global matrix and of the global vector is the sum of
the local entries of the tagged sides that belong there, each side being counted once. -/
theorem assembly_over_sides (hm : m.Reachable) (hf : m.frozen = true) (k : Kernel ℝ)
    (tag : TagId) :
    (∀ A, matrix m k (some tag) .triplet = .ok A →
      ∃ sides, IsTagged m tag sides ∧ k.IsMatrixOver sides m.dofs A) ∧
    ((∀ c ∈ m.cells, c.element.nodeIds.Nodup) → ∀ A, matrix m k (some tag) .direct = .ok A →
      ∃ sides, IsTagged m tag sides ∧ k.IsMatrixOver sides m.dofs A) ∧
    (∀ v, vector m k (some tag) = .ok v →
      ∃ sides, IsTagged m tag sides ∧ k.IsVectorOver sides m.dofs v) := by
  have hrange := inRange hm hf
  refine ⟨fun A hA => isMatrixOver_tagged hm hf hA, ?_, fun v hv => isVectorOver_tagged hm hf hv⟩
  intro hdistinct A hA
  rw [matrix_direct] at hA
  obtain ⟨blocks, hblocks, rfl⟩ := map_eq_ok.mp hA
  obtain ⟨r, groups, hr, hgroups, hblocks⟩ := matrixBlocks_some.mp hblocks
  obtain ⟨sides, hsides, hover⟩ :=
    isMatrixOver_sides hrange hr (nodup_boundary hm hr) hgroups hblocks
  exact ⟨sides, hsides, hover.of_toDense (by simp) (by simp)
    (direct_eq_triplet_sides hrange hdistinct hgroups hblocks)⟩

/-- A segment whose ends have a tag. -/
noncomputable def taggedSegment : Mesh ℝ :=
  ((Mesh.ofLists (.integer 1) [[0], [1]] [(.line2, [1, 2])]).freeze.2.addBoundary (.name "ends") []
    false).2

theorem reachable_taggedSegment : taggedSegment.Reachable :=
  .step (.step (Mesh.reachable_ofLists _ (by simp) (by simp [Family.nodeCount])) (.freeze _))
    (.addBoundary _ _ _ _)

theorem assembly_over_taggedSegment :
    (∃ A, matrix taggedSegment .ones (some (.name "ends")) .triplet = .ok A ∧
      ∃ sides, IsTagged taggedSegment (.name "ends") sides ∧
        Kernel.ones.IsMatrixOver sides taggedSegment.dofs A) ∧
    (∃ A, matrix taggedSegment .ones (some (.name "ends")) .direct = .ok A ∧
      ∃ sides, IsTagged taggedSegment (.name "ends") sides ∧
        Kernel.ones.IsMatrixOver sides taggedSegment.dofs A) ∧
    ∃ v, vector taggedSegment .ones (some (.name "ends")) = .ok v ∧
      ∃ sides, IsTagged taggedSegment (.name "ends") sides ∧
        Kernel.ones.IsVectorOver sides taggedSegment.dofs v := by
  have hfrozen : taggedSegment.frozen = true := by decide +kernel
  have hdistinct : ∀ c ∈ taggedSegment.cells, c.element.nodeIds.Nodup := by decide +kernel
  obtain ⟨htriplet, hdirect, hvector⟩ :=
    assembly_over_sides reachable_taggedSegment hfrozen .ones (.name "ends")
  obtain ⟨A, hA⟩ : ∃ A, matrix taggedSegment .ones (some (.name "ends")) .triplet = .ok A :=
    exists_of_toBool (by decide +kernel)
  obtain ⟨B, hB⟩ : ∃ B, matrix taggedSegment .ones (some (.name "ends")) .direct = .ok B :=
    exists_of_toBool (by decide +kernel)
  obtain ⟨v, hv⟩ : ∃ v, vector taggedSegment .ones (some (.name "ends")) = .ok v :=
    exists_of_toBool (by decide +kernel)
  exact ⟨⟨A, hA, htriplet A hA⟩, ⟨B, hB, hdirect hdistinct B hB⟩, ⟨v, hv, hvector v hv⟩⟩

end Tagged

section Domains

variable {m : Mesh ℝ} {k : Kernel ℝ} {boundary : Option TagId} {es es' : List (Element ℝ)}

/-- The elements over which is assembled: all of a mesh, or the sides with a tag. -/
def IsDomain (m : Mesh ℝ) : Option TagId → List (Element ℝ) → Prop
  | none, es => es = m.cells.map Cell.element
  | some tag, es => IsTagged m tag es

theorem IsDomain.unique (h : IsDomain m boundary es) (h' : IsDomain m boundary es') : es = es' := by
  cases boundary with
  | none => exact h.trans h'.symm
  | some tag =>
    obtain ⟨r, hr, -, hes⟩ := h
    obtain ⟨r', hr', -, hes'⟩ := h'
    obtain rfl := Except.ok.inj (hr.symm.trans hr')
    exact Except.ok.inj (hes.symm.trans hes')

theorem exists_matrix_domain (h : IsDomain m boundary es)
    (hes : ∀ e ∈ es, ∃ K, k.localMatrix e = .ok K) : ∃ A, matrix m k boundary .triplet = .ok A := by
  cases boundary with
  | none => exact exists_matrix fun c hc => hes _ (h ▸ List.mem_map_of_mem hc)
  | some tag =>
    obtain ⟨r, hr, -, hsides⟩ := h
    exact exists_matrix_sides hr hsides hes

theorem exists_vector_domain (h : IsDomain m boundary es)
    (hes : ∀ e ∈ es, ∃ f, k.localVector e = .ok f) : ∃ v, vector m k boundary = .ok v := by
  cases boundary with
  | none => exact exists_vector fun c hc => hes _ (h ▸ List.mem_map_of_mem hc)
  | some tag =>
    obtain ⟨r, hr, -, hsides⟩ := h
    exact exists_vector_sides hr hsides hes

variable (hm : m.Reachable) (hf : m.frozen = true)
include hm hf

theorem isMatrixOver_domain {A : SparseMatrix ℝ} (hA : matrix m k boundary .triplet = .ok A) :
    ∃ es, IsDomain m boundary es ∧ k.IsMatrixOver es m.dofs A := by
  cases boundary with
  | none => exact ⟨_, rfl, isMatrixOver_cells (inRange hm hf) hA⟩
  | some tag => exact isMatrixOver_tagged hm hf hA

theorem isVectorOver_domain {v : Array ℝ} (hv : vector m k boundary = .ok v) :
    ∃ es, IsDomain m boundary es ∧ k.IsVectorOver es m.dofs v := by
  cases boundary with
  | none => exact ⟨_, rfl, isVectorOver_cells (inRange hm hf) hv⟩
  | some tag => exact isVectorOver_tagged hm hf hv

end Domains

end Assembly
end WeakForm
